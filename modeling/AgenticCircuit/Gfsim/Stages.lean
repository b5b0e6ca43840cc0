import AgenticCircuit.Gfsim.Transition

/-! # The stages of a step as paths of moves

One lemma for each stage of `step`: its run is a path of `Trans`, an early return leaves the
path through `Halt`, and when control goes on the system stands where the next stage expects
it.  `InEpoch` is that position inside an executing epoch. -/

namespace AgenticCircuit.Gfsim

open List Control Exit
open Relation (ReflTransGen)

section stages

variable {W : Type} {m : Model W} {s : State W} {P Q : State W → Prop}

variable (m) in
/-- The run of `x` from `s` is a path of `Trans` to a state that satisfies `Q`, or returns. -/
def Along (x : Exit (State W) Unit) (s : State W) (Q : State W → Prop) : Prop :=
  Follows (Trans m) (Halts m) x s (fun _ t => Q t)

variable {x : Exit (State W) Unit} {ι : Type} {l : List ι} {id : ObjectId}
    {f : ι → Exit (State W) Unit} {cause : Cause}

theorem along_pure (h : Q s) : Along m (pure ()) s Q := follows_pure h

theorem along_bind {f : Unit → Exit (State W) Unit} (hx : Along m x s P)
    (hf : ∀ t, P t → Along m (f ()) t Q) : Along m (x >>= f) s Q :=
  follows_bind hx (fun _ t _ ht => hf t ht)

theorem along_get {f : State W → Exit (State W) Unit} (h : Along m (f s) s Q) :
    Along m (Exit.get >>= f) s Q := follows_get_bind h

theorem along_mono (hx : Along m x s P) (h : ∀ t, P t → Q t) :
    Along m x s Q := Follows.mono hx (fun _ t _ ht => h t ht)

theorem along_path (hx : Along m x s P) : Along m x s (fun t => P t ∧ ReflTransGen (Trans m) s t) :=
  Follows.mono hx (fun _ _ hst ht => ⟨ht, hst⟩)

theorem along_onSys {f : SimSystem → SimSystem} (h : Move m.config s.sys (f s.sys))
    (hown : OwnMove s.sys (f s.sys)) (hQ : Q { s with sys := f s.sys }) :
    Along m (onSys f) s Q :=
  follows_modify (.single (.move h hown)) hQ

theorem along_modify {f : State W → State W} (h : ReflTransGen (Trans m) s (f s))
    (hQ : Q (f s)) : Along m (modify f) s Q := follows_modify h hQ

theorem along_stopWith {f : SimSystem → SimSystem} (h : Halt m.config s.sys (f s.sys))
    (hrefused : (f s.sys).result.diagnostic = some .invalidEventNotification →
      s.sys.result.diagnostic = some .invalidEventNotification ∨ Refused m s) :
    Along m (stopWith f) s Q := follows_stop ⟨h, rfl, hrefused⟩

theorem along_failWith {d : Diagnostic} (live : s.sys.terminated = false)
    (hd : d.ofStep = true) (hrefused : d = .invalidEventNotification → Refused m s) :
    Along m (failWith d) s Q :=
  along_stopWith (.failed live hd) fun h => Or.inr (hrefused (Option.some.inj h))

theorem along_forEach (P : List ι → State W → Prop)
    (hround : ∀ i is s, P (i :: is) s → Along m (f i) s (P is)) (l : List ι) (hs : P l s) :
    Along m (forEach l f) s (P []) :=
  follows_forEach P hround l s hs

/-- A loop whose rounds keep an assertion. -/
theorem along_forEach_of_inv (hround : ∀ i ∈ l, ∀ s, P s → Along m (f i) s P) (hs : P s) :
    Along m (forEach l f) s P := by
  refine along_mono (along_forEach (fun is t => (∀ i ∈ is, i ∈ l) ∧ P t)
    (fun i is t ht => ?_) l ⟨fun _ h => h, hs⟩) (fun t ht => ht.2)
  refine along_mono (hround i (ht.1 i mem_cons_self) t ht.2) (fun r hr => ?_)
  exact ⟨fun j hj => ht.1 j (mem_cons_of_mem _ hj), hr⟩

/-- A loop that does something for each element and does not undo it. -/
theorem along_forEach_all {D : ι → State W → Prop} (hround : ∀ i ∈ l, ∀ s, P s →
      Along m (f i) s (fun t => P t ∧ D i t ∧ ∀ j, D j s → D j t)) (hs : P s) :
    Along m (forEach l f) s (fun t => P t ∧ ∀ i ∈ l, D i t) := by
  refine along_mono (along_forEach (fun is t => P t ∧ (∀ i ∈ is, i ∈ l) ∧
    ∀ i ∈ l, i ∈ is ∨ D i t) (fun i is t ht => ?_) l ⟨hs, fun _ h => h, fun _ h => Or.inl h⟩)
    fun t ht => ⟨ht.1, fun i hi => (ht.2.2 i hi).resolve_left not_mem_nil⟩
  refine along_mono (hround i (ht.2.1 i mem_cons_self) t ht.1) fun r hr =>
    ⟨hr.1, fun j hj => ht.2.1 j (mem_cons_of_mem _ hj), fun j hj => ?_⟩
  rcases ht.2.2 j hj with hj | hj
  · rcases mem_cons.mp hj with rfl | hj
    · exact Or.inr hr.2.1
    · exact Or.inl hj
  · exact Or.inr (hr.2.2 j hj)

theorem along_returnIfTerminated (h : s.sys.terminated = false → Q s) :
    Along m returnIfTerminated s Q := by
  refine along_get ?_
  split
  · rename_i hterm
    exact along_stopWith (.returned _ hterm) Or.inl
  · rename_i hterm
    exact along_pure (h ((Bool.not_eq_true _).mp hterm))

/-! ### Scheduling and methods -/

/-- An accepted request leaves everything alone but the schedule and the history. -/
theorem along_schedule {epoch : Epoch} (live : s.sys.terminated = false)
    (hcause : ∀ e, (e = epoch ∨ (s.sys.executingEpoch = true ∧ epoch = s.sys.epoch ∧ e =
      s.sys.epoch.nextDelta)) → cause.Justified m.config s.sys id e)
    (hQ : ∀ e, (e = epoch ∨ (s.sys.executingEpoch = true ∧ epoch = s.sys.epoch ∧ e =
      s.sys.epoch.nextDelta)) → Q { s with sys := s.sys.insertWork cause id e }) :
    Along m (schedule m cause id epoch) s Q := by
  refine along_get ?_
  dsimp only
  rcases SimSystem.scheduleWork_cases (c := m.config) (s := s.sys) cause id epoch with
    ⟨hr, ⟨hterm, _⟩ | ⟨_, d, hd, h⟩⟩ | ⟨hr, _, e, hle, hlt, hdelta, htarget, he, h⟩
  · rw [live] at hterm
    cases hterm
  · rw [hr, if_neg Bool.false_ne_true, h]
    constructor
    · intro a t ht
      cases ht
    · intro t ht
      cases ht
      exact ⟨{ s with sys := s.sys.fail d }, .single (.move (.call (.fail live hd)) ⟨prefix_rfl, fun _ => rfl⟩),
        .returned _ rfl, rfl, Or.inl⟩
  · rw [hr, if_pos rfl, h]
    exact along_onSys (f := fun _ => s.sys.insertWork cause id e)
      (.call (.schedule live hle hlt hdelta htarget (hcause e he))) ⟨prefix_rfl, fun _ => rfl⟩ (hQ e he)

variable {method : Ptr → Epoch → W → Body W} {s t : State W}

theorem along_callObject (htrans : ∀ p, m.config.lookup id = some p → Trans m s (s.call m method p))
    (hQ : ∀ t, ReflTransGen (Call m.config) s.sys t.sys → Q t) :
    Along m (callObject m method id) s Q := by
  unfold callObject
  split
  · exact along_pure (hQ s .refl)
  · rename_i p hp
    exact along_modify (.single (htrans p hp)) (hQ _ (Body.exec_calls _ _ _))

theorem along_setOwner {owner : Option ObjectId} (live : s.sys.terminated = false)
    (hQ : Q { s with sys := { s.sys with activeProposalOwner := owner } }) :
    Along m (setOwner owner) s Q :=
  along_onSys (f := fun s => { s with activeProposalOwner := owner })
    (.note _ _ _ _ _ _ owner _ live rfl rfl rfl) ⟨prefix_rfl, fun _ => rfl⟩ hQ

/-! ### Before the epoch opens -/

theorem along_refreshRuntimeSummary (live : s.sys.terminated = false)
    (hQ : Q { s with sys := refreshed m s }) : Along m (refreshRuntimeSummary m) s Q :=
  along_modify (.single (.move (.note _ _ _ _ _ _ _ _ live rfl rfl rfl) ⟨prefix_rfl, fun _ => rfl⟩)) hQ

/-- What the checks before an epoch leave alone. -/
def SameRun (s t : State W) : Prop :=
  t.sys.control = s.sys.control ∧ t.sys.eventQueue = s.sys.eventQueue ∧
    t.sys.committedEventCount = s.sys.committedEventCount

theorem SameRun.trans {s t r : State W} (h : SameRun s t) (h' : SameRun t r) : SameRun s r :=
  ⟨h'.1.trans h.1, h'.2.1.trans h.2.1, h'.2.2.trans h.2.2⟩

theorem SameRun.live (h : SameRun s t) (live : s.sys.terminated = false) :
    t.sys.terminated = false := (congrArg terminated h.1).trans live

theorem SameRun.free (h : SameRun s t) (hfree : s.sys.trail.inFlight = none) :
    t.sys.trail.inFlight = none := (congrArg inFlight h.1).trans hfree

theorem along_validateRuntimeIdentities (live : s.sys.terminated = false) :
    Along m (validateRuntimeIdentities m) s (SameRun s) := by
  refine along_get ?_
  split
  · exact along_pure ⟨rfl, rfl, rfl⟩
  · split
    · exact along_failWith live rfl nofun
    · exact along_onSys (f := fun s => { s with preflightValidated := true })
        (.note _ _ _ _ true _ _ _ live rfl rfl rfl) ⟨prefix_rfl, fun _ => rfl⟩ ⟨rfl, rfl, rfl⟩

section

variable (live : s.sys.terminated = false) (hfree : s.sys.trail.inFlight = none)

include live hfree

theorem along_stopAtTraceCap : Along m (stopAtTraceCap m) s (SameRun s) := by
  refine along_bind (P := fun t => SameRun s t)
    (along_refreshRuntimeSummary live ⟨rfl, rfl, rfl⟩) fun t ht => ?_
  refine along_get ?_
  dsimp only
  split
  · exact along_failWith (ht.live live) rfl nofun
  · split
    · exact along_pure ht
    · exact along_stopWith (.capped (ht.live live) (ht.free hfree) rfl) nofun

theorem along_stopAtMaxTicks :
    Along m (stopAtMaxTicks m) s (fun t => SameRun s t ∧ t.sys.epoch.time < m.config.maxTicks) := by
  refine along_get ?_
  split
  · rename_i htime
    exact along_stopWith (.maxTicks live hfree htime) nofun
  · rename_i htime
    exact along_pure ⟨⟨rfl, rfl, rfl⟩, not_le.mp htime⟩

theorem along_countDomainCycle (domain : TimeDomainRuntime) :
    Along m (countDomainCycle m domain) s (SameRun s) := by
  have hcount (cycles : List (String × ℕ)) :
      Move m.config s.sys { s.sys with domainCycles := cycles } :=
    .note _ _ _ _ _ cycles _ _ live rfl rfl rfl
  refine along_get ?_
  dsimp only
  split
  · exact along_pure ⟨rfl, rfl, rfl⟩
  · split
    · split
      · exact along_stopWith (.capped live hfree rfl) nofun
      · exact along_onSys (hcount _) ⟨prefix_rfl, fun _ => rfl⟩ ⟨rfl, rfl, rfl⟩
    · exact along_onSys (hcount _) ⟨prefix_rfl, fun _ => rfl⟩ ⟨rfl, rfl, rfl⟩

theorem along_countDomainCycles : Along m (countDomainCycles m) s (SameRun s) := by
  refine along_get ?_
  split
  · refine along_forEach_of_inv (fun domain _ t ht => ?_) ⟨rfl, rfl, rfl⟩
    exact along_mono (along_countDomainCycle (ht.live live) (ht.free hfree) domain) fun _ h => ht.trans h
  · exact along_pure ⟨rfl, rfl, rfl⟩

theorem along_stopAtEventCap (hQ : s.sys.committedEventCount < m.config.maxEvents → Q s) :
    Along m (stopAtEventCap m) s Q := by
  refine along_get ?_
  split
  · rename_i hcap
    exact along_pure (hQ hcap)
  · exact along_stopWith (.capped live hfree rfl) nofun

/-- The checks before the cycles of the time domains are counted. -/
def checks (m : Model W) : Exit (State W) Unit := do
  returnIfTerminated
  validateRuntimeIdentities m
  stopAtTraceCap m
  stopAtMaxTicks m

omit live hfree in
theorem preflight_eq : preflight m = (do checks m; countDomainCycles m; stopAtEventCap m) := by
  simp only [checks, bind_assoc]
  rfl

theorem along_checks :
    Along m (checks m) s (fun t => SameRun s t ∧ s.sys.epoch.time < m.config.maxTicks) := by
  refine along_bind (P := SameRun s)
    (along_returnIfTerminated fun _ => ⟨rfl, rfl, rfl⟩) fun t ht => ?_
  refine along_bind (P := SameRun s) (along_mono
    (along_validateRuntimeIdentities (ht.live live)) fun _ h => ht.trans h) fun t ht => ?_
  refine along_bind (P := SameRun s) (along_mono
    (along_stopAtTraceCap (ht.live live) (ht.free hfree)) fun _ h => ht.trans h) fun t ht => ?_
  refine along_mono (along_stopAtMaxTicks (ht.live live) (ht.free hfree))
    fun r h => ⟨ht.trans h.1, ?_⟩
  have hepoch : r.sys.epoch = s.sys.epoch := congrArg epoch (ht.trans h.1).1
  rw [← hepoch]
  exact h.2

theorem along_preflight :
    Along m (preflight m) s (fun t => SameRun s t ∧ s.sys.epoch.time < m.config.maxTicks) := by
  rw [preflight_eq]
  refine along_bind (along_checks live hfree) fun t ht => ?_
  refine along_bind (P := fun r => SameRun s r ∧ s.sys.epoch.time < m.config.maxTicks)
    (along_mono (along_countDomainCycles (ht.1.live live) (ht.1.free hfree))
      fun _ h => ⟨ht.1.trans h, ht.2⟩) fun t ht => ?_
  exact along_stopAtEventCap (ht.1.live live) (ht.1.free hfree) fun _ => ht

end

/-! ### Event delivery -/

variable {event : Event} {id : ObjectId}

theorem along_activateConsumer (live : s.sys.terminated = false)
    (hflight : s.sys.trail.inFlight = some event) (consumer : ObjectId) :
    Along m (activateConsumer m event consumer) s (SameRun s) := by
  have hschedule (w : W) : Along m (schedule m (.event event) consumer s.sys.epoch)
      { s with world := w } (SameRun s) := by
    refine along_schedule (s := { s with world := w }) live (fun e he => ⟨hflight, ?_⟩)
      (fun e _ => ⟨rfl, rfl, rfl⟩)
    exact he.imp id (fun h => ⟨h.1, h.2.2⟩)
  unfold activateConsumer
  split
  · rename_i p _
    refine along_get ?_
    refine along_bind (P := fun t => t = { s with world := _ })
      (along_modify (.single (.activate p event.targetId)) rfl) ?_
    rintro _ rfl
    refine along_get ?_
    unfold scheduleIf
    split
    · exact hschedule _
    · exact along_pure ⟨rfl, rfl, rfl⟩
  · exact along_get (hschedule _)

theorem along_deliverReadyEvent (live : s.sys.terminated = false)
    (hflight : s.sys.trail.inFlight = some event) :
    Along m (deliverReadyEvent m event) s (SameRun s) := by
  unfold deliverReadyEvent
  split
  · rename_i hp
    refine along_failWith live rfl fun _ => ⟨event, hflight, fun p hp' => ?_⟩
    rw [hp] at hp'
    cases hp'
  · rename_i p hp
    refine along_get ?_
    refine along_bind (P := fun t => t = { s with world := _ })
      (along_modify (.single (.deliver hflight hp)) rfl) ?_
    rintro _ rfl
    split
    · rename_i hanswer
      refine along_failWith live rfl fun _ => ⟨event, hflight, fun p' hp' => ⟨s.world, ?_⟩⟩
      rw [hp] at hp'
      cases hp'
      exact Prod.ext (by simpa using hanswer) rfl
    · split
      · refine along_get (along_schedule live (fun e he => ⟨hflight, ?_⟩)
          (fun e _ => ⟨rfl, rfl, rfl⟩))
        exact he.imp id (fun h => ⟨h.1, h.2.2⟩)
      · refine along_forEach_of_inv (fun consumer _ t ht => ?_) ⟨rfl, rfl, rfl⟩
        have hflight : t.sys.trail.inFlight = some event :=
          (congrArg inFlight ht.1).trans hflight
        exact along_mono (along_activateConsumer (ht.live live) hflight consumer)
          fun _ h => ht.trans h

/-- Between deliveries the step stands where it stood, and no event has been proposed. -/
def Delivered (s t : State W) : Prop :=
  t.sys.control = s.sys.control ∧
    t.sys.eventQueue.pushProposals = s.sys.eventQueue.pushProposals

theorem along_deliverRounds : ∀ (n : ℕ) {s : State W}, s.sys.terminated = false →
    s.sys.trail.inFlight = none → Along m (deliverRounds m n) s (fun t => Delivered s t ∧
      (s.sys.eventQueue.committed.length ≤ n → NoneDue t.sys))
  | 0, s, _, _ => by
    refine along_pure ⟨⟨rfl, rfl⟩, fun hlen event hnext => ?_⟩
    rw [Nat.le_zero, length_eq_zero_iff] at hlen
    rw [EventQueue.nextEvent, hlen] at hnext
    cases hnext
  | n + 1, s, live, hfree => by
    refine along_get ?_
    dsimp only
    split
    · rename_i hnone
      refine along_pure ⟨⟨rfl, rfl⟩, fun _ event hnext => ?_⟩
      rw [hnone] at hnext
      cases hnext
    · rename_i event hnext
      split
      · rename_i hlt
        exact along_stopWith (.stale live hnext hlt) nofun
      rename_i hlt
      split
      · rename_i hne
        refine along_pure ⟨⟨rfl, rfl⟩, fun _ event' hnext' => ?_⟩
        rw [hnext] at hnext'
        cases hnext'
        exact hne
      · rename_i hready
        obtain ⟨rest, hcommitted⟩ : ∃ rest, s.sys.eventQueue.committed = event :: rest :=
          head?_eq_some_iff.mp hnext
        refine along_bind (P := fun t => s = t ∧ s.sys.committedEventCount < m.config.maxEvents)
          (along_stopAtEventCap live hfree fun hcap => ⟨rfl, hcap⟩) ?_
        rintro _ ⟨rfl, hcap⟩
        refine along_bind (P := fun t => t = { s with sys := s.sys.takeEvent event })
          (along_onSys (.take live hcommitted (not_not.mp hready) hcap hfree) ⟨prefix_rfl, fun _ => rfl⟩ rfl) ?_
        rintro _ rfl
        refine along_bind (along_deliverReadyEvent live rfl) fun t ht => ?_
        have hcontrol : (t.sys.countEvent event).control = s.sys.control := calc
          (t.sys.countEvent event).control = { t.sys.control with inFlight := none } := rfl
          _ = { (s.sys.takeEvent event).control with inFlight := none } := by rw [ht.1]
          _ = { s.sys.control with inFlight := none } := rfl
          _ = s.sys.control := by rw [← hfree]; rfl
        have hqueue : t.sys.eventQueue = s.sys.eventQueue.popNext := ht.2.1
        refine along_bind (P := fun r => r = { t with sys := t.sys.countEvent event })
          (along_onSys (.count (ht.live live) (congrArg inFlight ht.1)) ⟨prefix_rfl, fun _ => rfl⟩
            rfl) ?_
        rintro _ rfl
        refine along_mono (along_deliverRounds n ((congrArg terminated hcontrol).trans
          live) ((congrArg inFlight hcontrol).trans hfree)) fun r hr => ⟨⟨?_, ?_⟩, ?_⟩
        · exact hr.1.1.trans hcontrol
        · rw [hr.1.2]
          change t.sys.eventQueue.pushProposals = _
          rw [hqueue]
          rfl
        · intro hlen
          refine hr.2 ?_
          change t.sys.eventQueue.committed.length ≤ n
          rw [hqueue]
          change s.sys.eventQueue.committed.tail.length ≤ n
          rw [hcommitted, length_cons] at hlen
          rw [hcommitted, tail_cons]
          omega

theorem along_deliverEvents (live : s.sys.terminated = false)
    (hfree : s.sys.trail.inFlight = none) :
    Along m (deliverEvents m) s (fun t => Delivered s t ∧ NoneDue t.sys) := by
  refine along_get ?_
  exact along_mono (along_deliverRounds _ live hfree) fun t ht => ⟨ht.1, ht.2 (le_refl _)⟩

/-! ### Work and arbitration -/

/-- The position of a step in an executing epoch: the objects whose Work is still to run,
whether the participants have been gathered, and those whose Xfer is still to run. -/
structure InEpoch (k : Control) (work : List ObjectId) (gathered : Bool)
    (xfer : List ObjectId) : Prop where
  live : k.terminated = false
  executing : k.executingEpoch = true
  free : k.inFlight = none
  work : k.currentWork = k.workDone ++ work
  gathered : k.gathered = gathered
  unfinished : k.gathered = false → k.xferDone = []
  xfer : k.gathered = true → k.xferObjects = k.xferDone ++ xfer
  owner : k.activeProposalOwner = none

/-- The method of an object under its ownership, and the check for a termination. -/
theorem along_ownedCall (live : s.sys.terminated = false)
    (howner : s.sys.activeProposalOwner = none)
    (htrans : ∀ t : State W, t.sys.control = { s.sys.control with activeProposalOwner := some id } →
      ∀ p, m.config.lookup id = some p → Trans m t (t.call m method p))
    (hQ : ∀ t : State W, t.sys.control = s.sys.control → Q t) :
    Along m (do setOwner (some id); callObject m method id; setOwner none; returnIfTerminated)
      s Q := by
  refine along_bind (P := fun t => t.sys.control =
    { s.sys.control with activeProposalOwner := some id }) (along_setOwner live rfl) fun t ht => ?_
  refine along_bind (P := fun r => ReflTransGen (Call m.config) t.sys r.sys)
    (along_callObject (htrans t ht) fun r hr => hr) fun r hr => ?_
  by_cases hlive : r.sys.terminated = false
  · refine along_bind (P := fun q => q.sys.control = s.sys.control) (along_setOwner hlive ?_)
      fun q hq => along_returnIfTerminated fun _ => hQ q hq
    calc
      _ = { r.sys.control with activeProposalOwner := none } := rfl
      _ = { s.sys.control with activeProposalOwner := none } := by
          rw [control_eq_of_calls_live hr hlive, ht]
      _ = s.sys.control := by rw [← howner]; rfl
  · rw [Bool.not_eq_false] at hlive
    constructor
    · intro a q hq
      change (if r.sys.terminated then _ else _ : Exit (State W) Unit) _ = _ at hq
      rw [if_pos hlive] at hq
      cases hq
    · intro q hq
      change (if r.sys.terminated then _ else _ : Exit (State W) Unit) _ = _ at hq
      rw [if_pos hlive] at hq
      cases hq
      exact ⟨r, .refl, .returned none hlive, rfl, Or.inl⟩

theorem along_workOne {rest : List ObjectId} (hs : InEpoch s.sys.control (id :: rest) false []) :
    Along m (workOne m id) s (fun t => InEpoch t.sys.control rest false []) := by
  refine along_bind (P := fun t => t = { s with sys := s.sys.startWork id })
    (along_onSys (.startWork hs.live hs.executing hs.work) ⟨prefix_rfl, fun _ => rfl⟩ rfl) ?_
  rintro _ rfl
  have hwork : s.sys.currentWork = s.sys.trail.workDone ++ id :: rest := hs.work
  have hnext : InEpoch (s.sys.startWork id).control rest false [] := by
    refine ⟨hs.live, hs.executing, hs.free, ?_, hs.gathered, hs.unfinished, hs.xfer, hs.owner⟩
    change s.sys.currentWork = (s.sys.trail.workDone ++ [id]) ++ rest
    rw [append_assoc]
    exact hs.work
  refine along_ownedCall hs.live hs.owner (fun t ht p hp => ?_) fun r hr => hr ▸ hnext
  have hcur : t.sys.currentWork = s.sys.currentWork := congrArg currentWork ht
  refine .work ((congrArg terminated ht).trans hs.live)
    ((congrArg executingEpoch ht).trans hs.executing)
    ((congrArg gathered ht).trans hs.gathered)
    ((congrArg xferDone ht).trans (hs.unfinished hs.gathered))
    (congrArg activeProposalOwner ht) ?_ hp
  rw [hcur, hwork]
  exact mem_append_right _ mem_cons_self

theorem along_arbitrateOne (hs : InEpoch s.sys.control [] true s.sys.xferObjects)
    (hid : id ∈ s.sys.xferObjects) :
    Along m (arbitrateOne m id) s (fun t => t.sys.control = s.sys.control) := by
  have hxfer : s.sys.xferObjects = s.sys.trail.xferDone ++ s.sys.xferObjects :=
    hs.xfer hs.gathered
  refine along_ownedCall hs.live hs.owner (fun t ht p hp => ?_) fun r hr => hr
  have hobjects : t.sys.xferObjects = s.sys.xferObjects := congrArg xferObjects ht
  refine .arbitrate ((congrArg terminated ht).trans hs.live)
    ((congrArg executingEpoch ht).trans hs.executing)
    ((congrArg gathered ht).trans hs.gathered)
    ((congrArg xferDone ht).trans (self_eq_append_left.mp hxfer))
    (congrArg activeProposalOwner ht) (hobjects ▸ hid) hp

section

variable (live : s.sys.terminated = false)

include live

/-- Work and arbitration leave the participants gathered and none of them committed. -/
theorem along_propose (hclosed : s.sys.executingEpoch = false) (hfree : s.sys.trail.inFlight = none)
    (howner : s.sys.activeProposalOwner = none) (htime : s.sys.epoch.time < m.config.maxTicks)
    (hnone : NoneDue s.sys) :
    Along m (propose m) s (fun t => InEpoch t.sys.control [] true t.sys.xferObjects) := by
  refine along_bind (P := fun t => InEpoch t.sys.control t.sys.currentWork false [])
    (along_onSys (.openEpoch live hclosed hfree htime hnone) ⟨⟨_, rfl⟩, fun _ => rfl⟩
      ⟨live, rfl, hfree, rfl, rfl, fun _ => rfl, nofun, howner⟩) fun t ht => ?_
  refine along_get (along_bind (P := fun r => InEpoch r.sys.control [] false [])
    (along_forEach (fun is r => InEpoch r.sys.control is false [])
      (fun id is r hr => along_workOne hr) _ ht) fun r hr => ?_)
  have hdone : r.sys.trail.xferDone = [] := hr.unfinished hr.gathered
  have hwork : r.sys.currentWork = r.sys.trail.workDone := by
    rw [← append_nil r.sys.trail.workDone]
    exact hr.work
  refine along_bind (P := fun q => InEpoch q.sys.control [] true q.sys.xferObjects)
    (along_onSys (.gather hr.live hr.executing hwork hr.gathered hdone) ⟨prefix_rfl, fun _ => rfl⟩
      ⟨hr.live, hr.executing, hr.free, hr.work, rfl, nofun, fun _ => ?_, hr.owner⟩) fun q hq => ?_
  · change _ = r.sys.trail.xferDone ++ _
    rw [hdone]
    rfl
  · refine along_get (along_mono (along_forEach_of_inv
      (P := fun t => t.sys.control = q.sys.control) (fun id hid t ht => ?_) rfl) fun t ht => ?_)
    · have hobjects : t.sys.xferObjects = q.sys.xferObjects := congrArg xferObjects ht
      rw [← hobjects] at hid
      refine along_mono (along_arbitrateOne ?_ hid) fun _ h => h.trans ht
      rw [ht, hobjects]
      exact hq
    · have hobjects : t.sys.xferObjects = q.sys.xferObjects := congrArg xferObjects ht
      rw [ht, hobjects]
      exact hq

/-! ### The Xfer barrier -/

theorem along_validateOne (id : ObjectId) : Along m (validateOne m id) s (fun t => t = s) := by
  refine along_get ?_
  dsimp only
  split
  · exact along_pure rfl
  · split
    · exact along_pure rfl
    · exact along_failWith live rfl nofun

theorem along_returnIfFailed (id : ObjectId) (hQ : Q s) : Along m (returnIfFailed m id) s Q := by
  refine along_get ?_
  dsimp only
  split
  · exact along_pure hQ
  · split
    · exact along_pure hQ
    · exact along_failWith live rfl nofun

theorem along_publishObservations (id : ObjectId) (committed : Bool) :
    Along m (publishObservations id committed) s (fun t => t.sys.control = s.sys.control) := by
  have hnote (observations : ObservationRecorder) :
      Move m.config s.sys { s.sys with observations := observations } :=
    .note _ _ _ _ _ _ _ observations live rfl rfl rfl
  refine along_get ?_
  dsimp only
  split
  · split
    · exact along_onSys (hnote _) ⟨prefix_rfl, fun _ => rfl⟩ rfl
    · constructor
      · intro a t ht
        cases ht
      · intro t ht
        cases ht
        exact ⟨⟨_, s.world⟩, .single (.move (hnote (s.sys.observations.commitOwner id s.sys.epoch).1)
          ⟨prefix_rfl, fun _ => rfl⟩), .failed live rfl, rfl, nofun⟩
  · exact along_onSys (hnote _) ⟨prefix_rfl, fun _ => rfl⟩ rfl

end

variable {c : Config} {id source : ObjectId} {rest : List ObjectId}

theorem committedThisTick_congr {s t : SimSystem} (hcommit : t.lastCommitTick = s.lastCommitTick)
    (hepoch : t.epoch = s.epoch) (id : ObjectId) :
    t.committedThisTick c id = s.committedThisTick c id := by
  unfold SimSystem.committedThisTick
  rw [hcommit, hepoch]

theorem InEpoch.markXfer (hs : InEpoch s.sys.control [] true (id :: rest)) :
    InEpoch (s.sys.markXfer id).control [] true rest := by
  refine ⟨hs.live, hs.executing, hs.free, hs.work, hs.gathered, ?_, fun _ => ?_, hs.owner⟩
  · intro hopen
    cases hs.gathered.symm.trans hopen
  · change s.sys.xferObjects = (s.sys.trail.xferDone ++ [id]) ++ rest
    rw [append_assoc]
    exact hs.xfer hs.gathered

theorem xferObject_of_none (hp : m.config.lookup id = none) :
    xferObject m id s = (some (), { s with sys := s.sys.markXfer id }) := by
  change callObject m _ id _ = _
  rw [callObject, hp]
  rfl

theorem xferObject_of_some {p : Ptr} (hp : m.config.lookup id = some p) :
    xferObject m id s =
      (some (), State.call m m.hooks.doXfer p { s with sys := s.sys.markXfer id }) := by
  change callObject m _ id _ = _
  rw [callObject, hp]
  rfl

theorem along_xferObject (hs : InEpoch s.sys.control [] true (id :: rest))
    (hfirst : willCommit m s id = true → s.sys.committedThisTick m.config id = false)
    (hQ : ∀ t, ReflTransGen (Call m.config) (s.sys.markXfer id) t.sys → Q t) :
    Along m (xferObject m id) s Q := by
  have hxfer : s.sys.xferObjects = s.sys.trail.xferDone ++ id :: rest := hs.xfer hs.gathered
  cases hp : m.config.lookup id with
  | none =>
    have hrun := xferObject_of_none (s := s) hp
    constructor
    · intro _ t ht
      cases hrun.symm.trans ht
      exact ⟨.single (.skipXfer hs.live hs.executing hs.gathered hxfer hp), hQ _ .refl⟩
    · intro t ht
      cases hrun.symm.trans ht
  | some p =>
    have hrun := xferObject_of_some (s := s) hp
    have hpending : m.hooks.hasPendingCommit p s.world = true →
        s.sys.committedThisTick m.config id = false := by
      intro h
      refine hfirst ?_
      rw [willCommit, hp]
      exact h
    constructor
    · intro _ t ht
      cases hrun.symm.trans ht
      exact ⟨.single (.xfer hs.live hs.executing hs.gathered hs.owner hxfer hpending hp),
        hQ _ (Body.exec_calls _ _ _)⟩
    · intro t ht
      cases hrun.symm.trans ht

/-- The end of a round of the commit loop, after the object's Xfer. -/
theorem along_afterXfer {done : List ObjectId} (committed : Bool)
    (hs : InEpoch s.sys.control [] true rest) (hdone : s.sys.trail.xferDone = done ++ [id])
    (hfirst : committed = true → s.sys.committedThisTick m.config id = false) :
    Along m (do
      recordCommit m id committed
      returnIfTerminated
      returnIfFailed m id
      publishObservations id committed) s (fun t => InEpoch t.sys.control [] true rest) := by
  refine along_bind (P := fun t => InEpoch t.sys.control [] true rest) ?_ fun t ht => ?_
  · unfold recordCommit
    split
    · rename_i hcommitted
      exact along_onSys (.publish hs.live hs.executing hs.gathered hdone (hfirst hcommitted))
        ⟨prefix_rfl, fun _ => rfl⟩ ⟨hs.live, hs.executing, hs.free, hs.work, hs.gathered, hs.unfinished,
          hs.xfer, hs.owner⟩
    · exact along_pure hs
  · refine along_bind (P := fun t => InEpoch t.sys.control [] true rest)
      (along_returnIfTerminated fun _ => ht) fun t ht => ?_
    refine along_bind (P := fun t => InEpoch t.sys.control [] true rest)
      (along_returnIfFailed ht.live id ht) fun t ht => ?_
    exact along_mono (along_publishObservations ht.live id committed) fun r hr => hr ▸ ht

theorem commitOne_eq (id : ObjectId)
    (h : (willCommit m s id && s.sys.committedThisTick m.config id) = false) :
    commitOne m id s = (do
      xferObject m id
      recordCommit m id (willCommit m s id)
      returnIfTerminated
      returnIfFailed m id
      publishObservations id (willCommit m s id)) s := by
  change (if _ then _ else _ : Exit (State W) Unit) s = _
  rw [if_neg (by rw [h]; exact Bool.false_ne_true)]
  simp

theorem afterXfer_of_terminated (id : ObjectId) (committed : Bool)
    (hterm : s.sys.terminated = true) (f : Unit → Exit (State W) Unit) :
    (do
      recordCommit m id committed
      returnIfTerminated
      f ()) s = (none, ⟨if committed then s.sys.markCommitted m.config id else s.sys,
        s.world⟩) := by
  have hreturn (t : SimSystem) (ht : t.terminated = s.sys.terminated) :
      returnIfTerminated ⟨t, s.world⟩ = (none, ⟨t, s.world⟩) := by
    change (if t.terminated then _ else _ : Exit (State W) Unit) _ = _
    rw [ht, if_pos hterm]
    rfl
  cases committed with
  | false => exact bind_of_eq_none (f := f) (hreturn s.sys rfl)
  | true => exact bind_of_eq_none (f := f) (hreturn (s.sys.markCommitted m.config id) rfl)

theorem along_commitOne (hs : InEpoch s.sys.control [] true (id :: rest)) :
    Along m (commitOne m id) s (fun t => InEpoch t.sys.control [] true rest) := by
  by_cases hreject : (willCommit m s id && s.sys.committedThisTick m.config id) = true
  · have h : commitOne m id s = failWith .multipleStatefulCommits s := by
      change (if _ then _ else _ : Exit (State W) Unit) s = _
      rw [if_pos hreject]
    have hfail : Along m (failWith .multipleStatefulCommits) s
      (fun t => InEpoch t.sys.control [] true rest) := along_failWith hs.live rfl nofun
    exact ⟨h ▸ hfail.next, h ▸ hfail.ret⟩
  rw [Bool.not_eq_true] at hreject
  have hfirst : willCommit m s id = true → s.sys.committedThisTick m.config id = false := by
    intro h
    simpa [h] using hreject
  have h := commitOne_eq id hreject
  suffices hround : Along m (do
      xferObject m id
      recordCommit m id (willCommit m s id)
      returnIfTerminated
      returnIfFailed m id
      publishObservations id (willCommit m s id)) s
      (fun t => InEpoch t.sys.control [] true rest) from
    ⟨h ▸ hround.next, h ▸ hround.ret⟩
  refine along_bind (P := fun t => ReflTransGen (Call m.config) (s.sys.markXfer id) t.sys)
    (along_xferObject hs hfirst fun t ht => ht) fun t ht => ?_
  have hcontrol := control_eq_of_calls ht
  have hdone : t.sys.trail.xferDone = s.sys.trail.xferDone ++ [id] :=
    congrArg xferDone hcontrol
  have hcommitted : willCommit m s id = true →
      t.sys.committedThisTick m.config id = false := by
    intro hc
    rw [committedThisTick_congr (s := s.sys) (congrArg lastCommitTick hcontrol)
      (congrArg epoch hcontrol)]
    exact hfirst hc
  by_cases hlive : t.sys.terminated = false
  · refine along_afterXfer _ ?_ hdone hcommitted
    rw [control_eq_of_calls_live ht hlive]
    exact hs.markXfer
  · -- the method has ended the run: its commit is still recorded before the step returns
    rw [Bool.not_eq_false] at hlive
    have hhalt : Halt m.config t.sys _ := .returnedXfer (willCommit m s id) hlive
      ((congrArg gathered hcontrol).trans hs.gathered) hdone hcommitted
    have hreturn := afterXfer_of_terminated (m := m) id (willCommit m s id) hlive fun _ => do
      returnIfFailed m id
      publishObservations id (willCommit m s id)
    constructor
    · intro a r hr
      cases hreturn.symm.trans hr
    · intro r hr
      cases hreturn.symm.trans hr
      refine ⟨t, .refl, hhalt, rfl, fun h => Or.inl ?_⟩
      rw [← h]
      cases willCommit m s id <;> rfl

theorem along_xfer (hs : InEpoch s.sys.control [] true s.sys.xferObjects) :
    Along m (xfer m) s (fun t => InEpoch t.sys.control [] true [] ∧
      t.sys.eventQueue.pushProposals = []) := by
  refine along_get (along_bind (P := fun t => t = s) (along_forEach_of_inv
    (fun id _ t ht => ?_) rfl) ?_)
  · subst ht
    exact along_validateOne hs.live id
  rintro t rfl
  refine along_get (along_bind (P := fun r => InEpoch r.sys.control [] true [])
    (along_forEach (fun is r => InEpoch r.sys.control [] true is)
      (fun id is r hr => along_commitOne hr) _ hs) fun r hr => ?_)
  have hxfer : r.sys.xferObjects = r.sys.trail.xferDone := by
    rw [← append_nil r.sys.trail.xferDone]
    exact hr.xfer hr.gathered
  refine along_onSys (.commitEvents hr.live hr.executing hr.gathered hxfer) ?_ ?_
  · unfold SimSystem.commitEvents
    split <;> exact ⟨prefix_rfl, fun _ => rfl⟩
  unfold SimSystem.commitEvents
  split
  · exact ⟨⟨hr.live, hr.executing, hr.free, hr.work, hr.gathered, hr.unfinished, hr.xfer,
      hr.owner⟩, rfl⟩
  · exact ⟨⟨hr.live, hr.executing, hr.free, hr.work, hr.gathered, hr.unfinished, hr.xfer,
      hr.owner⟩, rfl⟩

/-! ### After the barrier -/

/-- The position after the barrier: every participant is done and no event is proposed. -/
def AfterXfer (s : SimSystem) : Prop :=
  InEpoch s.control [] true [] ∧ s.eventQueue.pushProposals = []

theorem along_requestTraceEndOne (hs : AfterXfer s.sys) (p : Ptr) :
    Along m (requestTraceEndOne m p) s (fun t => AfterXfer t.sys) := by
  refine along_get (along_bind (P := fun t => t.sys = s.sys)
    (along_modify (.single (.traceEnd p)) rfl) fun t ht => ?_)
  split
  · refine along_onSys (.mark _ ?_ ?_) ⟨prefix_rfl, fun _ => rfl⟩ ?_
    · exact ht ▸ hs.1.live
    · exact ht ▸ hs.1.executing
    · rw [ht]
      exact ⟨⟨hs.1.live, hs.1.executing, hs.1.free, hs.1.work, hs.1.gathered, hs.1.unfinished,
        hs.1.xfer, hs.1.owner⟩, hs.2⟩
  · exact along_pure (ht ▸ hs)

theorem along_requestTraceEnd (hs : AfterXfer s.sys) :
    Along m (requestTraceEnd m) s (fun t => AfterXfer t.sys) := by
  refine along_bind (P := fun t => AfterXfer t.sys)
    (along_refreshRuntimeSummary hs.1.live hs) fun t ht => along_get ?_
  dsimp only
  split
  · exact along_forEach_of_inv (fun p _ r hr => along_requestTraceEndOne hr p) ht
  · exact along_pure ht

/-- All activation targets of the sources have been asked in the current epoch. -/
def AllAsked (c : Config) (s : SimSystem) (sources : List ObjectId) : Prop :=
  ∀ source ∈ sources, ∀ target ∈ c.activation.targetsFor source,
    ∃ accepts, .asked source target s.epoch accepts ∈ s.trail.history

/-- What activation and shutdown leave alone. -/
structure SameEpoch (s t : SimSystem) : Prop where
  control : t.control = s.control
  eventQueue : t.eventQueue = s.eventQueue
  history : s.trail.history ⊆ t.trail.history

theorem SameEpoch.refl (s : SimSystem) : SameEpoch s s := ⟨rfl, rfl, fun _ h => h⟩

theorem SameEpoch.trans {s t r : SimSystem} (h : SameEpoch s t) (h' : SameEpoch t r) :
    SameEpoch s r :=
  ⟨h'.control.trans h.control, h'.eventQueue.trans h.eventQueue, fun _ ho =>
    h'.history (h.history ho)⟩

theorem SameEpoch.live {s t : SimSystem} (h : SameEpoch s t) (live : s.terminated = false) :
    t.terminated = false := (congrArg terminated h.control).trans live

theorem SameEpoch.allAsked {s t : SimSystem} (h : SameEpoch s t) {sources : List ObjectId}
    (hs : AllAsked c s sources) : AllAsked c t sources := by
  intro source hsource target htarget
  obtain ⟨accepts, ho⟩ := hs source hsource target htarget
  have hepoch : t.epoch = s.epoch := congrArg epoch h.control
  exact ⟨accepts, hepoch ▸ h.history ho⟩

theorem sameEpoch_record (s : SimSystem) (o : Occurrence) : SameEpoch s (s.record o) :=
  ⟨rfl, rfl, fun _ h => mem_append_left _ h⟩

theorem sameEpoch_insertWork (s : SimSystem) (cause : Cause) (id : ObjectId) (epoch : Epoch) :
    SameEpoch s (s.insertWork cause id epoch) :=
  ⟨rfl, rfl, fun _ h => mem_append_left _ h⟩

/-- Work for the first delta of the next tick goes on the schedule as requested. -/
theorem along_scheduleNextTick (live : s.sys.terminated = false)
    (hcause : cause.Justified m.config s.sys id ⟨s.sys.epoch.time + 1, 0⟩) :
    Along m (schedule m cause id ⟨s.sys.epoch.time + 1, 0⟩) s (fun t => SameEpoch s.sys t.sys ∧
      ⟨⟨s.sys.epoch.time + 1, 0⟩, id⟩ ∈ t.sys.scheduledWork) := by
  have hnext (e : Epoch) (he : e = ⟨s.sys.epoch.time + 1, 0⟩ ∨ (s.sys.executingEpoch = true ∧
      ⟨s.sys.epoch.time + 1, 0⟩ = s.sys.epoch ∧ e = s.sys.epoch.nextDelta)) :
      e = ⟨s.sys.epoch.time + 1, 0⟩ := by
    rcases he with he | ⟨_, he, _⟩
    · exact he
    · exact absurd he (ne_of_gt s.sys.epoch.lt_nextTick)
  refine along_schedule live (fun e he => ?_) fun e he => ?_
  · rw [hnext e he]
    exact hcause
  · rw [hnext e he]
    exact ⟨sameEpoch_insertWork _ _ _ _, (mem_insertSet _).mpr (Or.inl rfl)⟩

theorem along_activateOne {target : ObjectId} (hs : AfterXfer s.sys)
    (hsource : source ∈ s.sys.committedSources)
    (htarget : target ∈ m.config.activation.targetsFor source) :
    Along m (activateOne m source target) s (fun t => SameEpoch s.sys t.sys ∧
      ∃ accepts, .asked source target s.sys.epoch accepts ∈ t.sys.trail.history) := by
  have hcause : (Cause.activation source s.sys.epoch.time).Justified m.config s.sys target
      ⟨s.sys.epoch.time + 1, 0⟩ := ⟨hs.1.executing, rfl, hsource, htarget, rfl⟩
  have hrecord (accepts : Bool) (t : State W) (ht : SameEpoch s.sys t.sys)
      (haccepts : accepts = true → ⟨⟨s.sys.epoch.time + 1, 0⟩, target⟩ ∈ t.sys.scheduledWork) :
      Along m (onSys (fun s => s.record (.asked source target s.epoch accepts))) t
        (fun r => SameEpoch s.sys r.sys ∧
          ∃ accepts, .asked source target s.sys.epoch accepts ∈ r.sys.trail.history) := by
    have hepoch : t.sys.epoch = s.sys.epoch := congrArg epoch ht.control
    have hsources : t.sys.committedSources = s.sys.committedSources :=
      congrArg committedSources ht.control
    refine along_onSys (.asked (ht.live hs.1.live)
      ((congrArg executingEpoch ht.control).trans hs.1.executing) ?_ htarget ?_)
      ⟨prefix_rfl, fun _ => rfl⟩ ?_
    · exact hsources ▸ hsource
    · rw [hepoch]
      exact haccepts
    · exact ⟨ht.trans (sameEpoch_record _ _), accepts,
        hepoch ▸ mem_append_right _ mem_cons_self⟩
  refine along_get ?_
  split
  · rename_i p hp
    refine along_bind (P := fun t => t = { s with world := _ })
      (along_modify (.single (.activate p source)) rfl) ?_
    rintro _ rfl
    unfold scheduleIf
    split
    · refine along_bind (along_scheduleNextTick
        (s := ⟨s.sys, (m.hooks.activateFrom p source s.world).2⟩) hs.1.live hcause) fun t ht => ?_
      exact hrecord _ t ht.1 fun _ => ht.2
    · rename_i hrefuses
      refine along_bind (P := fun t => t = { s with world := _ }) (along_pure rfl) ?_
      rintro _ rfl
      exact hrecord _ _ (.refl _) fun h => absurd h hrefuses
  · refine along_bind (along_scheduleNextTick hs.1.live hcause) fun t ht => ?_
    exact hrecord _ t ht.1 fun _ => ht.2

/-- The position is kept along updates of the schedule and the history. -/
theorem SameEpoch.afterXfer {s t : SimSystem} (h : SameEpoch s t) (hs : AfterXfer s) :
    AfterXfer t := by
  unfold AfterXfer
  rw [h.control, h.eventQueue]
  exact hs

theorem along_activateSource (hs : AfterXfer s.sys) (hsource : source ∈ s.sys.committedSources) :
    Along m (forEach (m.config.activation.targetsFor source) (activateOne m source)) s
      (fun t => SameEpoch s.sys t.sys ∧ AllAsked m.config t.sys [source]) := by
  refine along_mono (along_forEach_all (P := fun t => SameEpoch s.sys t.sys)
    (D := fun target t =>
      ∃ accepts, .asked source target s.sys.epoch accepts ∈ t.sys.trail.history)
    (fun target htarget t ht => ?_) (.refl _)) fun t ht => ⟨ht.1, ?_⟩
  · have hsources : t.sys.committedSources = s.sys.committedSources :=
      congrArg committedSources ht.control
    have hepoch : t.sys.epoch = s.sys.epoch := congrArg epoch ht.control
    refine along_mono (along_activateOne (ht.afterXfer hs) (hsources ▸ hsource) htarget)
      fun r hr => ⟨ht.trans hr.1, hepoch ▸ hr.2, ?_⟩
    rintro j ⟨accepts, hj⟩
    exact ⟨accepts, hr.1.history hj⟩
  · intro source' hsource' target htarget
    rw [mem_singleton] at hsource'
    subst hsource'
    have hepoch : t.sys.epoch = s.sys.epoch := congrArg epoch ht.1.control
    rw [hepoch]
    exact ht.2 target htarget

theorem along_activate (hs : AfterXfer s.sys) :
    Along m (activate m) s (fun t => SameEpoch s.sys t.sys ∧
      AllAsked m.config t.sys t.sys.committedSources) := by
  refine along_get ?_
  dsimp only
  split
  · rename_i hnone
    refine along_pure ⟨.refl _, fun source hsource target htarget => ?_⟩
    rcases Bool.or_eq_true _ _ ▸ hnone with hnone | hnone
    · rw [List.isEmpty_iff.mp hnone] at hsource
      cases hsource
    · rw [ActivationPlan.targetsFor_of_empty hnone] at htarget
      cases htarget
  · split
    · exact along_failWith hs.1.live rfl nofun
    · refine along_mono (along_forEach_all (P := fun t => SameEpoch s.sys t.sys)
        (D := fun source t => AllAsked m.config t.sys [source])
        (fun source hsource t ht => ?_) (.refl _)) fun t ht => ⟨ht.1, ?_⟩
      · have hsources : t.sys.committedSources = s.sys.committedSources :=
          congrArg committedSources ht.control
        refine along_mono (along_activateSource (ht.afterXfer hs) (hsources ▸ hsource))
          fun r hr => ⟨ht.trans hr.1, hr.2, fun j hj => hr.1.allAsked hj⟩
      · have hsources : t.sys.committedSources = s.sys.committedSources :=
          congrArg committedSources ht.1.control
        intro source hsource
        exact ht.2 source (hsources ▸ hsource) source mem_cons_self

theorem along_scheduleShutdown (hs : AfterXfer s.sys) :
    Along m (scheduleShutdown m) s (fun t => SameEpoch s.sys t.sys) := by
  refine along_get (along_forEach_of_inv (fun id hid t ht => ?_) (.refl _))
  have hepoch : t.sys.epoch = s.sys.epoch := congrArg epoch ht.control
  have hmarked : t.sys.traceEndProcesses = s.sys.traceEndProcesses :=
    congrArg traceEndProcesses ht.control
  rw [← hepoch]
  exact along_mono (along_scheduleNextTick (ht.live hs.1.live) ⟨hmarked ▸ hid, rfl⟩)
    fun r hr => ht.trans hr.1

/-! ### Whole epochs -/

/-- The system between two steps. -/
structure AtBoundary (s : SimSystem) : Prop where
  live : s.terminated = false
  closed : s.executingEpoch = false
  free : s.trail.inFlight = none
  owner : s.activeProposalOwner = none
  ungathered : s.trail.gathered = false

/-- The end of an executed epoch: nothing is proposed, nothing is due any more, and every
activation target has been asked. -/
structure Drained (c : Config) (s : SimSystem) : Prop where
  position : InEpoch s.control [] true []
  committed : s.eventQueue.pushProposals = []
  noneDue : NoneDue s
  allAsked : AllAsked c s s.committedSources

/-- The barrier is reached with every participant gathered and none of them committed. -/
theorem along_proposeEpoch (hs : AtBoundary s.sys) :
    Along m (proposeEpoch m) s (fun t => InEpoch t.sys.control [] true t.sys.xferObjects) := by
  refine along_bind (along_preflight hs.live hs.free) fun t ht => ?_
  have hcontrol := ht.1.1
  refine along_bind (along_deliverEvents (ht.1.live hs.live)
    ((congrArg inFlight hcontrol).trans hs.free)) fun r hr => ?_
  have hcontrol : r.sys.control = s.sys.control := hr.1.1.trans hcontrol
  have hepoch : r.sys.epoch = s.sys.epoch := congrArg epoch hcontrol
  exact along_propose ((congrArg terminated hcontrol).trans hs.live)
    ((congrArg executingEpoch hcontrol).trans hs.closed)
    ((congrArg inFlight hcontrol).trans hs.free)
    ((congrArg activeProposalOwner hcontrol).trans hs.owner) (hepoch ▸ ht.2) hr.2

theorem along_commitEpoch (hs : AtBoundary s.sys) :
    Along m (commitEpoch m) s (fun t => AfterXfer t.sys) :=
  along_bind (along_proposeEpoch hs) fun _ hq =>
    along_bind (along_xfer hq) fun _ hu => along_requestTraceEnd hu

theorem along_continueEpoch (hs : AfterXfer s.sys) :
    Along m (continueEpoch m) s (fun t => Drained m.config t.sys) := by
  refine along_bind (along_activate hs) fun t ht => ?_
  refine along_bind (along_scheduleShutdown (ht.1.afterXfer hs)) fun r hr => ?_
  have hafter := (ht.1.trans hr).afterXfer hs
  have hasked : AllAsked m.config r.sys r.sys.committedSources := by
    have hsources : r.sys.committedSources = t.sys.committedSources :=
      congrArg committedSources hr.control
    rw [hsources]
    exact hr.allAsked ht.2
  refine along_mono (along_path (along_deliverEvents hafter.1.live hafter.1.free)) fun q hq => ?_
  obtain ⟨⟨⟨hcontrol, hproposals⟩, hdue⟩, hpath⟩ := hq
  have hhistory := history_prefix_of_moves (moves_of_trans hpath)
  have hepoch : q.sys.epoch = r.sys.epoch := congrArg epoch hcontrol
  have hsources : q.sys.committedSources = r.sys.committedSources :=
    congrArg committedSources hcontrol
  refine ⟨hcontrol ▸ hafter.1, hproposals.trans hafter.2, hdue, fun source hsource target htarget => ?_⟩
  obtain ⟨accepts, ho⟩ := hasked source (hsources ▸ hsource) target htarget
  exact ⟨accepts, hhistory.subset (hepoch ▸ ho)⟩

theorem Drained.close {s : SimSystem} (hs : Drained c s) : Move c s s.closeEpoch := by
  refine .close hs.position.live hs.position.executing hs.position.free ?_ hs.position.gathered
    ?_ hs.allAsked hs.committed
  · rw [← append_nil s.trail.workDone]
    exact hs.position.work
  · rw [← append_nil s.trail.xferDone]
    exact hs.position.xfer hs.position.gathered

theorem Drained.atBoundary {s : SimSystem} (hs : Drained c s) : AtBoundary s.closeEpoch :=
  ⟨hs.position.live, rfl, hs.position.free, rfl, rfl⟩

end stages

end AgenticCircuit.Gfsim
