import AgenticCircuit.Gfsim.QueueSystem
import AgenticCircuit.Gfsim.Stagewise

/-! # Reads of committed snapshots

Work reads queues by position in their committed entries, and an Xfer commits entries at once.
When a tick has several deltas, Work at a later delta therefore sees what the queue has
published at an earlier delta of the same tick.

`Calm` is the condition that keeps the deltas of a tick apart: no object is about to Work whose
program reads a queue that holds an entry of the current tick.  Runs of such steps read entries
of earlier ticks only (`snapshot_reads`). -/

namespace AgenticCircuit.Gfsim

open Body List Exit

open Relation (ReflTransGen)

/-! ### The Work of a step -/

section work

variable {W : Type} {m : Model W}

/-- The part of a step up to the opening of its epoch. -/
def openStep (m : Model W) : Exit (State W) Unit := do
  preflight m
  deliverEvents m
  onSys (fun s => s.openEpoch)

theorem step_eq_work : step m = (do
    openStep m
    forEach (← Exit.get).sys.currentWork (workOne m)
    afterWork m) := by
  simp only [step_eq, openStep, afterPreflight, bind_assoc]

/-- The objects whose Work runs, each with the state it starts in. -/
def worksFrom (m : Model W) : List ObjectId → State W → List (ObjectId × State W)
  | [], _ => []
  | id :: rest, s => (id, s) :: match workOne m id s with
    | (some _, t) => worksFrom m rest t
    | (none, _) => []

def works (m : Model W) (s : State W) : List (ObjectId × State W) :=
  match openStep m s with
  | (some _, r) => worksFrom m r.sys.currentWork r
  | (none, _) => []

variable {P : W → Prop} {id : ObjectId} {s : State W}

/-- A Work changes the objects by its method only. -/
theorem workOne_keeps (hs : P s.world) (hwork : ∀ p w, m.config.lookup id = some p →
      (m.hooks.doWork p s.sys.epoch s.world).Leaf w → P w) :
    Ends (workOne m id) s fun _ t => P t.world := by
  have hcall : Carries (fun t : State W => t.world = s.world ∧ t.sys.epoch = s.sys.epoch)
      (fun t => P t.world) (fun t => P t.world) (callObject m m.hooks.doWork id) := by
    unfold callObject
    split
    · refine fun t ht => ends_pure ?_
      rw [← ht.1] at hs
      exact hs
    · rename_i p hp
      refine carries_modify fun t ht => hwork p _ hp ?_
      rw [← ht.1, ← ht.2]
      exact exec_leaf _ _ _
  have hclose : Carries (fun t : State W => P t.world) (fun t => P t.world) (fun t => P t.world) (do
      setOwner none
      returnIfTerminated) :=
    carries_bind (carries_modify fun _ ht => ht) fun _ =>
      carries_get_bind fun _ _ => carries_ite (carries_stop fun _ ht => ht) carries_pure
  refine ends_bind (ends_modify (ends_bind (ends_modify ?_)))
  refine Ends.mono (carries_bind hcall (fun _ => hclose) _ ⟨rfl, rfl⟩) fun o t ht => ?_
  cases o with
  | none | some _ => exact ht

theorem forEach_workOne_keeps : ∀ (l : List ObjectId) {s : State W}, P s.world →
    (∀ e ∈ worksFrom m l s, ∀ p w, m.config.lookup e.1 = some p → P e.2.world →
      (m.hooks.doWork p e.2.sys.epoch e.2.world).Leaf w → P w) →
    Ends (forEach l (workOne m)) s fun _ t => P t.world
  | [], _, hs, _ => ends_pure hs
  | id :: rest, s, hs, hwork => by
    have hfirst : Ends (workOne m id) s fun o t => workOne m id s = (o, t) ∧ P t.world :=
      ⟨rfl, workOne_keeps hs fun p w hp hleaf =>
        hwork (id, s) mem_cons_self p w hp hs hleaf⟩
    refine ends_bind (Ends.mono hfirst ?_)
    rintro (_ | _) t ⟨ht, hP⟩
    · exact hP
    · refine forEach_workOne_keeps rest hP fun e he => hwork e (mem_cons_of_mem _ ?_)
      rw [ht]
      exact he

/-- An invariant of the objects that every Work and all other stages keep holds after a step. -/
theorem step_keeps (hopen : Kept (fun _ => P) (fun _ => P) (openStep m))
    (hwork : ∀ e ∈ works m s, ∀ p w, m.config.lookup e.1 = some p → P e.2.world →
      (m.hooks.doWork p e.2.sys.epoch e.2.world).Leaf w → P w)
    (hafter : Kept (fun _ => P) (fun _ => P) (afterWork m)) (hs : P s.world) :
    P (step m s).2.world := by
  have hopened : Ends (openStep m) s fun o t => openStep m s = (o, t) ∧ P t.world :=
    ⟨rfl, Carries.always hopen hs⟩
  have hstep : Ends (step m) s fun _ t => P t.world := by
    rw [step_eq_work]
    refine ends_bind (Ends.mono hopened ?_)
    rintro (_ | _) r ⟨hr, hP⟩
    · exact hP
    have hworks : works m s = worksFrom m r.sys.currentWork r := by
      rw [works, hr]
    rw [hworks] at hwork
    refine ends_get_bind (ends_bind (Ends.mono (forEach_workOne_keeps _ hP hwork) ?_))
    rintro (_ | _) t ht
    · exact ht
    · exact Carries.always hafter ht
  exact hstep

end work

/-! ### Reads of the world -/

section reads

variable {A α : Type} {w w' : QueueWorld A α} {mayRead : Ptr → Prop} {p : Ptr}

/-- Every entry carries the epoch of its commit, and Work has read entries of earlier ticks. -/
structure ReadsEarlier (w : QueueWorld A α) : Prop where
  stamped : ∀ p, (w.queues p).past.stamps.length = (w.queues p).committed.length
  reads : ∀ r ∈ w.reads, r.committedAt.time < r.epoch.time

/-- The queues in `mayRead` hold entries of earlier ticks only, when an object works. -/
def Settled (mayRead : Ptr → Prop) (w : QueueWorld A α) : Prop :=
  ∀ epoch, w.clock = some epoch → ∀ p, mayRead p →
    ∀ e ∈ (w.queues p).past.stamps, e.time < epoch.time

theorem ReadsEarlier.fresh (h : w.Fresh) : ReadsEarlier w := by
  constructor
  · intro p
    rw [h.queues p]
    rfl
  · rw [h.reads]
    exact nofun

theorem ReadsEarlier.setQueue {q : SimQueue α} (hw : ReadsEarlier w)
    (hq : q.past.stamps.length = q.committed.length) : ReadsEarlier (w.setQueue p q) := by
  refine ⟨fun p' => ?_, hw.reads⟩
  by_cases hp : p' = p
  · rw [hp, QueueWorld.setQueue_queues_self]
    exact hq
  · rw [QueueWorld.setQueue_queues_of_ne hp]
    exact hw.stamped p'

theorem ReadsEarlier.logRead (hw : ReadsEarlier w)
    (hsettled : Settled mayRead w) (hread : mayRead p) (index : ℕ) :
    ReadsEarlier (w.logRead p index) := by
  refine ⟨hw.stamped, fun r hr => ?_⟩
  rcases mem_append.mp hr with hr | hr
  · exact hw.reads r hr
  unfold QueueWorld.readOf at hr
  split at hr
  · rename_i epoch element hclock hentry
    rw [mem_singleton.mp hr]
    refine hsettled epoch hclock p hread _ ?_
    have hindex : index < (w.queues p).past.stamps.length := by
      rw [hw.stamped p]
      exact (List.getElem?_eq_some_iff.mp hentry).1
    have hstamp : (w.queues p).past.stamps.getD index ⟨0, 0⟩ = (w.queues p).past.stamps[index] := by
      simp [hindex]
    exact hstamp ▸ getElem_mem hindex
  · cases hr

variable [PacketTraits α] {q q' : SimQueue α} {push pop : Bool}

/-- Proposals leave the committed entries and their stamps alone. -/
theorem stamps_of_uses (h : ReflTransGen (QueueUse push pop) q q') :
    q'.past.stamps = q.past.stamps ∧ q'.committed = q.committed := by
  induction h with
  | refl => exact ⟨rfl, rfl⟩
  | tail _ huse ih =>
    cases huse with
    | push | pop | code => exact ih

omit [PacketTraits α] in
theorem stamped_doXfer (now : Epoch) (hq : q.past.stamps.length = q.committed.length) :
    (q.doXfer now).past.stamps.length = (q.doXfer now).committed.length := by
  simp [SimQueue.doXfer, hq]

theorem ReadsEarlier.uses {mayPush mayPop : Ptr → Bool}
    (hw : ReadsEarlier w) (hsettled : Settled mayRead w)
    (h : ReflTransGen (WorldUse mayRead mayPush mayPop) w w') :
    ReadsEarlier w' ∧ Settled mayRead w' := by
  induction h with
  | refl => exact ⟨hw, hsettled⟩
  | tail _ huse ih =>
    cases huse with
    | agents a => exact ⟨⟨ih.1.stamped, ih.1.reads⟩, ih.2⟩
    | read hread index => exact ⟨ih.1.logRead ih.2 hread index, ih.2⟩
    | queues huse =>
      refine ⟨⟨fun p => ?_, ih.1.reads⟩, fun epoch hclock p hread e he => ?_⟩
      · obtain ⟨hstamps, hcommitted⟩ := stamps_of_uses (huse p)
        dsimp only
        rw [hstamps, hcommitted]
        exact ih.1.stamped p
      · refine ih.2 epoch hclock p hread e ?_
        rw [← (stamps_of_uses (huse p)).1]
        exact he

/-- The Work of a link reads its source only. -/
theorem ReadsEarlier.workLink {epoch : Epoch} (hw : ReadsEarlier w)
    (hsettled : Settled (fun source => source = (w.links p).source) w)
    (hleaf : (w.workLink p epoch).Leaf w') : ReadsEarlier w' := by
  obtain ⟨f, f', u, _, _, huses, rfl⟩ :
      ∃ f f' u, _ ∧ _ ∧ ReflTransGen (WorldUse (fun source => source = (w.links p).source)
        (fun _ => true) fun _ => true) (w.modifyLink p f) u ∧ w' = u.modifyLink p f' :=
    workLink_uses rfl rfl hleaf
  have hu := ReadsEarlier.uses (w := w.modifyLink p f) ⟨hw.stamped, hw.reads⟩ hsettled huses
  exact ⟨hu.1.stamped, hu.1.reads⟩

theorem ReadsEarlier.compile {prog : Prog A α} (hw : ReadsEarlier w)
    (hsettled : Settled prog.MayRead w) (hleaf : (prog.compile w).Leaf w') : ReadsEarlier w' :=
  (hw.uses hsettled (prog.compile_uses (fun _ h => h) prog.respects_true hleaf)).1

end reads

/-! ### Runs -/

section run

variable {A α : Type} [PacketTraits α] {c : Config} {agents : Agents A α}
variable {s : State (QueueWorld A α)} {w w' : QueueWorld A α} {mayRead : Ptr → Prop}

/-- The queues that the Work of the object at `p` may read in the state of the world. -/
def mayReadAt (c : Config) (agents : Agents A α) (p : Ptr) (epoch : Epoch) (w : QueueWorld A α)
    (queue : Ptr) : Prop :=
  match (c.info p).kind with
  | .queue => False
  | .link => queue = (w.links p).source
  | _ => (agents.doWork p epoch w.agents).MayRead queue

/-- No object that is about to Work in the step may read a queue that holds an entry of the
current tick. -/
def Calm (c : Config) (agents : Agents A α) (s : State (QueueWorld A α)) : Prop :=
  ∀ e ∈ works (queueModel c agents) s, ∀ p queue, c.lookup e.1 = some p →
    mayReadAt c agents p e.2.sys.epoch e.2.world queue →
    ∀ stamp ∈ (e.2.world.queues queue).past.stamps, stamp.time < e.2.sys.epoch.time

/-- The invariant between the methods of the objects. -/
def ReadsSettled (w : QueueWorld A α) : Prop := ReadsEarlier w ∧ w.clock = none

omit [PacketTraits α] in
theorem settled_of_idle (hclock : w.clock = none) : Settled mayRead w := by
  intro epoch he
  rw [hclock] at he
  cases he

theorem ReadsSettled.compile {prog : Prog A α} (hw : ReadsSettled w)
    (hleaf : (prog.compile w).Leaf w') : ReadsSettled w' :=
  ⟨hw.1.compile (settled_of_idle hw.2) hleaf, (clock_eq_of_uses
    (prog.compile_uses (fun _ h => h) prog.respects_true hleaf)).trans hw.2⟩

omit [PacketTraits α] in
theorem ReadsSettled.answer (hw : ReadsSettled w) (a : A) : ReadsSettled { w with agents := a } :=
  ⟨⟨hw.1.stamped, hw.1.reads⟩, hw.2⟩

omit [PacketTraits α] in
theorem ReadsSettled.clocked {now : Epoch}
    {b : QueueWorld A α → Body (QueueWorld A α)} (hw : ReadsSettled w)
    (hsettled : ∀ p, mayRead p → ∀ e ∈ (w.queues p).past.stamps, e.time < now.time)
    (hb : ∀ u, ReadsEarlier { w with clock := some now } →
      Settled mayRead { w with clock := some now } →
      (b { w with clock := some now }).Leaf u → ReadsEarlier u)
    (hleaf : (w.clocked now b).Leaf w') : ReadsSettled w' := by
  obtain ⟨u, hu, hleaf⟩ := (leaf_bind _).mp hleaf
  cases leaf_pure.mp hleaf
  have hstart : Settled mayRead { w with clock := some now } := by
    rintro _ ⟨⟩
    exact hsettled
  have hend : ReadsEarlier u := hb u ⟨hw.1.stamped, hw.1.reads⟩ hstart hu
  exact ⟨⟨hend.stamped, hend.reads⟩, rfl⟩

theorem queueModel_keeps :
    (queueModel c agents).Keeps (fun _ => ReadsSettled) fun _ => ReadsSettled where
  halt _ _ hw := hw
  fail _ _ hw := hw
  failed _ _ hw := hw
  doArbitrate p epoch _ w w' hw hleaf := by
    dsimp only [queueModel] at hleaf
    split at hleaf
    · obtain ⟨q, hq, hleaf⟩ := (leaf_bind _).mp hleaf
      cases leaf_pure.mp hleaf
      obtain ⟨hstamps, hcommitted⟩ := stamps_of_uses (doArbitrate_uses hq)
      refine ⟨hw.1.setQueue ?_, hw.2⟩
      rw [hstamps, hcommitted]
      exact hw.1.stamped p
    · cases leaf_done.mp hleaf
      exact hw
    · exact hw.compile hleaf
  doXfer p epoch _ w w' hw hleaf := by
    have hnext : ReadsSettled w' := by
      dsimp only [queueModel] at hleaf
      split at hleaf
      · cases leaf_done.mp hleaf
        exact ⟨hw.1.setQueue (stamped_doXfer epoch (hw.1.stamped p)), hw.2⟩
      · cases leaf_done.mp hleaf
        exact ⟨⟨hw.1.stamped, hw.1.reads⟩, hw.2⟩
      · exact hw.compile hleaf
    exact ⟨hnext, fun _ => hnext⟩
  activateFrom p source _ w hw := by
    dsimp only [queueModel]
    split
    · exact hw
    · exact hw
    · exact hw.answer _
  deliverEvent p kind payload epoch _ w hw := by
    dsimp only [queueModel]
    split
    · exact hw
    · exact hw
    · exact hw.answer _
  requestTraceEnd p _ w hw := by
    dsimp only [queueModel]
    split
    · exact hw
    · exact hw
    · exact hw.answer _

theorem ReadsSettled.doWork {p : Ptr} {epoch : Epoch} (hw : ReadsSettled w)
    (hcalm : ∀ queue, mayReadAt c agents p epoch w queue →
      ∀ stamp ∈ (w.queues queue).past.stamps, stamp.time < epoch.time)
    (hleaf : ((queueModel c agents).hooks.doWork p epoch w).Leaf w') : ReadsSettled w' := by
  dsimp only [queueModel] at hleaf
  unfold mayReadAt at hcalm
  split at hleaf
  · cases leaf_done.mp hleaf
    exact hw
  · rename_i hkind
    rw [hkind] at hcalm
    exact hw.clocked hcalm (fun _ hu hsettled hleaf => hu.workLink hsettled hleaf) hleaf
  · rename_i hqueue hlink
    have hcalm : ∀ queue, (agents.doWork p epoch w.agents).MayRead queue →
        ∀ stamp ∈ (w.queues queue).past.stamps, stamp.time < epoch.time := by
      intro queue hread
      refine hcalm queue ?_
      split
      · rename_i h
        exact hqueue h
      · rename_i h
        cases hlink h
      · exact hread
    exact hw.clocked hcalm (fun _ hu hsettled hleaf => hu.compile hsettled hleaf) hleaf

theorem ReadsSettled.step (hcalm : Calm c agents s) (hs : ReadsSettled s.world) :
    ReadsSettled (step (queueModel c agents) s).2.world := by
  have hrefresh : Kept (fun _ => ReadsSettled) (fun _ => ReadsSettled)
      (refreshRuntimeSummary (queueModel c agents)) := carries_modify fun _ hw => hw
  refine step_keeps ?_ (fun e he p w hp hw hleaf => hw.doWork (hcalm e he p · hp) hleaf) ?_ hs
  · exact carries_bind (kept_preflight queueModel_keeps hrefresh fun _ _ _ _ hw => hw) fun _ =>
      carries_bind (kept_deliverEvents queueModel_keeps) fun _ => kept_onSys fun _ _ hw => hw
  · exact kept_afterWork queueModel_keeps hrefresh fun _ _ _ hw => hw

/-- The runs of a system of queues, links and agents whose steps start in states that satisfy
`ok`. -/
def QueueRun (c : Config) (agents : Agents A α) (ok : State (QueueWorld A α) → Prop)
    (s : State (QueueWorld A α)) : Prop :=
  Runs (queueModel c agents) (queueHost (fun _ => True) (fun _ => true) fun _ => true) ok s

/-- **Same-tick reads.**  In every run of calm steps, all entries that Work has read, by pops,
peeks and transfers, were committed in earlier ticks. -/
theorem snapshot_reads (h : QueueRun c agents (Calm c agents) s) :
    ∀ r ∈ s.world.reads, r.committedAt.time < r.epoch.time := by
  have hs : ReadsSettled s.world := by
    induction h with
    | fresh w hw => exact ⟨.fresh hw.1, hw.1.clock⟩
    | host b hb _ ih =>
      obtain ⟨prog, _, rfl⟩ := hb
      exact ih.compile (exec_leaf _ _ _)
    | start _ _ ih => exact ih
    | step _ hcalm ih => exact ih.step hcalm
  exact hs.1.reads

end run

/-- A queue and a process that pushes at its first Work and peeks at every later one. -/
def peekAgents (delay : ℕ) : Agents Bool ℕ where
  doWork p _ started :=
    if p ≠ 1 then .done started
    else if started then .tryPeek 0 fun _ => .done true
    else .proposePush 0 7 fun _ =>
      .scheduleEvent { readyTime := ⟨delay, 0⟩, targetId := 1 } fun _ => .done true

def peekConfig : Config := .ofKinds [.queue, .process]

def peekWorld : QueueWorld Bool ℕ where
  queues p := { id := p, entryCapacity := 4, system := some 0 }
  links p := { id := p, source := 0, destination := 0 }
  agents := false

/-- The system that the host has started with the process. -/
def peekStart (delay : ℕ) : State (QueueWorld Bool ℕ) :=
  let m := queueModel peekConfig (peekAgents delay)
  startRun m (State.fresh m peekWorld)

def peekStep (delay : ℕ) (s : State (QueueWorld Bool ℕ)) : State (QueueWorld Bool ℕ) :=
  (step (queueModel peekConfig (peekAgents delay)) s).2

theorem peekStart_run {delay : ℕ} {ok : State (QueueWorld Bool ℕ) → Prop} :
    QueueRun peekConfig (peekAgents delay) ok (peekStart delay) := by
  refine .start (.fresh peekWorld ⟨⟨?_, ?_, rfl, rfl⟩, trivial⟩) rfl
  · exact fun _ => rfl
  · exact fun _ => rfl

theorem snapshot_reads_next_tick :
    (peekStep 1 (peekStep 1 (peekStart 1))).world.reads = [⟨0, 7, ⟨1, 0⟩, ⟨0, 0⟩⟩] ∧
    ∀ r ∈ (peekStep 1 (peekStep 1 (peekStart 1))).world.reads,
      r.committedAt.time < r.epoch.time := by
  refine ⟨by decide, snapshot_reads (.step (.step peekStart_run ?_) ?_)⟩
  · intro e he p queue hp hread stamp hstamp
    have hw : works (queueModel peekConfig (peekAgents 1)) (peekStart 1) =
      [(1, (openStep (queueModel peekConfig (peekAgents 1)) (peekStart 1)).2)] := rfl
    rw [hw, List.mem_singleton] at he
    subst he
    cases hstamp
  · intro e he p queue hp hread stamp hstamp
    have hw : works (queueModel peekConfig (peekAgents 1)) (peekStep 1 (peekStart 1)) =
      [(1, (openStep (queueModel peekConfig (peekAgents 1)) (peekStep 1 (peekStart 1))).2)] := rfl
    rw [hw, List.mem_singleton] at he
    subst he
    obtain rfl : p = 1 := by
      cases hp
      rfl
    rcases hread with rfl | ⟨_, ⟨⟩⟩
    revert stamp
    decide

/-- With a zero delay the process runs again at the next delta and reads what the queue has
published in the same tick. -/
theorem zero_delay_reads_same_tick :
    QueueRun peekConfig (peekAgents 0) (fun _ => True) (peekStep 0 (peekStep 0 (peekStart 0))) ∧
    (peekStep 0 (peekStep 0 (peekStart 0))).world.reads = [⟨0, 7, ⟨0, 1⟩, ⟨0, 0⟩⟩] ∧
    ¬ ∀ r ∈ (peekStep 0 (peekStep 0 (peekStart 0))).world.reads,
      r.committedAt.time < r.epoch.time := by
  exact ⟨.step (.step peekStart_run trivial) trivial, by decide, by decide⟩

end AgenticCircuit.Gfsim
