import AgenticCircuit.Gfsim.Delivery

/-! # Commits and activation

* **Once per tick.**  An object that is neither an event queue nor a process publishes its
  pending state at most once in a tick.
* **Causes.**  An object runs Work only at an epoch it was scheduled for, and every entry of the
  schedule has a cause: the host, a call by a runtime object, a delivered event, the shutdown
  at the end of the trace, or an activation edge from an object that committed in the tick
  before.
* **Activation.**  Every target of a committed source is asked, and one that accepts runs Work
  at the first delta of the next tick, unless the run ends before. -/

namespace AgenticCircuit.Gfsim

open List SimSystem Or Occurrence

/-! ### Once per tick -/

/-- The epoch of a publication of `id`. -/
def Occurrence.publishedEpoch (id : ObjectId) : Occurrence → Option Epoch
  | .published id' e => if id' = id then some e else none
  | _ => none

/-- The epochs at which `id` has published its pending state, in order. -/
def SimSystem.publishedAt (s : SimSystem) (id : ObjectId) : List Epoch :=
  s.trail.history.filterMap (Occurrence.publishedEpoch id)

/-- A stateful object: its kind is neither an event queue nor a process. -/
def Config.Stateful (c : Config) (id : ObjectId) : Prop :=
  c.kindOf id ≠ some .eventQueue ∧ c.kindOf id ≠ some .process

/-- The ticks of the publications of a stateful object increase up to its last commit tick. -/
structure OncePerTick (c : Config) (s : SimSystem) : Prop where
  ordered : ∀ id, c.Stateful id → (s.publishedAt id).Pairwise (fun a b => a.time < b.time)
  last : ∀ id, ∀ e ∈ s.publishedAt id,
    ∃ t, s.lastCommitTick id = some t ∧ e.time ≤ t ∧ t ≤ s.epoch.time

namespace OncePerTick

variable {c : Config} {s t : SimSystem}

theorem fresh {W : Type} (m : Model W) (w : W) : OncePerTick m.config (State.fresh m w).sys :=
  ⟨fun _ _ => .nil, fun _ _ h => nomatch h⟩

theorem skip (hs : OncePerTick c s) (os : List Occurrence)
    (hhistory : t.trail.history = s.trail.history ++ os)
    (hos : ∀ o ∈ os, ∀ id, o.publishedEpoch id = none)
    (hlast : t.lastCommitTick = s.lastCommitTick) (hepoch : t.epoch = s.epoch) :
    OncePerTick c t := by
  have hsame (id : ObjectId) : t.publishedAt id = s.publishedAt id := by
    have hnone : os.filterMap (publishedEpoch id) = [] :=
      filterMap_eq_nil_iff.mpr fun o ho => hos o ho id
    rw [publishedAt, hhistory, filterMap_append, hnone, append_nil]
    rfl
  constructor
  · intro id hid
    rw [hsame]
    exact hs.ordered id hid
  · intro id e he
    rw [hsame] at he
    rw [hlast, hepoch]
    exact hs.last id e he

theorem publish (hs : OncePerTick c s) {id : ObjectId} (hfirst : s.committedThisTick c id = false)
    (hhistory : t.trail.history = s.trail.history ++ [.published id s.epoch])
    (hlast : t.lastCommitTick = Function.update s.lastCommitTick id (some s.epoch.time))
    (hepoch : t.epoch = s.epoch) : OncePerTick c t := by
  have hself : t.publishedAt id = s.publishedAt id ++ [s.epoch] := by
    simp [publishedAt, hhistory, publishedEpoch]
  have hother (id' : ObjectId) (hne : id' ≠ id) : t.publishedAt id' = s.publishedAt id' := by
    simp [publishedAt, hhistory, publishedEpoch, Ne.symm hne]
  constructor
  · intro id' hid'
    by_cases hne : id' = id
    · subst hne
      rw [hself]
      refine pairwise_append.mpr ⟨hs.ordered _ hid', pairwise_singleton _ _, ?_⟩
      intro e he e' he'
      rw [mem_singleton.mp he']
      obtain ⟨n, hn, hle, hpast⟩ := hs.last _ e he
      have hne : n ≠ s.epoch.time := by
        rintro rfl
        simp [committedThisTick, hn, hid'.1, hid'.2] at hfirst
      omega
    · rw [hother id' hne]
      exact hs.ordered id' hid'
  · intro id' e he
    rw [hlast, hepoch]
    by_cases hne : id' = id
    · subst hne
      rw [hself] at he
      refine ⟨s.epoch.time, Function.update_self .., ?_, le_rfl⟩
      rcases mem_append.mp he with he | he
      · obtain ⟨n, _, hle, hpast⟩ := hs.last _ e he
        omega
      · rw [mem_singleton.mp he]
    · rw [hother id' hne] at he
      rw [Function.update_of_ne hne]
      exact hs.last id' e he

theorem move (h : Move c s t) (hs : OncePerTick c s) : OncePerTick c t := by
  have hone {o : Occurrence} (ho : ∀ id, o.publishedEpoch id = none) :
      ∀ o' ∈ [o], ∀ id, o'.publishedEpoch id = none := by
    intro o' ho'
    rw [mem_singleton.mp ho']
    exact ho
  cases h with
  | call h =>
    cases h with
    | schedule | accept => exact hs.skip [_] rfl (hone fun _ => rfl) rfl rfl
    | _ => exact hs.skip [] (append_nil _).symm nofun rfl rfl
  | publish live executing _ _ hfirst => exact hs.publish hfirst rfl rfl rfl
  | commitEvents =>
    unfold commitEvents
    split
    · exact hs.skip [_] rfl (hone fun _ => rfl) rfl rfl
    · exact hs.skip [] (append_nil _).symm nofun rfl rfl
  | count | startWork | markXfer | asked => exact hs.skip [_] rfl (hone fun _ => rfl) rfl rfl
  | _ => exact hs.skip [] (append_nil _).symm nofun rfl rfl

theorem halt (h : Halt c s t) (hs : OncePerTick c s) :
    ∀ id, c.Stateful id → (t.publishedAt id).Pairwise (fun a b => a.time < b.time) := by
  obtain ⟨os, hhistory, hos⟩ := h.history_append
  intro id hid
  rw [publishedAt, hhistory]
  rcases hos with rfl | ⟨id', hfirst, rfl⟩
  · rw [append_nil]
    exact hs.ordered id hid
  · have hpublished : OncePerTick c (s.markCommitted c id') := hs.publish hfirst rfl rfl rfl
    exact hpublished.ordered id hid

end OncePerTick

/-! ### Causes -/

/-- What the recorded cause of a scheduled Work means for the run. -/
def Cause.Meaning (c : Config) (history : List Occurrence) (id : ObjectId) (epoch : Epoch) :
    Cause → Prop
  | .host => True
  | .object => True
  | .event due => .accepted due ∈ history ∧
      (epoch = due.readyTime ∨ epoch = due.readyTime.nextDelta)
  | .activation source tick => epoch = ⟨tick + 1, 0⟩ ∧ id ∈ c.activation.targetsFor source ∧
      c.kindOf source ≠ some .eventQueue ∧ ∃ delta, .published source ⟨tick, delta⟩ ∈ history
  | .traceEnd => epoch.delta = 0

theorem Cause.Meaning.mono {c : Config} {history history' : List Occurrence} {id : ObjectId}
    {epoch : Epoch} {cause : Cause} (hsub : history ⊆ history')
    (h : cause.Meaning c history id epoch) : cause.Meaning c history' id epoch := by
  cases cause with
  | host | object => trivial
  | event due => exact ⟨hsub h.1, h.2⟩
  | activation source tick =>
    obtain ⟨hepoch, htarget, hkind, delta, ho⟩ := h
    exact ⟨hepoch, htarget, hkind, delta, hsub ho⟩
  | traceEnd => exact h

/-- A scheduled Work is on the schedule, has run, or runs in the current epoch. -/
def Carried (s : SimSystem) (id : ObjectId) (e : Epoch) : Prop :=
  ⟨e, id⟩ ∈ s.scheduledWork ∨ .worked id e ∈ s.trail.history ∨
    (s.executingEpoch = true ∧ e = s.epoch ∧ id ∈ s.currentWork ∧ id ∉ s.trail.workDone)

/-- The targets of a committed source have been asked, or will be in the current epoch. -/
def Answered (c : Config) (s : SimSystem) (source : ObjectId) (e : Epoch) : Prop :=
  (s.executingEpoch = true ∧ e = s.epoch ∧ source ∈ s.committedSources) ∨
    ∀ target ∈ c.activation.targetsFor source,
      ∃ accepts, .asked source target e accepts ∈ s.trail.history

/-- Schedule, current Work and history explain each other. -/
structure Traced (c : Config) (s : SimSystem) : Prop where
  work : ∀ w ∈ s.scheduledWork, ∃ cause, .scheduled w.id w.epoch cause ∈ s.trail.history
  current : s.executingEpoch = true → ∀ id ∈ s.currentWork,
    ∃ cause, .scheduled id s.epoch cause ∈ s.trail.history
  worked : ∀ id e, .worked id e ∈ s.trail.history →
    ∃ cause, .scheduled id e cause ∈ s.trail.history
  meaning : ∀ id e cause, .scheduled id e cause ∈ s.trail.history →
    cause.Meaning c s.trail.history id e
  sources : s.executingEpoch = true → ∀ source ∈ s.committedSources,
    .published source s.epoch ∈ s.trail.history ∧ c.kindOf source ≠ some .eventQueue
  carried : s.terminated = false → ∀ id e cause,
    .scheduled id e cause ∈ s.trail.history → Carried s id e
  answered : s.terminated = false → ∀ source e, .published source e ∈ s.trail.history →
    c.kindOf source ≠ some .eventQueue → Answered c s source e
  promised : ∀ source target e, .asked source target e true ∈ s.trail.history →
    ∃ cause, .scheduled target ⟨e.time + 1, 0⟩ cause ∈ s.trail.history

/-- What an occurrence recorded between `s` and `t` owes to the trace. -/
def Occurrence.Explained (c : Config) (s t : SimSystem) : Occurrence → Prop
  | .scheduled id e cause => cause.Meaning c s.trail.history id e ∧ ⟨e, id⟩ ∈ t.scheduledWork
  | .worked id e => ∃ cause, .scheduled id e cause ∈ s.trail.history
  | .published source e => c.kindOf source ≠ some .eventQueue → Answered c t source e
  | .asked _ target e accepts => accepts = true →
      ∃ cause, .scheduled target ⟨e.time + 1, 0⟩ cause ∈ s.trail.history
  | _ => True

namespace Traced

variable {c : Config} {s t : SimSystem}

theorem fresh {W : Type} (m : Model W) (w : W) : Traced m.config (State.fresh m w).sys :=
  ⟨nofun, nofun, nofun, nofun, nofun, fun _ _ _ _ h => (nomatch h), fun _ _ _ h => (nomatch h),
    nofun⟩

section

variable (hs : Traced c s) (os : List Occurrence)
    (hhistory : t.trail.history = s.trail.history ++ os) (hos : ∀ o ∈ os, o.Explained c s t)

include hs os hhistory hos

/-- An update inside an epoch, or between two, that records explained occurrences. -/
theorem extend
    (hwork : ∀ w ∈ t.scheduledWork, w ∈ s.scheduledWork ∨ ∃ cause,
      .scheduled w.id w.epoch cause ∈ os) (hkept : s.scheduledWork ⊆ t.scheduledWork)
    (hcurrent : t.currentWork = s.currentWork)
    (hdone : ∀ id ∈ t.trail.workDone, id ∈ s.trail.workDone ∨ .worked id s.epoch ∈ os)
    (hsources : ∀ source ∈ t.committedSources, source ∈ s.committedSources ∨
      (.published source s.epoch ∈ os ∧ c.kindOf source ≠ some .eventQueue))
    (hmore : s.committedSources ⊆ t.committedSources) (hepoch : t.epoch = s.epoch)
    (hexec : t.executingEpoch = true → s.executingEpoch = true)
    (hlive : t.terminated = false → s.terminated = false ∧ (s.executingEpoch = true →
      t.executingEpoch = true)) : Traced c t := by
  have hsub : s.trail.history ⊆ t.trail.history := by
    rw [hhistory]
    exact subset_append_left _ _
  have hsub' : os ⊆ t.trail.history := by
    rw [hhistory]
    exact subset_append_right _ _
  have hsplit {o : Occurrence} (ho : o ∈ t.trail.history) :
      o ∈ s.trail.history ∨ o.Explained c s t := by
    rw [hhistory] at ho
    exact (mem_append.mp ho).imp id (hos o)
  constructor
  · intro w hw
    rcases hwork w hw with hw | ⟨cause, ho⟩
    · exact (hs.work w hw).imp fun _ h => hsub h
    · exact ⟨cause, hsub' ho⟩
  · intro h id hid
    rw [hcurrent] at hid
    rw [hepoch]
    exact (hs.current (hexec h) id hid).imp fun _ h => hsub h
  · intro id e ho
    rcases hsplit ho with ho | ho
    · exact (hs.worked id e ho).imp fun _ h => hsub h
    · exact ho.imp fun _ h => hsub h
  · intro id e cause ho
    rcases hsplit ho with ho | ho
    · exact (hs.meaning id e cause ho).mono hsub
    · exact ho.1.mono hsub
  · intro h source hsource
    rw [hepoch]
    rcases hsources source hsource with hsource | ⟨ho, hkind⟩
    · exact ⟨hsub (hs.sources (hexec h) source hsource).1, (hs.sources (hexec h) source hsource).2⟩
    · exact ⟨hsub' ho, hkind⟩
  · intro h id e cause ho
    obtain ⟨hs', hexec'⟩ := hlive h
    rcases hsplit ho with ho | ho
    · rcases hs.carried hs' id e cause ho with h | h | ⟨h₁, rfl, h₃, h₄⟩
      · exact inl (hkept h)
      · exact inr (inl (hsub h))
      · by_cases hnow : id ∈ t.trail.workDone
        · exact inr (inl (hsub' ((hdone id hnow).resolve_left h₄)))
        · exact inr (inr ⟨hexec' h₁, hepoch.symm, hcurrent ▸ h₃, hnow⟩)
    · exact inl ho.2
  · intro h source e ho hkind
    obtain ⟨hs', hexec'⟩ := hlive h
    rcases hsplit ho with ho | ho
    · rcases hs.answered hs' source e ho hkind with ⟨h₁, h₂, h₃⟩ | h
      · exact inl ⟨hexec' h₁, h₂.trans hepoch.symm, hmore h₃⟩
      · exact inr fun target htarget => (h target htarget).imp fun _ h => hsub h
    · exact ho hkind
  · intro source target e ho
    rcases hsplit ho with ho | ho
    · exact (hs.promised source target e ho).imp fun _ h => hsub h
    · exact (ho rfl).imp fun _ h => hsub h

/-- An update that concerns neither the schedule nor activation. -/
theorem frame (hwork : t.scheduledWork = s.scheduledWork) (hcurrent : t.currentWork = s.currentWork)
    (hdone : t.trail.workDone = s.trail.workDone)
    (hsources : t.committedSources = s.committedSources) (hepoch : t.epoch = s.epoch)
    (hexec : t.executingEpoch = true → s.executingEpoch = true)
    (hlive : t.terminated = false → s.terminated = false ∧ (s.executingEpoch = true →
      t.executingEpoch = true)) : Traced c t := by
  refine hs.extend os hhistory hos ?_ ?_ hcurrent ?_ ?_ ?_ hepoch hexec hlive
  · rw [hwork]
    exact fun _ h => inl h
  · rw [hwork]
    exact fun _ h => h
  · rw [hdone]
    exact fun _ h => inl h
  · rw [hsources]
    exact fun _ h => inl h
  · rw [hsources]
    exact fun _ h => h

end

variable {id : ObjectId}

/-- The cause of a request is explained where the request is made. -/
theorem meaning_of_justified (hs : Traced c s) (haccount : Accounted c s) {cause : Cause}
    {e : Epoch} (h : cause.Justified c s id e) : cause.Meaning c s.trail.history id e := by
  cases cause with
  | host | object => trivial
  | event due =>
    obtain ⟨hflight, he⟩ := h
    have hready := (haccount.due due hflight).1
    have hline : due ∈ s.line := by
      rw [line, hflight]
      simp
    have haccepted : due ∈ s.accepted :=
      haccount.perm.mem_iff.mpr (mem_append_left _ hline)
    refine ⟨mem_accepted.mp haccepted, ?_⟩
    rw [hready]
    exact he.imp_right fun h => h.2
  | activation source tick =>
    obtain ⟨hexec, rfl, hsource, htarget, he⟩ := h
    obtain ⟨hpublished, hkind⟩ := hs.sources hexec source hsource
    exact ⟨he, htarget, hkind, s.epoch.delta, hpublished⟩
  | traceEnd =>
    obtain ⟨_, rfl⟩ := h
    rfl

theorem call (h : Call c s t) (hs : Traced c s) (haccount : Accounted c s) : Traced c t := by
  cases h with
  | @schedule cause id epoch live hle hlt hdelta htarget hcause =>
    refine hs.extend [.scheduled id epoch cause] rfl ?_ ?_ ?_ rfl (fun _ h => inl h)
      (fun _ h => inl h) (fun _ h => h) rfl (fun h => h) (fun h => ⟨h, fun h => h⟩)
    · intro o ho
      rw [mem_singleton.mp ho]
      exact ⟨hs.meaning_of_justified haccount hcause, (mem_insertSet _).mpr (inl rfl)⟩
    · intro w hw
      rcases (mem_insertSet _).mp hw with rfl | hw
      · exact inr ⟨cause, mem_singleton.mpr rfl⟩
      · exact inl hw
    · exact fun w hw => (mem_insertSet _).mpr (inr hw)
  | accept =>
    refine hs.frame [_] rfl (fun o ho => ?_) rfl rfl rfl rfl rfl (fun h => h)
      (fun h => ⟨h, fun h => h⟩)
    rw [mem_singleton.mp ho]
    trivial
  | fail =>
    exact hs.frame [] (append_nil _).symm nofun rfl rfl rfl rfl rfl nofun nofun
  | skipSequence | register | observe =>
    exact hs.frame [] (append_nil _).symm nofun rfl rfl rfl rfl rfl (fun h => h)
      (fun h => ⟨h, fun h => h⟩)

/-- Opening the epoch moves its Work set from the schedule to the current Work. -/
theorem openEpoch (hs : Traced c s) (live : s.terminated = false)
    (hclosed : s.executingEpoch = false) : Traced c s.openEpoch := by
  have hnot : ¬ s.executingEpoch = true := by
    rw [hclosed]
    exact Bool.false_ne_true
  constructor
  · exact fun w hw => hs.work w (mem_filter.mp hw).1
  · intro _ id hid
    obtain ⟨w, hw, rfl⟩ := mem_map.mp hid
    obtain ⟨hw, hepoch⟩ := mem_filter.mp hw
    have hepoch : w.epoch = s.epoch := of_decide_eq_true hepoch
    change ∃ cause, .scheduled w.id s.epoch cause ∈ s.trail.history
    rw [← hepoch]
    exact hs.work w hw
  · exact hs.worked
  · exact hs.meaning
  · exact fun _ _ h => (nomatch h)
  · intro _ id e cause ho
    rcases hs.carried live id e cause ho with h | h | ⟨h, _⟩
    · by_cases he : e = s.epoch
      · refine inr (inr ⟨rfl, he, ?_, nofun⟩)
        exact mem_map.mpr ⟨_, mem_filter.mpr ⟨h, decide_eq_true he⟩, rfl⟩
      · exact inl (mem_filter.mpr ⟨h, decide_eq_true he⟩)
    · exact inr (inl h)
    · exact absurd h hnot
  · intro _ source e ho hkind
    rcases hs.answered live source e ho hkind with ⟨h, _⟩ | h
    · exact absurd h hnot
    · exact inr h
  · exact hs.promised

theorem closeEpoch (hs : Traced c s) (live : s.terminated = false)
    (hwork : s.currentWork = s.trail.workDone)
    (hasked : ∀ source ∈ s.committedSources, ∀ target ∈ c.activation.targetsFor source,
      ∃ accepts, .asked source target s.epoch accepts ∈ s.trail.history) :
    Traced c s.closeEpoch := by
  refine ⟨hs.work, nofun, hs.worked, hs.meaning, nofun, fun _ id e cause ho => ?_,
    fun _ source e ho hkind => ?_, hs.promised⟩
  · rcases hs.carried live id e cause ho with h | h | ⟨_, _, h, hnot⟩
    · exact inl h
    · exact inr (inl h)
    · rw [hwork] at h
      exact absurd h hnot
  · rcases hs.answered live source e ho hkind with ⟨_, rfl, h⟩ | h
    · exact inr (hasked source h)
    · exact inr h

theorem startWork (hs : Traced c s) (executing : s.executingEpoch = true) (hid : id ∈ s.currentWork) :
    Traced c (s.startWork id) := by
  refine hs.extend [.worked id s.epoch] rfl ?_ (fun _ h => inl h) (fun _ h => h) rfl ?_
    (fun _ h => inl h) (fun _ h => h) rfl (fun h => h) (fun h => ⟨h, fun h => h⟩)
  · intro o ho
    rw [mem_singleton.mp ho]
    exact hs.current executing id hid
  · intro id' hid'
    rcases mem_append.mp hid' with h | h
    · exact inl h
    · rw [mem_singleton.mp h]
      exact inr (mem_singleton.mpr rfl)

theorem markCommitted (hs : Traced c s) (executing : s.executingEpoch = true) :
    Traced c (s.markCommitted c id) := by
  refine hs.extend [.published id s.epoch] rfl ?_ (fun _ h => inl h) (fun _ h => h) rfl
    (fun _ h => inl h) ?_ ?_ rfl (fun h => h) (fun h => ⟨h, fun h => h⟩)
  · intro o ho
    rw [mem_singleton.mp ho]
    intro hkind
    refine inl ⟨executing, rfl, ?_⟩
    simp [SimSystem.markCommitted, hkind]
  · intro source hsource
    by_cases hkind : c.kindOf id = some .eventQueue
    · simp only [SimSystem.markCommitted, hkind] at hsource
      exact inl hsource
    · simp only [SimSystem.markCommitted, hkind] at hsource
      rcases mem_append.mp hsource with h | h
      · exact inl h
      · rw [mem_singleton.mp h]
        exact inr ⟨mem_singleton.mpr rfl, hkind⟩
  · intro source hsource
    unfold SimSystem.markCommitted
    split
    · exact hsource
    · exact mem_append_left _ hsource

theorem move (h : Move c s t) (hs : Traced c s) (haccount : Accounted c s) : Traced c t := by
  have hkeep {u : SimSystem} (os : List Occurrence)
      (hhistory : u.trail.history = s.trail.history ++ os)
      (hos : ∀ o ∈ os, o.Explained c s u) (hwork : u.scheduledWork = s.scheduledWork)
      (hcurrent : u.currentWork = s.currentWork) (hdone : u.trail.workDone = s.trail.workDone)
      (hsources : u.committedSources = s.committedSources) (hepoch : u.epoch = s.epoch)
      (hexec : u.executingEpoch = s.executingEpoch) (hterm : u.terminated = s.terminated) :
      Traced c u :=
    hs.frame os hhistory hos hwork hcurrent hdone hsources hepoch (fun h => hexec ▸ h)
      fun h => ⟨hterm ▸ h, fun h => hexec ▸ h⟩
  have hone {u : SimSystem} {o : Occurrence} (ho : o.Explained c s u) :
      ∀ o' ∈ [o], o'.Explained c s u := by
    intro o' ho'
    rw [mem_singleton.mp ho']
    exact ho
  cases h with
  | call h => exact hs.call h haccount
  | openEpoch live hclosed => exact hs.openEpoch live hclosed
  | startWork live executing hwork =>
    refine hs.startWork executing ?_
    rw [hwork]
    exact mem_append_right _ mem_cons_self
  | publish live executing => exact hs.markCommitted executing
  | asked live executing hsource htarget haccepts =>
    refine hkeep [_] rfl (hone fun h => ?_) rfl rfl rfl rfl rfl rfl rfl
    exact hs.work _ (haccepts h)
  | close live executing hfree hwork _ _ hasked => exact hs.closeEpoch live hwork hasked
  | commitEvents =>
    unfold commitEvents
    split
    · exact hkeep [_] rfl (hone trivial) rfl rfl rfl rfl rfl rfl rfl
    · exact hkeep [] (append_nil _).symm nofun rfl rfl rfl rfl rfl rfl rfl
  | count | markXfer => exact hkeep [_] rfl (hone trivial) rfl rfl rfl rfl rfl rfl rfl
  | note | mark | take | gather =>
    exact hkeep [] (append_nil _).symm nofun rfl rfl rfl rfl rfl rfl rfl

theorem advance (hs : Traced c s) (hclosed : s.executingEpoch = false) (next : Epoch) :
    Traced c { s with epoch := next } := by
  have hnot : ¬ s.executingEpoch = true := by
    rw [hclosed]
    exact Bool.false_ne_true
  refine ⟨hs.work, fun h => absurd h hnot, hs.worked, hs.meaning, fun h => absurd h hnot,
    fun live id e cause ho => ?_, fun live source e ho hkind => ?_, hs.promised⟩
  · rcases hs.carried live id e cause ho with h | h | ⟨h, _⟩
    · exact inl h
    · exact inr (inl h)
    · exact absurd h hnot
  · rcases hs.answered live source e ho hkind with ⟨h, _⟩ | h
    · exact absurd h hnot
    · exact inr h

end Traced

/-! ### Runs -/

/-- Every executed Work was scheduled for its epoch, with a cause. -/
def WorkExplained (c : Config) (s : SimSystem) : Prop :=
  ∀ id e, .worked id e ∈ s.trail.history →
    ∃ cause, .scheduled id e cause ∈ s.trail.history ∧ cause.Meaning c s.trail.history id e

/-- Every activation target of a committed source has been asked. -/
def TargetsAsked (c : Config) (s : SimSystem) : Prop :=
  ∀ source e, .published source e ∈ s.trail.history → c.kindOf source ≠ some .eventQueue →
    ∀ target ∈ c.activation.targetsFor source,
      ∃ accepts, .asked source target e accepts ∈ s.trail.history

/-- Every target that has accepted runs at the first delta of the next tick: it is scheduled
for it until then and has run after it. -/
def TargetsRun (s : SimSystem) : Prop :=
  ∀ source target e, .asked source target e true ∈ s.trail.history →
    (s.epoch ≤ ⟨e.time + 1, 0⟩ ∧ ⟨⟨e.time + 1, 0⟩, target⟩ ∈ s.scheduledWork) ∨
      .worked target ⟨e.time + 1, 0⟩ ∈ s.trail.history

section run

variable {W : Type} {m : Model W} {s t : SimSystem} {c : Config}

/-- What every move keeps. -/
structure ActivationInv (c : Config) (s : SimSystem) : Prop where
  timely : Timely s
  accounted : Accounted c s
  once : OncePerTick c s
  traced : Traced c s

/-- What holds in every reached state. -/
def Explained (c : Config) (s : SimSystem) : Prop :=
  (∀ id, c.Stateful id → (s.publishedAt id).Pairwise (fun a b => a.time < b.time)) ∧
    WorkExplained c s

theorem ActivationInv.explained (hs : ActivationInv c s)
    (htrail : t.trail = s.trail) : Explained c t := by
  have hpublished (id : ObjectId) : t.publishedAt id = s.publishedAt id := by
    rw [publishedAt, htrail]
    rfl
  constructor
  · intro id hid
    rw [hpublished]
    exact hs.once.ordered id hid
  · unfold WorkExplained
    rw [htrail]
    intro id e ho
    obtain ⟨cause, hcause⟩ := hs.traced.worked id e ho
    exact ⟨cause, hcause, hs.traced.meaning id e cause hcause⟩

theorem ActivationInv.halt (hs : ActivationInv c s) (h : Halt c s t) : Explained c t := by
  refine ⟨hs.once.halt h, fun id e ho => ?_⟩
  obtain ⟨os, hhistory, hos⟩ := h.history_append
  have hsub : s.trail.history ⊆ t.trail.history := by
    rw [hhistory]
    exact subset_append_left _ _
  have hold : .worked id e ∈ s.trail.history := by
    rw [hhistory] at ho
    refine (mem_append.mp ho).resolve_right fun h => ?_
    rcases hos with rfl | ⟨id', _, rfl⟩ <;> simp at h
  obtain ⟨cause, hcause, hmeaning⟩ := (hs.explained rfl).2 id e hold
  exact ⟨cause, hsub hcause, hmeaning.mono hsub⟩

theorem reaches_explained {s : State W} (h : Reachable m s) :
    (s.sys.terminated = true → Explained m.config s.sys) ∧
    (s.sys.terminated = false → ActivationInv m.config s.sys ∧ AtBoundary s.sys) := by
  refine Runs.sys_invariant (I := ActivationInv m.config) ?_ ?_ ?_ ?_ ?_ h
  · exact fun w => ⟨.fresh m w, .fresh m w, .fresh m w, .fresh m w⟩
  · exact fun s t hst hs => ⟨hs.timely.move hst, hs.accounted.move hst hs.timely, hs.once.move hst,
      hs.traced.move hst hs.accounted⟩
  · exact fun s t hs hst => hs.halt hst
  · exact fun _ _ _ _ _ _ hr _ _ _ => hr.explained rfl
  · intro s r _ _ _ _ hr hdrained q o t hq hI hsel
    have hboundary := hq.atBoundary hdrained
    have hproposals := hq.noProposals hdrained
    refine ⟨?_, ?_⟩
    · rintro rfl
      obtain ⟨next, _, hnext, hlt, _, _, rfl⟩ := hsel.advance_inv
      refine ⟨hI.timely.advance hboundary.closed hproposals hnext,
        hI.accounted.advance hboundary.free hlt, ⟨hI.once.ordered, fun id e he => ?_⟩,
        hI.traced.advance hboundary.closed next⟩
      obtain ⟨n, hn, hle, hpast⟩ := hI.once.last id e he
      exact ⟨n, hn, hle, le_trans hpast (Epoch.time_le_of_le (le_of_lt hlt))⟩
    · rintro rfl
      refine hI.explained ?_
      cases hsel with
      | nonMonotonic | overflow | deadline | maxTicks => rfl
      | exhausted _ hend =>
        cases hend with
        | traceOwners | traceCap => rfl
        | classified _ hend => cases hend <;> rfl

/-- **Once-per-tick commits and exact activation.**  In every run a stateful object publishes
at most once in a tick; an object runs Work only at an epoch for which the host, a call of a
runtime object, an accepted event, the trace-end shutdown or an activation edge has scheduled
it, in the last case exactly one tick after the commit; and as long as the run goes on, every
activation target of a committed source is asked, and one that accepts runs at the first delta
of the next tick. -/
theorem commits_and_activation {s : State W} (h : Reachable m s) :
    (∀ id, m.config.Stateful id →
      (s.sys.publishedAt id).Pairwise (fun a b => a.time < b.time)) ∧
    WorkExplained m.config s.sys ∧
    (s.sys.terminated = false → TargetsAsked m.config s.sys ∧ TargetsRun s.sys) := by
  have hs := reaches_explained h
  cases hterm : s.sys.terminated with
  | true => exact ⟨(hs.1 hterm).1, (hs.1 hterm).2, nofun⟩
  | false =>
    obtain ⟨hI, hboundary⟩ := hs.2 hterm
    have hnot : ¬ s.sys.executingEpoch = true := by
      rw [hboundary.closed]
      exact Bool.false_ne_true
    refine ⟨(hI.explained rfl).1, (hI.explained rfl).2, fun _ => ⟨?_, ?_⟩⟩
    · intro source e ho hkind
      exact (hI.traced.answered hterm source e ho hkind).resolve_left fun h => hnot h.1
    · intro source target e ho
      obtain ⟨cause, hcause⟩ := hI.traced.promised source target e ho
      rcases hI.traced.carried hterm target _ cause hcause with h | h | h
      · exact Or.inl ⟨hI.timely.work_le _ h, h⟩
      · exact Or.inr h
      · exact absurd h.1 hnot

end run

/-- Two objects and an activation edge from the first, which always commits, to the second. -/
def edgeModel : Model Unit where
  config := { Config.ofKinds [.compute, .compute] with
    activation := { offsets := [0, 1, 1], targets := [1] } }
  hooks := { hasPendingCommit := fun p _ => p = 0 }

/-- The edge model after one step, with the first object scheduled by the host. -/
def edgeEnd : State Unit :=
  (step edgeModel (hostCall edgeModel (fun w => .scheduleWork 0 ⟨0, 0⟩ fun _ => .done w)
    (State.fresh edgeModel ()))).2

theorem commits_and_activation_edge :
    Reachable edgeModel edgeEnd ∧ edgeEnd.sys.terminated = false ∧ TargetsRun edgeEnd.sys ∧
    .asked 0 1 ⟨0, 0⟩ true ∈ edgeEnd.sys.trail.history ∧
    edgeEnd.sys.scheduledWork = [⟨⟨1, 0⟩, 1⟩] := by
  have h : Reachable edgeModel edgeEnd := .step (.host _ trivial (.fresh () trivial)) trivial
  exact ⟨h, by decide, ((commits_and_activation h).2.2 (by decide)).2, by decide, by decide⟩

/-- The second step of the wake model. -/
def wakeEnd : State Unit := (step wakeModel (step wakeModel wakeStart).2).2

/-- The object runs at tick 3, and nothing but its own call has scheduled it there. -/
theorem object_schedules_itself : Reachable wakeModel wakeEnd ∧
    .worked 0 ⟨3, 0⟩ ∈ wakeEnd.sys.trail.history ∧
    ∀ cause, .scheduled 0 ⟨3, 0⟩ cause ∈ wakeEnd.sys.trail.history → cause = .object := by
  refine ⟨.step (.step (.host _ trivial (.fresh () trivial)) trivial) trivial, by decide, fun cause ho => ?_⟩
  have hhistory : wakeEnd.sys.trail.history =
      [.scheduled 0 ⟨0, 0⟩ .host, .worked 0 ⟨0, 0⟩, .scheduled 0 ⟨3, 0⟩ .object,
        .xferred 0 ⟨0, 0⟩, .worked 0 ⟨3, 0⟩, .scheduled 0 ⟨6, 0⟩ .object,
        .xferred 0 ⟨3, 0⟩] := by decide
  rw [hhistory] at ho
  simpa using ho

end AgenticCircuit.Gfsim
