import AgenticCircuit.Gfsim.Run

/-! # Time moves forward

The invariant of the scheduler's two queues.  Work and events lie at or after the current
epoch, and while an epoch executes its own Work set has left the schedule, so that what is
scheduled lies strictly later.  It gives the advance of the epoch: a step that goes on moves
to a strictly later epoch and leaves nothing behind. -/

namespace AgenticCircuit.Gfsim

open List

/-- Nothing on the schedule or in the event queue lies before the current epoch. -/
structure Timely (s : SimSystem) : Prop where
  sortedWork : Sorted WorkItem.key s.scheduledWork
  sortedEvents : Sorted Event.key s.eventQueue.committed
  work_le : ∀ w ∈ s.scheduledWork, s.epoch ≤ w.epoch
  work_lt : s.executingEpoch = true → ∀ w ∈ s.scheduledWork, s.epoch < w.epoch
  committed_le : ∀ e ∈ s.eventQueue.committed, s.epoch ≤ e.readyTime
  proposed_le : ∀ e ∈ s.eventQueue.pushProposals, s.epoch ≤ e.readyTime

namespace Timely

variable {c : Config} {s t : SimSystem}

theorem fresh {W : Type} (m : Model W) (w : W) : Timely (State.fresh m w).sys :=
  ⟨List.Pairwise.nil, List.Pairwise.nil, nofun, nofun, nofun, nofun⟩

theorem insertWork (hs : Timely s) {cause : Cause} {id : ObjectId} {epoch : Epoch}
    (hle : s.epoch ≤ epoch) (hlt : s.executingEpoch = true → s.epoch < epoch) :
    Timely (s.insertWork cause id epoch) where
  sortedWork := hs.sortedWork.insertSet _ _
  sortedEvents := hs.sortedEvents
  work_le := by
    intro w hw
    rcases (mem_insertSet _).mp hw with rfl | hw
    · exact hle
    · exact hs.work_le w hw
  work_lt := by
    intro hexec w hw
    rcases (mem_insertSet _).mp hw with rfl | hw
    · exact hlt hexec
    · exact hs.work_lt hexec w hw
  committed_le := hs.committed_le
  proposed_le := hs.proposed_le

theorem acceptEvent (hs : Timely s) {event : Event} (hle : s.epoch ≤ event.readyTime) :
    Timely (s.acceptEvent event) := by
  refine ⟨hs.sortedWork, hs.sortedEvents, hs.work_le, hs.work_lt, hs.committed_le, fun e he => ?_⟩
  rcases (mem_insertKey _).mp he with rfl | he
  · exact hle
  · exact hs.proposed_le e he

theorem call (h : Call c s t) (hs : Timely s) : Timely t := by
  cases h with
  | schedule live hle hlt => exact hs.insertWork hle hlt
  | accept live hle => exact hs.acceptEvent hle
  | fail =>
    exact ⟨hs.sortedWork, hs.sortedEvents, hs.work_le, nofun, hs.committed_le, hs.proposed_le⟩
  | skipSequence | register | observe =>
    exact ⟨hs.sortedWork, hs.sortedEvents, hs.work_le, hs.work_lt, hs.committed_le, hs.proposed_le⟩

theorem openEpoch (hs : Timely s) : Timely s.openEpoch := by
  have hrest : ∀ w ∈ s.openEpoch.scheduledWork, s.epoch < w.epoch := by
    intro w hw
    obtain ⟨hw, hne⟩ := mem_filter.mp hw
    exact lt_of_le_of_ne (hs.work_le w hw) (Ne.symm (of_decide_eq_true hne))
  exact ⟨hs.sortedWork.filter _ _, hs.sortedEvents, fun w hw => le_of_lt (hrest w hw),
    fun _ => hrest, hs.committed_le, hs.proposed_le⟩

theorem commitEvents (hs : Timely s) : Timely s.commitEvents := by
  have hcommitted : ∀ e ∈ s.eventQueue.doXfer.committed, s.epoch ≤ e.readyTime := by
    intro e he
    rcases (mem_insertAll _).mp he with he | he
    · exact hs.committed_le e he
    · exact hs.proposed_le e he
  unfold SimSystem.commitEvents
  split
  · exact ⟨hs.sortedWork, hs.sortedEvents.insertAll _ _, hs.work_le, hs.work_lt, hcommitted, nofun⟩
  · exact ⟨hs.sortedWork, hs.sortedEvents.insertAll _ _, hs.work_le, hs.work_lt, hcommitted, nofun⟩

theorem takeEvent (hs : Timely s) (event : Event) : Timely (s.takeEvent event) :=
  ⟨hs.sortedWork, hs.sortedEvents.sublist (tail_sublist _), hs.work_le, hs.work_lt,
    fun e he => hs.committed_le e (mem_of_mem_tail he), hs.proposed_le⟩

theorem move (h : Move c s t) (hs : Timely s) : Timely t := by
  cases h with
  | call h => exact hs.call h
  | take => exact hs.takeEvent _
  | openEpoch => exact hs.openEpoch
  | commitEvents => exact hs.commitEvents
  | close =>
    exact ⟨hs.sortedWork, hs.sortedEvents, hs.work_le, nofun, hs.committed_le, hs.proposed_le⟩
  | note | mark | count | startWork | gather | markXfer | publish | asked =>
    exact ⟨hs.sortedWork, hs.sortedEvents, hs.work_le, hs.work_lt, hs.committed_le, hs.proposed_le⟩

end Timely

/-! ### The next epoch -/

variable {s : SimSystem} {next : Epoch} {isEvent : Bool}

/-- The chosen epoch is the earliest of the scheduled work and the committed events; a tie goes
to the event. -/
theorem nextEpoch_spec (hs : Timely s) (h : nextEpoch s = some (next, isEvent)) :
    (isEvent = false → ∃ w ∈ s.scheduledWork, w.epoch = next) ∧
    (isEvent = true → ∃ e, s.eventQueue.nextEvent = some e ∧ e.readyTime = next) ∧
    (∀ w ∈ s.scheduledWork, next ≤ w.epoch) ∧
    (∀ e ∈ s.eventQueue.committed, next ≤ e.readyTime) := by
  have hwork {w : WorkItem} (hw : s.scheduledWork.head? = some w) :
      ∀ w' ∈ s.scheduledWork, w.epoch ≤ w'.epoch :=
    fun w' hw' => WorkItem.epoch_le_of_key_le (hs.sortedWork.head?_le _ hw hw')
  have hevent {e : Event} (he : s.eventQueue.nextEvent = some e) :
      ∀ e' ∈ s.eventQueue.committed, e.readyTime ≤ e'.readyTime :=
    fun e' he' => Event.readyTime_le_of_key_le (hs.sortedEvents.head?_le _ he he')
  unfold nextEpoch at h
  split at h
  · cases h
  · rename_i w hw he
    cases h
    refine ⟨fun _ => ⟨w, mem_of_head? hw, rfl⟩, nofun, hwork hw, fun e hmem => ?_⟩
    rw [List.head?_eq_none_iff.mp he] at hmem
    cases hmem
  · rename_i e hw he
    cases h
    refine ⟨nofun, fun _ => ⟨e, he, rfl⟩, fun w hmem => ?_, hevent he⟩
    rw [List.head?_eq_none_iff.mp hw] at hmem
    cases hmem
  · rename_i w e hw he
    split at h
    · rename_i hle
      cases h
      exact ⟨nofun, fun _ => ⟨e, he, rfl⟩, fun w' hw' => le_trans hle (hwork hw w' hw'), hevent he⟩
    · rename_i hlt
      cases h
      refine ⟨fun _ => ⟨w, mem_of_head? hw, rfl⟩, nofun, hwork hw, fun e' he' => ?_⟩
      exact le_of_lt (lt_of_lt_of_le (not_le.mp hlt) (hevent he e' he'))

theorem nextEpoch_eq_none (h : nextEpoch s = none) :
    s.scheduledWork = [] ∧ s.eventQueue.committed = [] := by
  unfold nextEpoch at h
  split at h
  · rename_i hw he
    exact ⟨List.head?_eq_none_iff.mp hw, List.head?_eq_none_iff.mp he⟩
  · cases h
  · cases h
  · split at h <;> cases h

/-- At the end of an epoch everything that is left lies strictly later. -/
theorem epoch_lt_nextEpoch {W : Type} {m : Model W} {r : State W} {q : SimSystem}
    (hr : Timely r.sys) (hdrained : Drained m.config r.sys) (hq : Closed m r q)
    (h : nextEpoch q = some (next, isEvent)) : q.epoch < next := by
  have hepoch : q.epoch = r.sys.epoch := by cases hq <;> rfl
  have hsame : nextEpoch q = nextEpoch r.sys := by cases hq <;> rfl
  rw [hsame] at h
  rw [hepoch]
  obtain ⟨hwork, hevent, _, _⟩ := nextEpoch_spec hr h
  cases isEvent with
  | false =>
    obtain ⟨w, hw, rfl⟩ := hwork rfl
    exact hr.work_lt hdrained.position.executing w hw
  | true =>
    obtain ⟨e, he, rfl⟩ := hevent rfl
    refine lt_of_le_of_ne (hr.committed_le e (mem_of_head? he)) ?_
    exact Ne.symm (hdrained.noneDue e he)

/-- Moving to the earliest pending epoch leaves nothing behind. -/
theorem Timely.advance (hs : Timely s) (hclosed : s.executingEpoch = false)
    (hproposals : s.eventQueue.pushProposals = []) (h : nextEpoch s = some (next, isEvent)) :
    Timely { s with epoch := next } := by
  obtain ⟨_, _, hwork, hevents⟩ := nextEpoch_spec hs h
  refine ⟨hs.sortedWork, hs.sortedEvents, hwork, fun hexec => ?_, hevents, fun e he => ?_⟩
  · cases hclosed.symm.trans hexec
  · change e ∈ s.eventQueue.pushProposals at he
    rw [hproposals] at he
    cases he

/-! ### Runs -/

section run

variable {W : Type} {m : Model W}

/-- None of the two diagnostics that a broken order of time would raise. -/
def OrderKept (s : SimSystem) : Prop :=
  s.result.diagnostic ≠ some .nonMonotonicEpoch ∧ s.result.diagnostic ≠ some .staleEvent

variable {c : Config} {s t : SimSystem}

theorem OrderKept.move (h : Move c s t) (hs : OrderKept s) : OrderKept t := by
  rcases h.result_cases with ⟨hdiagnostic, _⟩ | ⟨d, hd, rfl⟩
  · unfold OrderKept
    rw [hdiagnostic]
    exact hs
  · constructor
    · rintro ⟨⟩
      cases hd
    · rintro ⟨⟩
      cases hd

theorem OrderKept.halt (h : Halt c s t) (hs : OrderKept s) (htimely : Timely s) : OrderKept t := by
  cases h with
  | returned => exact hs
  | returnedXfer committed =>
    cases committed with
    | false => exact hs
    | true => exact hs
  | failed live hd | capped live hfree hd =>
    constructor
    · rintro ⟨⟩
      cases hd
    · rintro ⟨⟩
      cases hd
  | stale live hnext hlt =>
    exact absurd hlt (not_lt.mpr (htimely.committed_le _ (mem_of_head? hnext)))
  | maxTicks => exact ⟨nofun, nofun⟩

theorem OrderKept.exhausted (h : Exhausted c s t) (hs : OrderKept s) : OrderKept t := by
  cases h with
  | classified _ h =>
    cases h with
    | completed => exact hs
    | _ => exact ⟨nofun, nofun⟩
  | _ => exact ⟨nofun, nofun⟩

theorem reaches_timely {ok : State W → Prop} {s : State W} (h : Reaches m ok s) :
    (s.sys.terminated = true → OrderKept s.sys) ∧
      (s.sys.terminated = false → (Timely s.sys ∧ OrderKept s.sys) ∧ AtBoundary s.sys) := by
  refine Runs.sys_invariant (I := fun s => Timely s ∧ OrderKept s) ?_ ?_ ?_ ?_ ?_ h
  · exact fun w => ⟨.fresh m w, nofun, nofun⟩
  · exact fun s t hst hs => ⟨hs.1.move hst, hs.2.move hst⟩
  · exact fun s t hs hst => hs.2.halt hst hs.1
  · exact fun _ _ _ _ _ _ _ _ _ _ => ⟨nofun, nofun⟩
  · intro s r _ _ _ _ hr hdrained q o t hq hI hsel
    refine ⟨?_, ?_⟩
    · rintro rfl
      obtain ⟨next, isEvent, hnext, hlt, _, _, rfl⟩ := hsel.advance_inv
      have hproposals := hq.noProposals hdrained
      exact ⟨hI.1.advance (hq.atBoundary hdrained).closed hproposals hnext, hI.2⟩
    · rintro rfl
      cases hsel with
      | nonMonotonic hnext hle =>
        exact absurd hle (not_le.mpr (epoch_lt_nextEpoch hr.1 hdrained hq hnext))
      | exhausted _ hend => exact hI.2.exhausted hend
      | overflow | deadline | maxTicks => exact ⟨nofun, nofun⟩

/-- A step that goes on leaves the system live and at a strictly later epoch. -/
theorem epoch_lt_of_step {s t : State W} (hs : AtBoundary s.sys)
    (h : step m s = (some (), t)) : t.sys.terminated = false ∧ s.sys.epoch < t.sys.epoch := by
  obtain ⟨r, q, next, _, _, hpath, hdrained, hq, _, hlt, _, _, rfl⟩ := step_some hs h
  refine ⟨(hq.atBoundary hdrained).live, ?_⟩
  have hepoch : q.epoch = r.sys.epoch := by cases hq <;> rfl
  rw [hepoch, epoch_eq_of_moves (moves_of_trans hpath)] at hlt
  exact hlt

/-- **Epochs increase and nothing stale remains.**  In every run, with any calls by the
objects in Work, Arbitrate and Xfer and by the host between steps, a step that returns true
moves to a strictly later epoch, after it no scheduled work and no committed event lies before
the current epoch, and neither `nonMonotonicEpoch` nor the stale-event failure of the event
loops ever occurs. -/
theorem step_advances {s : State W} (h : Reachable m s) :
    (∀ t, step m s = (some (), t) → s.sys.epoch < t.sys.epoch ∧
      (∀ w ∈ t.sys.scheduledWork, t.sys.epoch ≤ w.epoch) ∧
      (∀ e ∈ t.sys.eventQueue.committed, t.sys.epoch ≤ e.readyTime)) ∧
    s.sys.result.diagnostic ≠ some .nonMonotonicEpoch ∧
    s.sys.result.diagnostic ≠ some .staleEvent := by
  have hs := reaches_timely h
  cases hterm : s.sys.terminated with
  | true =>
    refine ⟨fun t ht => ?_, hs.1 hterm⟩
    rw [step_of_terminated hterm] at ht
    cases ht
  | false =>
    obtain ⟨⟨_, hkept⟩, hboundary⟩ := hs.2 hterm
    refine ⟨fun t ht => ?_, hkept⟩
    obtain ⟨hlive, hlt⟩ := epoch_lt_of_step hboundary ht
    have hreach : Reachable m t := by
      have hstep : Reachable m (step m s).2 := Runs.step h trivial
      rwa [ht] at hstep
    have htimely := ((reaches_timely hreach).2 hlive).1.1
    exact ⟨hlt, htimely.work_le, htimely.committed_le⟩

end run

/-- One object that wakes itself three ticks later. -/
def wakeModel : Model Unit where
  config := .ofKinds [.compute]
  hooks := { doWork := fun _ e w => .scheduleWork 0 ⟨e.time + 3, 0⟩ fun _ => .done w }

/-- The wake model after the host has scheduled its object. -/
def wakeStart : State Unit :=
  hostCall wakeModel (fun w => .scheduleWork 0 ⟨0, 0⟩ fun _ => .done w) (State.fresh wakeModel ())

theorem step_advances_wake : Reachable wakeModel wakeStart ∧
    wakeStart.sys.epoch < (step wakeModel wakeStart).2.sys.epoch ∧
    (step wakeModel wakeStart).2.sys.scheduledWork = [⟨⟨3, 0⟩, 0⟩] := by
  have h : Reachable wakeModel wakeStart := Runs.host _ trivial (Runs.fresh () trivial)
  exact ⟨h, ((step_advances h).1 _ rfl).1, by decide⟩

end AgenticCircuit.Gfsim
