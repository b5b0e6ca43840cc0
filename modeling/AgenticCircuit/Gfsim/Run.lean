import AgenticCircuit.Gfsim.Stages

/-! # Runs

How a step ends, and the invariant rule for runs.

* **`Selected`** lists the outcomes of choosing the next epoch.
* **`step_cases`** splits a step into an early return, the trace-end cap, and an executed
  epoch followed by a choice of the next one.
* **`Runs.invariant`** is the induction over runs: `I` holds in every live state at a step
  boundary and inside every step, and `J` in every terminated state. -/

namespace AgenticCircuit.Gfsim

open Exit Control

open Relation (ReflTransGen)

/-! ### The choice of the next epoch -/

/-- The deadlock window does not stop the advance to `next`. -/
def WithinWindow (c : Config) (s : SimSystem) (next : Epoch) (isEvent : Bool) : Prop :=
  ∀ window, c.deadlockWindow = some window → isEvent = false →
    s.lastProgressTick ≤ uint64Max - window ∧ next.time < s.lastProgressTick + window

/-- How a run with nothing left to do ends, by its unfinished objects. -/
inductive Classified (c : Config) : SimSystem → SimSystem → Prop
  | completed {s : SimSystem} (hblocked : s.noProgress.blockedObjects = []) :
      Classified c s s.complete
  | noProgress {s : SimSystem} (hblocked : s.noProgress.blockedObjects ≠ [])
      (hwindow : c.deadlockWindow = none) :
      Classified c s (s.fail (.noProgress s.noProgress.summary))
  | overflow {s : SimSystem} {window : ℕ} (hblocked : s.noProgress.blockedObjects ≠ [])
      (hwindow : c.deadlockWindow = some window)
      (hover : uint64Max - window < s.lastProgressTick) :
      Classified c s (s.fail .windowOverflow)
  | maxTicks {s : SimSystem} {window : ℕ} (hblocked : s.noProgress.blockedObjects ≠ [])
      (hwindow : c.deadlockWindow = some window)
      (hfits : s.lastProgressTick ≤ uint64Max - window)
      (hcap : c.maxTicks ≤ s.lastProgressTick + window) :
      Classified c s (s.incompleteAtMaxTicks c)
  | deadline {s : SimSystem} {window : ℕ} (hblocked : s.noProgress.blockedObjects ≠ [])
      (hwindow : c.deadlockWindow = some window)
      (hfits : s.lastProgressTick ≤ uint64Max - window)
      (hcap : s.lastProgressTick + window < c.maxTicks) :
      Classified c s (s.failAt (s.lastProgressTick + window)
        (.deadlockExhausted s.noProgress.summary))

/-- The trace does not stop the run: it has no owner, or one at its end or before the cap. -/
def TraceGoesOn (c : Config) (s : SimSystem) : Prop :=
  s.traceOwnerCount = 0 ∨ s.traceOwnerCount = 1 ∧
    (s.traceEof = true ∨ s.result.tracePosition < c.maxTraceRecords)

/-- How a run ends when nothing is left to do. -/
inductive Exhausted (c : Config) : SimSystem → SimSystem → Prop
  | traceOwners {s : SimSystem} (howners : 1 < s.traceOwnerCount) :
      Exhausted c s (s.fail .multipleTraceOwners)
  | traceCap {s : SimSystem} (howner : s.traceOwnerCount = 1) (heof : s.traceEof = false)
      (hcap : c.maxTraceRecords ≤ s.result.tracePosition) :
      Exhausted c s (s.capped .maxTraceRecordsReached c.maxTraceRecords)
  | classified {s t : SimSystem} (hgo : TraceGoesOn c s) (h : Classified c s t) :
      Exhausted c s t

/-- The outcomes of choosing the next epoch. -/
inductive Selected (c : Config) : SimSystem → Option Unit → SimSystem → Prop
  | advance {s : SimSystem} {next : Epoch} {isEvent : Bool}
      (hnext : nextEpoch s = some (next, isEvent)) (hlt : s.epoch < next)
      (hwindow : WithinWindow c s next isEvent) (htime : next.time < c.maxTicks) :
      Selected c s (some ()) { s with epoch := next }
  | nonMonotonic {s : SimSystem} {next : Epoch} {isEvent : Bool}
      (hnext : nextEpoch s = some (next, isEvent)) (hle : next ≤ s.epoch) :
      Selected c s none (s.fail .nonMonotonicEpoch)
  | overflow {s : SimSystem} {next : Epoch} {window : ℕ}
      (hnext : nextEpoch s = some (next, false)) (hlt : s.epoch < next)
      (hwindow : c.deadlockWindow = some window)
      (hover : uint64Max - window < s.lastProgressTick) :
      Selected c s none (s.fail .windowOverflow)
  | deadline {s : SimSystem} {next : Epoch} {window : ℕ}
      (hnext : nextEpoch s = some (next, false)) (hlt : s.epoch < next)
      (hwindow : c.deadlockWindow = some window)
      (hfits : s.lastProgressTick ≤ uint64Max - window)
      (hdeadline : s.lastProgressTick + window ≤ next.time) :
      Selected c s none (s.failAt (s.lastProgressTick + window) .deadlockPending)
  | maxTicks {s : SimSystem} {next : Epoch} {isEvent : Bool}
      (hnext : nextEpoch s = some (next, isEvent)) (hlt : s.epoch < next)
      (hwindow : WithinWindow c s next isEvent) (htime : c.maxTicks ≤ next.time) :
      Selected c s none (s.incompleteAtMaxTicks c)
  | exhausted {s t : SimSystem} (hnone : nextEpoch s = none) (h : Exhausted c s t) :
      Selected c s none t

section select

variable {W : Type} {m : Model W} {s t : State W}

variable {Φ : Option Unit → State W → Prop}

/-- Check the cap on trace records after a refresh of the summary. -/
theorem stopAtTraceCap_ends
    (howners : 1 < (refreshed m s).traceOwnerCount →
      Φ none ⟨(refreshed m s).fail .multipleTraceOwners, s.world⟩)
    (hcap : (refreshed m s).traceOwnerCount = 1 → (refreshed m s).traceEof = false →
      m.config.maxTraceRecords ≤ (refreshed m s).result.tracePosition →
      Φ none ⟨(refreshed m s).capped .maxTraceRecordsReached m.config.maxTraceRecords, s.world⟩)
    (hgo : TraceGoesOn m.config (refreshed m s) → Φ (some ()) ⟨refreshed m s, s.world⟩) :
    Ends (stopAtTraceCap m) s Φ := by
  refine ends_bind (ends_modify (ends_get_bind ?_))
  dsimp only
  split
  · rename_i h
    exact howners h
  rename_i hone
  split
  · rename_i h
    simp only [Bool.or_eq_true, decide_eq_true_eq, or_assoc] at h
    refine hgo (or_iff_not_imp_left.mpr fun hzero => ⟨?_, h.resolve_left hzero⟩)
    omega
  · rename_i h
    simp only [Bool.or_eq_true, decide_eq_true_eq, not_or, not_lt, Bool.not_eq_true] at h
    exact hcap (by omega) h.1.2 h.2

theorem classifyEnd_ends (s : State W) : Ends (classifyEnd m) s fun o t =>
    o = none ∧ t.world = s.world ∧ Classified m.config s.sys t.sys := by
  refine ends_get_bind ?_
  dsimp only
  split
  · rename_i hblocked
    exact ends_stop ⟨rfl, rfl, .completed (List.isEmpty_iff.mp hblocked)⟩
  rename_i hblocked
  have hblocked : s.sys.noProgress.blockedObjects ≠ [] := fun h => hblocked (List.isEmpty_iff.mpr h)
  split
  · rename_i hwindow
    exact ends_stop ⟨rfl, rfl, .noProgress hblocked hwindow⟩
  rename_i window hwindow
  split
  · rename_i hover
    exact ends_stop ⟨rfl, rfl, .overflow hblocked hwindow hover⟩
  rename_i hover
  split
  · rename_i hcap
    exact ends_stop ⟨rfl, rfl, .maxTicks hblocked hwindow (not_lt.mp hover) hcap⟩
  · rename_i hcap
    exact ends_stop
      ⟨rfl, rfl, .deadline hblocked hwindow (not_lt.mp hover) (not_le.mp hcap)⟩

theorem finishExhausted_ends (s : State W) : Ends (finishExhausted m) s fun o t =>
    o = none ∧ t.world = s.world ∧ Exhausted m.config (refreshed m s) t.sys := by
  refine ends_bind (stopAtTraceCap_ends ?_ ?_ ?_)
  · exact fun howners => ⟨rfl, rfl, .traceOwners howners⟩
  · exact fun howner heof hcap => ⟨rfl, rfl, .traceCap howner heof hcap⟩
  · intro hgo
    refine Ends.mono (classifyEnd_ends ⟨refreshed m s, s.world⟩) ?_
    rintro o t ⟨ho, hworld, hend⟩
    exact ⟨ho, hworld, .classified hgo hend⟩

theorem stopAtDeadline_ends {next : Epoch} {isEvent : Bool}
    (hgo : WithinWindow m.config s.sys next isEvent → Φ (some ()) s)
    (hover : ∀ window, isEvent = false → m.config.deadlockWindow = some window →
      uint64Max - window < s.sys.lastProgressTick →
      Φ none { s with sys := s.sys.fail .windowOverflow })
    (hdeadline : ∀ window, isEvent = false → m.config.deadlockWindow = some window →
      s.sys.lastProgressTick ≤ uint64Max - window → s.sys.lastProgressTick + window ≤ next.time →
      Φ none ⟨s.sys.failAt (s.sys.lastProgressTick + window) .deadlockPending, s.world⟩) :
    Ends (stopAtDeadline m next isEvent) s Φ := by
  refine ends_get_bind ?_
  dsimp only
  split
  · rename_i hwindow
    refine ends_pure (hgo fun window h => ?_)
    rw [hwindow] at h
    cases h
  rename_i window hwindow
  split
  · rename_i hevent
    refine ends_pure (hgo fun _ _ h => ?_)
    rw [hevent] at h
    cases h
  rename_i hevent
  rw [Bool.not_eq_true] at hevent
  split
  · rename_i h
    exact ends_stop (hover window hevent hwindow h)
  rename_i h
  split
  · rename_i h'
    exact ends_stop (hdeadline window hevent hwindow (not_lt.mp h) h')
  · rename_i h'
    refine ends_pure (hgo fun w hw _ => ?_)
    rw [hwindow] at hw
    cases hw
    exact ⟨not_lt.mp h, not_le.mp h'⟩

/-- The choice of the next epoch, from the state after the epoch or, when nothing is left to
do, from that state with its summary refreshed. -/
theorem selectNext_ends (s : State W) : Ends (selectNext m) s fun o t =>
    t.world = s.world ∧
      ((nextEpoch s.sys ≠ none ∧ Selected m.config s.sys o t.sys) ∨
        (nextEpoch s.sys = none ∧ Selected m.config (refreshed m s) o t.sys)) := by
  refine ends_get_bind ?_
  dsimp only
  split
  · rename_i hnone
    refine Ends.mono (finishExhausted_ends s) ?_
    rintro _ t ⟨rfl, hworld, hend⟩
    exact ⟨hworld, Or.inr ⟨hnone, .exhausted hnone hend⟩⟩
  rename_i next isEvent hnext
  have hsome : nextEpoch s.sys ≠ none := by
    rw [hnext]
    nofun
  split
  · rename_i hle
    exact ends_stop ⟨rfl, Or.inl ⟨hsome, .nonMonotonic hnext hle⟩⟩
  rename_i hle
  have hlt : s.sys.epoch < next := not_le.mp hle
  refine ends_bind (stopAtDeadline_ends ?_ ?_ ?_)
  · intro hwindow
    dsimp only
    split
    · rename_i htime
      exact ends_stop ⟨rfl, Or.inl ⟨hsome, .maxTicks hnext hlt hwindow htime⟩⟩
    · rename_i htime
      exact ends_modify
        ⟨rfl, Or.inl ⟨hsome, .advance hnext hlt hwindow (not_le.mp htime)⟩⟩
  · rintro window rfl hwindow hover
    exact ⟨rfl, Or.inl ⟨hsome, .overflow hnext hlt hwindow hover⟩⟩
  · rintro window rfl hwindow hfits hdeadline
    exact ⟨rfl, Or.inl ⟨hsome, .deadline hnext hlt hwindow hfits hdeadline⟩⟩

theorem stopAtTraceEnd_ends (hgo : Φ (some ()) s)
    (hover : Φ none { s with sys := s.sys.fail .traceEndOverflow })
    (hcut : s.sys.traceEndProcesses ≠ [] → m.config.maxTicks ≤ s.sys.epoch.time + 1 →
      Φ none { s with sys := s.sys.incompleteAtMaxTicks m.config }) :
    Ends (stopAtTraceEnd m) s Φ := by
  refine ends_get_bind ?_
  dsimp only
  split
  · exact ends_pure hgo
  rename_i hmarked
  split
  · exact ends_stop hover
  split
  · rename_i hcap
    exact ends_stop (hcut (fun h => hmarked (List.isEmpty_iff.mpr h)) hcap)
  · exact ends_pure hgo

end select

/-! ### The step -/

section step

variable {W : Type} {m : Model W} {s t r : State W} {q : SimSystem}

theorem preflight_of_terminated (h : s.sys.terminated = true) : preflight m s = (none, s) := by
  have hreturn : returnIfTerminated s = (none, s) := by
    change (if s.sys.terminated then _ else _ : Exit (State W) Unit) s = _
    rw [if_pos h]
    rfl
  exact bind_of_eq_none hreturn

theorem proposeEpoch_of_terminated (h : s.sys.terminated = true) : proposeEpoch m s = (none, s) :=
  bind_of_eq_none (preflight_of_terminated h)

theorem step_of_terminated (h : s.sys.terminated = true) : step m s = (none, s) := by
  have hcommit : commitEpoch m s = (none, s) :=
    bind_of_eq_none (proposeEpoch_of_terminated h)
  have hexecute : executeEpoch m s = (none, s) := bind_of_eq_none hcommit
  exact bind_of_eq_none hexecute

theorem executeEpoch_spec (hs : AtBoundary s.sys) (h : executeEpoch m s = (some (), r)) :
    ReflTransGen (Trans m) s r ∧ Drained m.config r.sys := by
  obtain ⟨_, q, hcommit, hrest⟩ := bind_eq_some.mp h
  obtain ⟨_, u, hstop, hcontinue⟩ := bind_eq_some.mp hrest
  obtain ⟨hpath, hafter⟩ := (along_commitEpoch hs).next () q hcommit
  have hgo : Ends (stopAtTraceEnd m) q fun o v => o = some () → v = q :=
    stopAtTraceEnd_ends (fun _ => rfl) nofun fun _ _ => nofun
  have hu : u = q := hgo.of_eq hstop rfl
  rw [hu] at hcontinue
  obtain ⟨hpath', hdrained⟩ := (along_continueEpoch hafter).next () r hcontinue
  exact ⟨hpath.trans hpath', hdrained⟩

theorem step_of_executeEpoch (h : executeEpoch m s = (some (), r)) :
    step m s = selectNext m ⟨r.sys.closeEpoch, r.world⟩ := bind_of_eq_some h

/-- How a step goes: it returns early, it returns from the trace-end cap after the barrier, or
it executes its epoch and chooses the next. -/
inductive StepCase (m : Model W) (s : State W) : Option Unit → State W → Prop
  | halts {r t : State W} (hpath : ReflTransGen (Trans m) s r) (h : Halts m r t) :
      StepCase m s none t
  | cut {r : State W} (hcommit : commitEpoch m s = (some (), r))
      (hpath : ReflTransGen (Trans m) s r) (hafter : AfterXfer r.sys)
      (hmarked : r.sys.traceEndProcesses ≠ [])
      (hcap : m.config.maxTicks ≤ r.sys.epoch.time + 1) :
      StepCase m s none { r with sys := r.sys.incompleteAtMaxTicks m.config }
  | selects {r t : State W} {o : Option Unit} (hexecute : executeEpoch m s = (some (), r))
      (hpath : ReflTransGen (Trans m) s r) (hdrained : Drained m.config r.sys)
      (hselect : selectNext m ⟨r.sys.closeEpoch, r.world⟩ = (o, t)) : StepCase m s o t

theorem step_cases (hs : AtBoundary s.sys) : StepCase m s (step m s).1 (step m s).2 := by
  rcases hcommit : commitEpoch m s with ⟨_ | _, r⟩
  · obtain ⟨q, hpath, hhalt⟩ := (along_commitEpoch hs).ret r hcommit
    have h : step m s = (none, r) := bind_of_eq_none (bind_of_eq_none hcommit)
    rw [h]
    exact .halts hpath hhalt
  obtain ⟨hpath, hafter⟩ := (along_commitEpoch hs).next () r hcommit
  have htrace : Ends (stopAtTraceEnd m) r fun o q => (o = some () ∧ r = q) ∨
      (o = none ∧ StepCase m s none q) := by
    refine stopAtTraceEnd_ends (Or.inl ⟨rfl, rfl⟩) (Or.inr ⟨rfl, ?_⟩) fun hmarked hcap =>
      Or.inr ⟨rfl, .cut hcommit hpath hafter hmarked hcap⟩
    exact .halts hpath ⟨.failed hafter.1.live rfl, rfl, nofun⟩
  rcases hstop : stopAtTraceEnd m r with ⟨o, q⟩
  rcases htrace.of_eq hstop with ⟨rfl, rfl⟩ | ⟨rfl, hcase⟩
  · rcases hcontinue : continueEpoch m r with ⟨_ | _, u⟩
    · obtain ⟨v, hpath', hhalt⟩ := (along_continueEpoch hafter).ret u hcontinue
      have hexecute : executeEpoch m s = (none, u) :=
        (bind_of_eq_some hcommit).trans ((bind_of_eq_some hstop).trans hcontinue)
      have h : step m s = (none, u) := bind_of_eq_none hexecute
      rw [h]
      exact .halts (hpath.trans hpath') hhalt
    · have hexecute : executeEpoch m s = (some (), u) :=
        (bind_of_eq_some hcommit).trans ((bind_of_eq_some hstop).trans hcontinue)
      obtain ⟨hpath', hdrained⟩ := executeEpoch_spec hs hexecute
      rw [step_of_executeEpoch hexecute]
      exact .selects hexecute hpath' hdrained rfl
  · have hexecute : executeEpoch m s = (none, q) :=
      (bind_of_eq_some hcommit).trans (bind_of_eq_none hstop)
    have h : step m s = (none, q) := bind_of_eq_none hexecute
    rw [h]
    exact hcase

/-- The state the next epoch is chosen from: the closed epoch and, when nothing is left to do,
its summary refreshed. -/
inductive Closed (m : Model W) (r : State W) : SimSystem → Prop
  | plain (hsome : nextEpoch r.sys ≠ none) : Closed m r r.sys.closeEpoch
  | refreshed (hnone : nextEpoch r.sys = none) :
      Closed m r (refreshed m ⟨r.sys.closeEpoch, r.world⟩)

theorem Closed.atBoundary (h : Closed m r q) (hr : Drained m.config r.sys) : AtBoundary q := by
  have hclosed := hr.atBoundary
  cases h with
  | plain => exact hclosed
  | refreshed =>
    exact ⟨hclosed.live, hclosed.closed, hclosed.free, hclosed.owner, hclosed.ungathered⟩

theorem Closed.noProposals (h : Closed m r q)
    (hr : Drained m.config r.sys) : q.eventQueue.pushProposals = [] := by
  cases h <;> exact hr.committed

theorem selectNext_selected {r t : State W} {o : Option Unit}
    (h : selectNext m ⟨r.sys.closeEpoch, r.world⟩ = (o, t)) :
    t.world = r.world ∧ ∃ q, Closed m r q ∧ Selected m.config q o t.sys := by
  obtain ⟨hworld, ⟨hsome, hout⟩ | ⟨hnone, hout⟩⟩ := (selectNext_ends _).of_eq h
  · exact ⟨hworld, _, .plain hsome, hout⟩
  · exact ⟨hworld, _, .refreshed hnone, hout⟩

end step

/-! ### Termination -/

variable {c : Config} {s t : SimSystem} {W : Type} {m : Model W} {r : State W}

theorem Halt.terminated (h : Halt c s t) : t.terminated = true := by
  cases h with
  | returned owner h => exact h
  | returnedXfer committed h =>
    cases committed with
    | false => exact h
    | true => exact h
  | failed | stale | capped | maxTicks => rfl

theorem Exhausted.terminated (h : Exhausted c s t) : t.terminated = true := by
  cases h with
  | classified _ h => cases h <;> rfl
  | _ => rfl

theorem Selected.terminated (h : Selected c s none t) : t.terminated = true := by
  cases h with
  | exhausted _ h => exact h.terminated
  | _ => rfl

theorem Selected.advance_inv {u : Unit} (h : Selected c s (some u) t) :
    ∃ next isEvent, nextEpoch s = some (next, isEvent) ∧
      s.epoch < next ∧ WithinWindow c s next isEvent ∧ next.time < c.maxTicks ∧
      t = { s with epoch := next } := by
  cases h with
  | @advance next isEvent hnext hlt hwindow htime =>
    exact ⟨next, isEvent, hnext, hlt, hwindow, htime, rfl⟩

/-- A step that goes on has drained its epoch and moved to the next. -/
theorem step_some {s t : State W} (hs : AtBoundary s.sys) (h : step m s = (some (), t)) :
    ∃ r q next isEvent, executeEpoch m s = (some (), r) ∧
      ReflTransGen (Trans m) s r ∧ Drained m.config r.sys ∧ Closed m r q ∧
      nextEpoch q = some (next, isEvent) ∧ q.epoch < next ∧
      WithinWindow m.config q next isEvent ∧ next.time < m.config.maxTicks ∧
      t = ⟨{ q with epoch := next }, r.world⟩ := by
  have hcase := step_cases (m := m) hs
  rw [h] at hcase
  generalize ho : some () = o at hcase
  cases hcase with
  | halts => cases ho
  | cut => cases ho
  | @selects r _ _ hexecute hpath hdrained hsel =>
    subst ho
    obtain ⟨hworld, q, hq, hout⟩ := selectNext_selected hsel
    obtain ⟨next, isEvent, hnext, hlt, hwindow, htime, ht⟩ := hout.advance_inv
    refine ⟨r, q, next, isEvent, hexecute, hpath, hdrained, hq, hnext, hlt, hwindow, htime, ?_⟩
    rw [← ht, ← hworld]

theorem step_none_terminated {s t : State W} (hs : AtBoundary s.sys) (h : step m s = (none, t)) :
    t.sys.terminated = true := by
  have hcase := step_cases (m := m) hs
  rw [h] at hcase
  cases hcase with
  | halts _ hhalt => exact hhalt.halt.terminated
  | cut => rfl
  | selects _ _ _ hsel =>
    obtain ⟨_, q, _, hout⟩ := selectNext_selected hsel
    exact hout.terminated

theorem step_selected {s : State W} {next : Epoch} {isEvent : Bool}
    (hexecute : executeEpoch m s = (some (), r)) (hnext : nextEpoch r.sys = some (next, isEvent)) :
    Selected m.config r.sys.closeEpoch (step m s).1 (step m s).2.sys := by
  rw [step_of_executeEpoch hexecute]
  have hsome : nextEpoch r.sys.closeEpoch = some (next, isEvent) := hnext
  rcases (selectNext_ends (m := m) ⟨r.sys.closeEpoch, r.world⟩).2 with ⟨_, h⟩ | ⟨hnone, _⟩
  · exact h
  · cases hsome.symm.trans hnone

theorem Selected.exhausted_inv {o : Option Unit} (h : Selected c s o t)
    (hnone : nextEpoch s = none) : Exhausted c s t := by
  cases h with
  | exhausted _ hend => exact hend
  | advance hnext | nonMonotonic hnext | overflow hnext | deadline hnext | maxTicks hnext =>
    cases hnone.symm.trans hnext

theorem step_exhausted {s : State W} (hexecute : executeEpoch m s = (some (), r))
    (hnone : nextEpoch r.sys = none) :
    Exhausted m.config (refreshed m ⟨r.sys.closeEpoch, r.world⟩) (step m s).2.sys := by
  rw [step_of_executeEpoch hexecute]
  rcases (selectNext_ends (m := m) ⟨r.sys.closeEpoch, r.world⟩).2 with ⟨hsome, _⟩ | ⟨_, hout⟩
  · exact absurd hnone hsome
  · exact hout.exhausted_inv hnone

/-! ### Invariants of runs -/

section run

variable {W : Type} {m : Model W}

variable {s : State W} {t : SimSystem} {c : Config} {I ok : State W → Prop} {host : Host W}

theorem atBoundary_of_control {s : SimSystem} (h : t.control = s.control) (hs : AtBoundary s) :
    AtBoundary t :=
  ⟨(congrArg terminated h).trans hs.live, (congrArg executingEpoch h).trans hs.closed,
    (congrArg inFlight h).trans hs.free,
    (congrArg activeProposalOwner h).trans hs.owner,
    (congrArg gathered h).trans hs.ungathered⟩

theorem atBoundary_of_calls {s : SimSystem} (h : ReflTransGen (Call c) s t)
    (ht : t.terminated = false) (hs : s.terminated = false → AtBoundary s) : AtBoundary t := by
  have hlive : s.terminated = false := by
    by_contra hterm
    rw [Bool.not_eq_false] at hterm
    rw [eq_of_calls_of_terminated h hterm, hterm] at ht
    cases ht
  exact atBoundary_of_control (control_eq_of_calls_live h ht) (hs hlive)

theorem foldl_scheduleWork_calls {ι : Type} (f : ι → ObjectId) (e : Epoch) :
    ∀ (l : List ι) {s : SimSystem}, (s.terminated = false → s.executingEpoch = false) →
      ReflTransGen (Call c) s (l.foldl (fun s i => (s.scheduleWork c .host (f i) e).1) s)
  | [], _, _ => .refl
  | i :: l, s, hs => by
    have hcall : ReflTransGen (Call c) s (s.scheduleWork c .host (f i) e).1 :=
      SimSystem.scheduleWork_calls fun live _ _ => hs live
    refine hcall.trans (foldl_scheduleWork_calls f e l fun hlive => ?_)
    have hcontrol := control_eq_of_calls_live hcall hlive
    exact (congrArg executingEpoch hcontrol).trans
      (hs ((congrArg terminated hcontrol).symm.trans hlive))

theorem startRun_calls (hepoch : s.sys.epoch = ⟨0, 0⟩)
    (hclosed : s.sys.terminated = false → s.sys.executingEpoch = false) :
    ReflTransGen (Call m.config) s.sys (startRun m s).sys := by
  have hsys : { s.sys with epoch := ⟨0, 0⟩ } = s.sys := by rw [← hepoch]
  unfold startRun
  rw [hsys]
  exact foldl_scheduleWork_calls _ _ _ hclosed

theorem trans_of_calls {w : W} {s : SimSystem} (h : ReflTransGen (Call m.config) s t)
    (hclosed : s.executingEpoch = false) : ReflTransGen (Trans m) ⟨s, w⟩ ⟨t, w⟩ := by
  induction h with
  | refl => exact .refl
  | @tail r q hpath hstep ih =>
    have hclosed : r.executingEpoch = false :=
      (congrArg executingEpoch (control_eq_of_calls_live hpath hstep.live)).trans hclosed
    refine ih.tail (.move (.call hstep) ⟨hstep.xferDone_prefix, fun hexec => ?_⟩)
    cases hclosed.symm.trans hexec

theorem preserved_of_trans (htrans : ∀ s t, Trans m s t → I s → I t) {t : State W}
    (h : ReflTransGen (Trans m) s t) (hs : I s) : I t :=
  preserves_of_path htrans h hs

/-- The induction over runs.  `I` is kept by every move and method inside a step, by host
calls and by the advance to the next epoch; `J` is what the ends of a run give. -/
theorem Runs.invariant {J : State W → Prop} (hfresh : ∀ w, host.initial w → I (State.fresh m w))
    (htrans : ∀ s t, Trans m s t → I s → I t)
    (hhost : ∀ s b, host.calls b → AtBoundary s.sys → I s → I (hostCall m b s))
    (hlate : ∀ s b, host.calls b → s.sys.terminated = true → J s → J (hostCall m b s))
    (hended : ∀ s, I s → s.sys.trail.gathered = false → s.sys.terminated = true → J s)
    (hhalt : ∀ s r t, ok s → I s → AtBoundary s.sys → Gfsim.step m s = (none, t) → I r →
      Halts m r t → J t)
    (hcut : ∀ s r, ok s → I s → AtBoundary s.sys → commitEpoch m s = (some (), r) → I r →
      AfterXfer r.sys → r.sys.traceEndProcesses ≠ [] → m.config.maxTicks ≤ r.sys.epoch.time + 1 →
      J { r with sys := r.sys.incompleteAtMaxTicks m.config })
    (hselect : ∀ s r o t, ok s → I s → AtBoundary s.sys → executeEpoch m s = (some (), r) → I r →
      Drained m.config r.sys → selectNext m ⟨r.sys.closeEpoch, r.world⟩ = (o, t) → (o = some () →
      I t) ∧ (o = none → J t)) (h : Runs m host ok s) :
    (s.sys.terminated = true → J s) ∧ (s.sys.terminated = false → I s ∧ AtBoundary s.sys) := by
  induction h with
  | fresh w hw => exact ⟨nofun, fun _ => ⟨hfresh w hw, ⟨rfl, rfl, rfl, rfl, rfl⟩⟩⟩
  | @host s b hb _ ih =>
    have hcalls : ReflTransGen (Call m.config) s.sys (hostCall m b s).sys :=
      Body.exec_calls _ _ _
    cases hterm : s.sys.terminated with
    | true =>
      have hsys := eq_of_calls_of_terminated hcalls hterm
      refine ⟨fun _ => hlate s b hb hterm (ih.1 hterm), fun hlive => ?_⟩
      rw [hsys, hterm] at hlive
      cases hlive
    | false =>
      obtain ⟨hI, hboundary⟩ := ih.2 hterm
      have hopen := (congrArg gathered (control_eq_of_calls hcalls)).trans
        hboundary.ungathered
      exact ⟨hended _ (hhost s b hb hboundary hI) hopen, fun hlive =>
        ⟨hhost s b hb hboundary hI, atBoundary_of_calls hcalls hlive fun _ => hboundary⟩⟩
  | @start s _ hepoch ih =>
    have hcalls := startRun_calls (m := m) hepoch fun hlive => (ih.2 hlive).2.closed
    cases hterm : s.sys.terminated with
    | true =>
      have hsys : startRun m s = s :=
        congrArg (State.mk · s.world) (eq_of_calls_of_terminated hcalls hterm)
      rw [hsys]
      exact ih
    | false =>
      obtain ⟨hI, hboundary⟩ := ih.2 hterm
      have hI' : I (startRun m s) := preserved_of_trans htrans
        (trans_of_calls hcalls hboundary.closed) hI
      have hopen := (congrArg gathered (control_eq_of_calls hcalls)).trans
        hboundary.ungathered
      exact ⟨hended _ hI' hopen, fun hlive =>
        ⟨hI', atBoundary_of_calls hcalls hlive fun _ => hboundary⟩⟩
  | @step s _ hok ih =>
    cases hterm : s.sys.terminated with
    | true =>
      rw [step_of_terminated hterm]
      exact ih
    | false =>
      obtain ⟨hI, hboundary⟩ := ih.2 hterm
      have hcase := step_cases (m := m) hboundary
      rcases hstep : Gfsim.step m s with ⟨o, t⟩
      rw [hstep] at hcase
      cases hcase with
      | @halts r _ hpath hhalts =>
        have hJ := hhalt s r t hok hI hboundary hstep (preserved_of_trans htrans hpath hI) hhalts
        refine ⟨fun _ => hJ, fun hlive => ?_⟩
        rw [hhalts.halt.terminated] at hlive
        cases hlive
      | @cut r hcommit hpath hafter hmarked hcap =>
        exact ⟨fun _ => hcut s r hok hI hboundary hcommit
          (preserved_of_trans htrans hpath hI) hafter hmarked hcap, nofun⟩
      | @selects r _ _ hexecute hpath hdrained hsel =>
        have hnext := hselect s r o t hok hI hboundary hexecute
          (preserved_of_trans htrans hpath hI) hdrained hsel
        obtain ⟨_, q, hclosed, hout⟩ := selectNext_selected hsel
        have hq := hclosed.atBoundary hdrained
        cases o with
        | none =>
          refine ⟨fun _ => hnext.2 rfl, fun hlive => ?_⟩
          rw [hout.terminated] at hlive
          cases hlive
        | some _ =>
          obtain ⟨next, _, _, _, _, _, ht⟩ := hout.advance_inv
          refine ⟨fun h => ?_, fun _ => ⟨hnext.1 rfl, ?_⟩⟩
          · rw [ht] at h
            cases hq.live.symm.trans h
          · rw [ht]
            exact ⟨hq.live, hq.closed, hq.free, hq.owner, hq.ungathered⟩

/-- The induction over runs for properties of the system alone. -/
theorem Runs.sys_invariant {I J : SimSystem → Prop} (hfresh : ∀ w, I (State.fresh m w).sys)
    (hmove : ∀ s t, Move m.config s t → I s → I t) (hhalt : ∀ s t, I s → Halt m.config s t → J t)
    (hcut : ∀ s r, ok s → I s.sys → AtBoundary s.sys → commitEpoch m s = (some (), r) → I r.sys →
      AfterXfer r.sys → r.sys.traceEndProcesses ≠ [] → m.config.maxTicks ≤ r.sys.epoch.time + 1 →
      J (r.sys.incompleteAtMaxTicks m.config))
    (hselect : ∀ s r, ok s → I s.sys → AtBoundary s.sys → executeEpoch m s = (some (), r) →
      I r.sys → Drained m.config r.sys → ∀ q o t, Closed m r q → I q → Selected m.config q o t →
      (o = some () → I t) ∧ (o = none → J t)) (h : Runs m host ok s) :
    (s.sys.terminated = true → J s.sys) ∧
      (s.sys.terminated = false → I s.sys ∧ AtBoundary s.sys) := by
  have hmoves {s t : SimSystem} (hpath : ReflTransGen (Move m.config) s t) (hs : I s) : I t :=
    preserves_of_path hmove hpath hs
  refine Runs.invariant (I := fun s => I s.sys) (J := fun s => J s.sys) (fun w _ => hfresh w)
    ?_ ?_ ?_ ?_ ?_ hcut ?_ h
  · exact fun s t hst hs => hmoves hst.moves hs
  · exact fun s b _ _ hs => hmoves (moves_of_calls (Body.exec_calls _ _ _)) hs
  · intro s b _ hterm hs
    have hsys : (hostCall m b s).sys = s.sys :=
      eq_of_calls_of_terminated (c := m.config) (Body.exec_calls _ _ _) hterm
    rw [hsys]
    exact hs
  · exact fun s hs _ hterm => hhalt s.sys s.sys hs (.returned _ hterm)
  · exact fun _ r t _ _ _ _ hr ht => hhalt r.sys t.sys hr ht.halt
  · intro s r o t hok hs hboundary hexecute hr hdrained hsel
    obtain ⟨_, q, hclosed, hout⟩ := selectNext_selected hsel
    have hq : I q := by
      have hclose := hmove _ _ hdrained.close hr
      cases hclosed with
      | plain => exact hclose
      | refreshed =>
        exact hmove _ _ (.note _ _ _ _ _ _ _ _ hdrained.position.live rfl rfl rfl) hclose
    exact hselect s r hok hs hboundary hexecute hr hdrained q o t.sys hclosed hq hout

end run

end AgenticCircuit.Gfsim
