import AgenticCircuit.Gfsim.Run

/-! # Stepping a generated model tick by tick

A generated model has two drivers.  `Model::run` is `SimSystem::run`; `Model::stepTick` advances the
model by one tick, after scheduling the processes at its first call.  The two take the same steps
from the same schedule; what remains is that `run` also starts the trace sources, and refreshes the
summary of the trace after the last step.

* **`StepsAsRun`** is their agreement: calling `stepTick` until it returns false ends when `run`
  does, with the same outcomes.
* **`Drives`** is the sequence of steps both drivers take (`stepsTo_iff`, `runsTo_iff`).
* **`Synced`**: the step that ends a run leaves a result that is up to date, except for the summary
  of the trace (`outcome_finishRun`). -/

namespace AgenticCircuit.Gfsim

open State

open Relation (ReflTransGen)

/-! ### The drivers -/

section drivers

variable {W : Type} (m : Model W)

/-- The IDs of the processes among the rows of the dispatch table. -/
def processIds : List ObjectId :=
  (m.config.dispatch.filter fun p => (m.config.info p).kind = .process).map fun p =>
    (m.config.info p).id

/-- The first call of `stepTick` schedules the processes; a refusal ends the call. -/
def scheduleProcesses (start : Epoch) : List ObjectId → State W → Bool × State W
  | [], s => (true, s)
  | id :: ids, s =>
    let r := s.sys.scheduleWork m.config .host id start
    if r.2 then scheduleProcesses start ids { s with sys := r.1 }
    else (false, { s with sys := r.1 })

/-- The loop of `stepTick`: step until time moves on or the run ends.  `none` is a loop that
has not ended within the given number of steps. -/
def stepLoop (start : ℕ) : ℕ → State W → Option (Bool × State W)
  | 0, _ => none
  | fuel + 1, s =>
    let r := step m s
    if r.1.isNone && decide (r.2.sys.epoch.time = start) then some (false, r.2)
    else if !r.2.sys.terminated && decide (r.2.sys.epoch.time = start) then
      stepLoop start fuel r.2
    else some (!r.2.sys.terminated, r.2)

/-- A generated model between two calls of its host. -/
structure Stepper (W : Type) where
  state : State W
  steppingStarted : Bool := false

/-- `Model::stepTick` of a model without host ports. -/
def stepTick (fuel : ℕ) (x : Stepper W) : Option (Bool × Stepper W) :=
  if x.state.sys.terminated then some (false, x)
  else
    let start := x.state.sys.epoch
    let r := if x.steppingStarted then (true, x.state)
      else scheduleProcesses m start (processIds m) x.state
    if !r.1 then some (false, { x with state := r.2 })
    else (stepLoop m start.time fuel r.2).map fun q => (q.1, ⟨q.2, true⟩)

/-- The host calls `stepTick` until it returns false, at most `fuel` times. -/
def stepTicks (fuel : ℕ) : ℕ → Stepper W → Option (Stepper W)
  | 0, _ => none
  | calls + 1, x =>
    match stepTick m fuel x with
    | none => none
    | some (false, y) => some y
    | some (true, y) => stepTicks fuel calls y

/-- What a host can see of a finished run.  Statistics are collected from the objects. -/
structure Outcome (W : Type) where
  world : W
  observations : List CommittedEvent
  result : TerminationResult

def State.outcome (s : State W) : Outcome W where
  world := s.world
  observations := s.sys.observations.committed
  result := s.sys.result

/-- `stepTick` from a fresh model ends with this outcome. -/
def StepsTo (w : W) (out : Outcome W) : Prop :=
  ∃ fuel calls x, stepTicks m fuel calls ⟨fresh m w, false⟩ = some x ∧
    x.state.outcome = out

/-- `run` from a fresh model ends with this outcome. -/
def RunsTo (w : W) (out : Outcome W) : Prop :=
  ∃ bound, (runSteps m bound (startRun m (fresh m w))).sys.terminated = true ∧
    (run m bound (fresh m w)).outcome = out

/-- The two drivers end in the same way, or neither ends. -/
def StepsAsRun (w : W) : Prop := ∀ out, StepsTo m w out ↔ RunsTo m w out

end drivers

/-! ### The steps of a run -/

section drives

variable {W : Type} {m : Model W} {s t r : State W}

/-- The steps from `s` end the run in `t`. -/
inductive Drives (m : Model W) : State W → State W → Prop
  | last {s t : State W} (h : step m s = (none, t)) : Drives m s t
  | next {s r t : State W} (h : step m s = (some (), r)) (hrest : Drives m r t) : Drives m s t

variable {fuel start : ℕ}

theorem step_some_atBoundary (hs : AtBoundary s.sys) (h : step m s = (some (), t)) :
    AtBoundary t.sys := by
  obtain ⟨r, q, next, isEvent, _, _, hdrained, hclosed, _, _, _, _, rfl⟩ := step_some hs h
  have hq := hclosed.atBoundary hdrained
  exact ⟨hq.live, hq.closed, hq.free, hq.owner, hq.ungathered⟩

theorem step_dichotomy (hs : AtBoundary s.sys) :
    (∃ t, step m s = (none, t) ∧ t.sys.terminated = true) ∨
      ∃ r, step m s = (some (), r) ∧ AtBoundary r.sys := by
  rcases h : step m s with ⟨_ | _, t⟩
  · exact .inl ⟨t, rfl, step_none_terminated hs h⟩
  · exact .inr ⟨t, rfl, step_some_atBoundary hs h⟩

theorem Drives.terminated (hs : AtBoundary s.sys) (h : Drives m s t) : t.sys.terminated = true := by
  induction h with
  | last h => exact step_none_terminated hs h
  | next h _ ih => exact ih (step_some_atBoundary hs h)

theorem Drives.unique {t' : State W} (h : Drives m s t) (h' : Drives m s t') : t = t' := by
  induction h with
  | last h =>
    cases h' with
    | last h' => exact congrArg Prod.snd (h.symm.trans h')
    | next h' => exact absurd (congrArg Prod.fst (h.symm.trans h')) (by simp)
  | next h _ ih =>
    cases h' with
    | last h' => exact absurd (congrArg Prod.fst (h.symm.trans h')) (by simp)
    | next h' hrest =>
      obtain ⟨_, rfl⟩ := Prod.mk.inj (h.symm.trans h')
      exact ih hrest

theorem drives_of_runSteps {bound : ℕ} (hs : AtBoundary s.sys)
    (h : (runSteps m bound s).sys.terminated = true) : Drives m s (runSteps m bound s) := by
  induction bound generalizing s with
  | zero => exact absurd h (by rw [runSteps, hs.live]; decide)
  | succ bound ih =>
    rcases step_dichotomy (m := m) hs with ⟨t, hstep, _⟩ | ⟨r, hstep, hr⟩
    · have heq : runSteps m (bound + 1) s = t := by rw [runSteps, hstep]
      rw [heq]
      exact .last hstep
    · have heq : runSteps m (bound + 1) s = runSteps m bound r := by rw [runSteps, hstep]
      rw [heq] at h ⊢
      exact .next hstep (ih hr h)

theorem Drives.exists_runSteps (h : Drives m s t) : ∃ bound, runSteps m bound s = t := by
  induction h with
  | @last s t h => exact ⟨1, by rw [runSteps, h]⟩
  | @next s r t h _ ih =>
    obtain ⟨bound, ih⟩ := ih
    exact ⟨bound + 1, by rw [runSteps, h, ← ih]⟩

/-! ### The steps of `stepTick` -/

/-- A loop of `stepTick` ends the run, or stops at a later tick of the same run. -/
theorem stepLoop_drives {goesOn : Bool} (hs : AtBoundary s.sys)
    (h : stepLoop m start fuel s = some (goesOn, t)) : goesOn = false ∧ Drives m s t ∨
      goesOn = true ∧ AtBoundary t.sys ∧ ∀ u, Drives m t u → Drives m s u := by
  induction fuel generalizing s with
  | zero => cases h
  | succ fuel ih =>
    rcases step_dichotomy (m := m) hs with ⟨q, hstep, hterm⟩ | ⟨q, hstep, hq⟩
    · have heq : stepLoop m start (fuel + 1) s = some (false, q) := by
        simp [stepLoop, hstep, hterm]
      obtain ⟨rfl, rfl⟩ := Prod.mk.inj (Option.some.inj (heq.symm.trans h))
      exact .inl ⟨rfl, .last hstep⟩
    · by_cases htime : q.sys.epoch.time = start
      · have heq : stepLoop m start (fuel + 1) s = stepLoop m start fuel q := by
          simp [stepLoop, hstep, hq.live, htime]
        rcases ih hq (heq.symm.trans h) with ⟨hend, hdrives⟩ | ⟨hon, hboundary, hdrives⟩
        · exact .inl ⟨hend, .next hstep hdrives⟩
        · exact .inr ⟨hon, hboundary, fun u hu => .next hstep (hdrives u hu)⟩
      · have heq : stepLoop m start (fuel + 1) s = some (true, q) := by
          simp [stepLoop, hstep, hq.live, htime]
        obtain ⟨rfl, rfl⟩ := Prod.mk.inj (Option.some.inj (heq.symm.trans h))
        exact .inr ⟨rfl, hq, fun u hu => .next hstep hu⟩

theorem stepLoop_mono {x : Bool × State W} (h : stepLoop m start fuel s = some x) :
    stepLoop m start (fuel + 1) s = some x := by
  induction fuel generalizing s with
  | zero => cases h
  | succ fuel ih =>
    rw [stepLoop] at h ⊢
    split at h
    · rename_i hstop
      rw [if_pos hstop]
      exact h
    rename_i hstop
    rw [if_neg hstop]
    split at h
    · rename_i hgo
      rw [if_pos hgo]
      exact ih h
    · rename_i hgo
      rw [if_neg hgo]
      exact h

theorem stepTick_started (hs : s.sys.terminated = false) : stepTick m fuel ⟨s, true⟩ =
      (stepLoop m s.sys.epoch.time fuel s).map fun q => (q.1, ⟨q.2, true⟩) := by
  simp [stepTick, hs]

theorem stepTicks_drives {calls : ℕ} {x : Stepper W} (hs : AtBoundary s.sys)
    (h : stepTicks m fuel calls ⟨s, true⟩ = some x) : Drives m s x.state := by
  induction calls generalizing s with
  | zero => cases h
  | succ calls ih =>
    rw [stepTicks, stepTick_started hs.live] at h
    cases hloop : stepLoop m s.sys.epoch.time fuel s with
    | none => simp [hloop] at h
    | some q =>
      obtain ⟨goesOn, q⟩ := q
      rcases stepLoop_drives hs hloop with ⟨rfl, hdrives⟩ | ⟨rfl, hq, hdrives⟩
      · simp only [hloop, Option.map_some, Option.some.injEq] at h
        rw [← h]
        exact hdrives
      · simp only [hloop] at h
        exact hdrives _ (ih hq h)

theorem Drives.exists_stepTicks (hs : AtBoundary s.sys) (h : Drives m s t) :
    ∃ n, ∀ fuel calls, n ≤ fuel → n ≤ calls →
      stepTicks m fuel calls ⟨s, true⟩ = some ⟨t, true⟩ := by
  induction h with
  | @last s t hstep =>
    refine ⟨1, fun fuel calls hfuel hcalls => ?_⟩
    obtain ⟨fuel, rfl⟩ := Nat.exists_eq_add_of_le' hfuel
    obtain ⟨calls, rfl⟩ := Nat.exists_eq_add_of_le' hcalls
    have hterm := step_none_terminated hs hstep
    have hloop : stepLoop m s.sys.epoch.time (fuel + 1) s = some (false, t) := by
      simp [stepLoop, hstep, hterm]
    rw [stepTicks, stepTick_started hs.live, hloop]
    rfl
  | @next s r t hstep _ ih =>
    have hr := step_some_atBoundary hs hstep
    obtain ⟨n, ih⟩ := ih hr
    refine ⟨n + 1, fun fuel calls hfuel hcalls => ?_⟩
    obtain ⟨fuel, rfl⟩ := Nat.exists_eq_add_of_le' (Nat.one_le_of_lt hfuel)
    obtain ⟨calls, rfl⟩ := Nat.exists_eq_add_of_le' (Nat.one_le_of_lt hcalls)
    by_cases htime : r.sys.epoch.time = s.sys.epoch.time
    · -- the tick goes on: its loop from `s` is its loop from `r`
      have hloop : stepLoop m s.sys.epoch.time (fuel + 1) s =
          stepLoop m r.sys.epoch.time fuel r := by
        simp [stepLoop, hstep, hr.live, htime]
      have hshort := ih fuel (calls + 1) (by omega) (by omega)
      have hlong := ih (fuel + 1) (calls + 1) (by omega) (by omega)
      rw [stepTicks, stepTick_started hr.live] at hshort hlong
      rw [stepTicks, stepTick_started hs.live, hloop]
      cases hrest : stepLoop m r.sys.epoch.time fuel r with
      | none => simp [hrest] at hshort
      | some q =>
        rw [stepLoop_mono hrest] at hlong
        exact hlong
    · have hloop : stepLoop m s.sys.epoch.time (fuel + 1) s = some (true, r) := by
        simp [stepLoop, hstep, hr.live, htime]
      rw [stepTicks, stepTick_started hs.live, hloop]
      exact ih (fuel + 1) calls (by omega) (by omega)

end drives

/-! ### From the same start -/

section start

variable {W : Type} {m : Model W}

/-- The system with the given objects on the schedule of the first epoch. -/
def SimSystem.startAll (ids : List ObjectId) (s : SimSystem) : SimSystem :=
  ids.foldl (fun s id => s.insertWork .host id ⟨0, 0⟩) s

variable {s : SimSystem} {ids : List ObjectId} {w : W}

theorem startAll_control (ids : List ObjectId) (s : SimSystem) :
    (s.startAll ids).control = s.control := by
  induction ids generalizing s with
  | nil => rfl
  | cons id ids ih => exact (ih _).trans rfl

theorem scheduleWork_of_lookup {c : Config} {id : ObjectId} (hs : AtBoundary s)
    (hepoch : s.epoch = ⟨0, 0⟩) (h : (c.lookup id).isSome = true) :
    s.scheduleWork c .host id ⟨0, 0⟩ = (s.insertWork .host id ⟨0, 0⟩, true) := by
  have hlt : ¬ (⟨0, 0⟩ : Epoch) < s.epoch := by
    rw [hepoch]
    exact lt_irrefl _
  have hnone : (c.lookup id).isNone = false := by
    rw [← Option.not_isSome, h]
    rfl
  simp [SimSystem.scheduleWork, hs.live, hlt, hnone, hs.closed, kMaxDeltasPerTick]

theorem scheduleProcesses_eq {s : State W} (hs : AtBoundary s.sys) (hepoch : s.sys.epoch = ⟨0, 0⟩)
    (h : ∀ id ∈ ids, (m.config.lookup id).isSome = true) :
    scheduleProcesses m ⟨0, 0⟩ ids s = (true, { s with sys := s.sys.startAll ids }) := by
  induction ids generalizing s with
  | nil => rfl
  | cons id ids ih =>
    have hnext : AtBoundary (s.sys.insertWork .host id ⟨0, 0⟩) :=
      ⟨hs.live, hs.closed, hs.free, hs.owner, hs.ungathered⟩
    rw [scheduleProcesses, scheduleWork_of_lookup hs hepoch (h id List.mem_cons_self)]
    exact ih (s := ⟨s.sys.insertWork .host id ⟨0, 0⟩, s.world⟩) hnext hepoch
      fun id' hid' => h id' (List.mem_cons_of_mem _ hid')

theorem foldl_scheduleWork_eq (hs : AtBoundary s) (hepoch : s.epoch = ⟨0, 0⟩)
    (h : ∀ id ∈ ids, (m.config.lookup id).isSome = true) :
    ids.foldl (fun sys id => (sys.scheduleWork m.config .host id ⟨0, 0⟩).1) s =
      s.startAll ids := by
  induction ids generalizing s with
  | nil => rfl
  | cons id ids ih =>
    have hnext : AtBoundary (s.insertWork .host id ⟨0, 0⟩) :=
      ⟨hs.live, hs.closed, hs.free, hs.owner, hs.ungathered⟩
    rw [List.foldl_cons, scheduleWork_of_lookup hs hepoch (h id List.mem_cons_self)]
    exact ih hnext hepoch fun id' hid' => h id' (List.mem_cons_of_mem _ hid')

/-- The IDs `run` starts: processes and trace sources. -/
def starterIds (m : Model W) : List ObjectId :=
  (m.config.runtimeObjects.filter fun p => (m.config.info p).kind = .process ||
    (m.config.info p).kind = .traceSource).map fun p => (m.config.info p).id

theorem startRun_eq (h : ∀ id ∈ starterIds m, (m.config.lookup id).isSome = true) :
    startRun m (fresh m w) = ⟨(fresh m w).sys.startAll (starterIds m), w⟩ := by
  have hfresh : AtBoundary (fresh m w).sys := ⟨rfl, rfl, rfl, rfl, rfl⟩
  rw [← foldl_scheduleWork_eq hfresh rfl h, starterIds, List.foldl_map]
  rfl

theorem atBoundary_startAll (w : W) (ids : List ObjectId) :
    AtBoundary ((fresh m w).sys.startAll ids) :=
  atBoundary_of_control (startAll_control ids _) ⟨rfl, rfl, rfl, rfl, rfl⟩

theorem stepsTo_iff (h : ∀ id ∈ processIds m, (m.config.lookup id).isSome = true)
    (out : Outcome W) : StepsTo m w out ↔
      ∃ t, Drives m ⟨(fresh m w).sys.startAll (processIds m), w⟩ t ∧ t.outcome = out := by
  have hboundary := atBoundary_startAll (m := m) w (processIds m)
  have hfirst : ∀ fuel, stepTick m fuel ⟨fresh m w, false⟩ =
      stepTick m fuel ⟨⟨(fresh m w).sys.startAll (processIds m), w⟩, true⟩ := by
    intro fuel
    have hsched : scheduleProcesses m ⟨0, 0⟩ (processIds m) (fresh m w) = _ :=
      scheduleProcesses_eq ⟨rfl, rfl, rfl, rfl, rfl⟩ rfl h
    have hepoch : ((fresh m w).sys.startAll (processIds m)).epoch = ⟨0, 0⟩ :=
      congrArg Control.epoch (startAll_control _ _)
    rw [stepTick_started hboundary.live, hepoch]
    have hlive : (fresh m w).sys.terminated = false := rfl
    have hzero : (fresh m w).sys.epoch = ⟨0, 0⟩ := rfl
    simp only [stepTick, hzero, hsched]
    rfl
  constructor
  · rintro ⟨fuel, calls, x, hx, rfl⟩
    cases calls with
    | zero => cases hx
    | succ calls =>
      have hfrom : stepTicks m fuel (calls + 1)
          ⟨⟨(fresh m w).sys.startAll (processIds m), w⟩, true⟩ = some x := by
        rw [stepTicks, hfirst] at hx
        exact hx
      exact ⟨x.state, stepTicks_drives hboundary hfrom, rfl⟩
  · rintro ⟨t, hdrives, rfl⟩
    obtain ⟨n, hn⟩ := hdrives.exists_stepTicks hboundary
    refine ⟨n + 1, n + 1, ⟨t, true⟩, ?_, rfl⟩
    have hticks := hn (n + 1) (n + 1) (Nat.le_succ n) (Nat.le_succ n)
    rw [stepTicks, hfirst]
    exact hticks

theorem runsTo_iff (h : ∀ id ∈ starterIds m, (m.config.lookup id).isSome = true) (out : Outcome W) :
    RunsTo m w out ↔ ∃ t, Drives m ⟨(fresh m w).sys.startAll (starterIds m), w⟩ t ∧
        (finishRun m t).outcome = out := by
  have hboundary := atBoundary_startAll (m := m) w (starterIds m)
  unfold RunsTo run
  rw [startRun_eq h]
  constructor
  · rintro ⟨bound, hterm, rfl⟩
    exact ⟨_, drives_of_runSteps hboundary hterm, rfl⟩
  · rintro ⟨t, hdrives, rfl⟩
    obtain ⟨bound, hbound⟩ := hdrives.exists_runSteps
    refine ⟨bound, ?_, ?_⟩
    · rw [hbound]
      exact hdrives.terminated hboundary
    · rw [hbound]

end start

/-! ### The result at the end of a run -/

/-- The result shows where the system stands. -/
structure Synced (s : SimSystem) : Prop where
  finalEpoch : s.result.finalEpoch = s.epoch
  committedEventCount : s.result.committedEventCount = s.committedEventCount
  domainCycles : s.result.domainCycles = s.domainCycles

section synced

variable {c : Config} {s t : SimSystem}

theorem Move.synced (h : Move c s t) (ht : t.terminated = true) : Synced t := by
  have hlive := h.live
  cases h with
  | call h =>
    cases h with
    | fail => exact ⟨rfl, rfl, rfl⟩
    | _ => cases hlive.symm.trans ht
  | commitEvents =>
    unfold SimSystem.commitEvents at ht
    split at ht <;> cases hlive.symm.trans ht
  | _ => cases hlive.symm.trans ht

theorem synced_of_moves (h : ReflTransGen (Move c) s t) (hs : s.terminated = false)
    (ht : t.terminated = true) : Synced t := by
  cases h with
  | refl => cases hs.symm.trans ht
  | tail _ hlast => exact hlast.synced ht

theorem Halt.synced (h : Halt c s t) (hs : s.terminated = true → Synced s) : Synced t := by
  cases h with
  | returned owner hterm => exact ⟨(hs hterm).1, (hs hterm).2, (hs hterm).3⟩
  | returnedXfer committed hterm =>
    cases committed with
    | false => exact hs hterm
    | true => exact ⟨(hs hterm).1, (hs hterm).2, (hs hterm).3⟩
  | failed | stale | capped | maxTicks => exact ⟨rfl, rfl, rfl⟩

theorem Selected.synced (h : Selected c s none t) : Synced t := by
  cases h with
  | exhausted _ h =>
    cases h with
    | classified _ h => cases h <;> exact ⟨rfl, rfl, rfl⟩
    | _ => exact ⟨rfl, rfl, rfl⟩
  | _ => exact ⟨rfl, rfl, rfl⟩

end synced

variable {W : Type} {m : Model W} {s t : State W}

theorem step_none_synced (hs : AtBoundary s.sys) (h : step m s = (none, t)) : Synced t.sys := by
  have hcase := step_cases (m := m) hs
  rw [h] at hcase
  cases hcase with
  | halts hpath hhalt =>
    exact hhalt.halt.synced fun hterm => synced_of_moves (moves_of_trans hpath) hs.live hterm
  | cut => exact ⟨rfl, rfl, rfl⟩
  | selects _ _ _ hsel =>
    obtain ⟨_, q, _, hout⟩ := selectNext_selected hsel
    exact hout.synced

theorem Drives.synced (hs : AtBoundary s.sys) (h : Drives m s t) : Synced t.sys := by
  induction h with
  | last h => exact step_none_synced hs h
  | next h _ ih => exact ih (step_some_atBoundary hs h)

theorem outcome_finishRun (h : Synced t.sys)
    (hposition : (noProgressOf m t).tracePosition = t.sys.result.tracePosition)
    (hlast : (noProgressOf m t).lastCommittedSequenceId = t.sys.result.traceLastCommittedSequenceId) :
    (finishRun m t).outcome = t.outcome := by
  have hresult : { t.sys.result with
      finalEpoch := t.sys.epoch, committedEventCount := t.sys.committedEventCount,
      domainCycles := t.sys.domainCycles, tracePosition := (noProgressOf m t).tracePosition,
      traceLastCommittedSequenceId := (noProgressOf m t).lastCommittedSequenceId } =
      t.sys.result := by
    rw [← h.1, ← h.2, ← h.3, hposition, hlast]
  exact congrArg (Outcome.mk t.world t.sys.observations.committed) hresult

end AgenticCircuit.Gfsim
