import AgenticCircuit.Gfsim.Process

/-! # The process state machine

The calls of `ProcessRuntime` in any order, from its construction.

* **Barrier.**  The committed point changes at Xfer, at a reset, and where a suspended process is
  made runnable; a process that has terminated or failed stays so.
* **Wake-ups.**  A Condition or Resource subscription has the identity `0`, which stands for every
  object.  `activateFrom` takes the `0` of an EventQueue subscription for the same, although there it
  is the identity of a queue; with that exception a process is woken by what it has subscribed to,
  and by that alone when no subscription stands for every object (`behaves_iff`). -/

namespace AgenticCircuit.Gfsim

open Body

/-- What the committed and the proposed points have in common: a point is suspended exactly when it
has a subscription, and then it has a continuation. -/
structure ProcessPoint.Consistent (p : ProcessPoint) : Prop where
  wake : p.status = .suspended ↔ p.wake.isSome = true
  continuation : p.status = .suspended → p.continuationId ≠ 0

namespace ProcessRuntime

/-- `ProcessRuntime::validate`. -/
def validate (r : ProcessRuntime) : Bool :=
  if r.fairnessWork = 0 then false
  else if r.committed.status = .suspended then
    r.committed.wake.isSome && decide (r.committed.continuationId ≠ 0)
  else r.committed.wake.isNone

/-- `ProcessRuntime::reset`, which restores what the constructor set. -/
def reset (entryPc : ℕ) (r : ProcessRuntime) : ProcessRuntime :=
  construct r.id entryPc r.fairnessWork

inductive Call where
  | doWork
  | doXfer
  | wake (wake : ProcessWake) (continuationId : ℕ)
  | activateFrom (sourceId : ObjectId)
  | requestTraceEnd
  | reset
deriving DecidableEq

variable {X : Type} (executeProcessStep : ℕ → X → Body (ProcessStep × X)) (entryPc : ℕ)

/-- A call on the process, and what it leaves of the process and of everything outside.  Between the
calls the outside does what it likes. -/
inductive Step : ProcessRuntime → X → Call → ProcessRuntime → Prop
  | doWork {r : ProcessRuntime} {x y : X} {point : Option ProcessPoint}
      (h : (r.doWork executeProcessStep x).Leaf (point, y)) :
      Step r x .doWork (point.elim r r.propose)
  | doXfer {r : ProcessRuntime} {x : X} : Step r x .doXfer r.doXfer
  | wake {r : ProcessRuntime} {x : X} (wake : ProcessWake) (continuationId : ℕ) :
      Step r x (.wake wake continuationId) (r.wake wake continuationId).2
  | activateFrom {r : ProcessRuntime} {x : X} (sourceId : ObjectId) :
      Step r x (.activateFrom sourceId) (r.activateFrom sourceId).2
  | requestTraceEnd {r : ProcessRuntime} {x : X} : Step r x .requestTraceEnd r.requestTraceEnd.2
  | reset {r : ProcessRuntime} {x : X} : Step r x .reset (r.reset entryPc)

/-- The process after some calls. -/
inductive Reached (id : ObjectId) (fairnessWork : ℕ) : ProcessRuntime → Prop
  | start : Reached id fairnessWork (construct id entryPc fairnessWork)
  | step {r r' : ProcessRuntime} {x : X} {call : Call} (h : Reached id fairnessWork r)
      (hstep : Step executeProcessStep entryPc r x call r') : Reached id fairnessWork r'

/-- The call is the wake-up that the suspended process has subscribed to. -/
def Woken (r : ProcessRuntime) (wake : ProcessWake) : Call → Prop
  | .wake wake' continuationId => wake' = wake ∧ continuationId = r.committed.continuationId
  | .activateFrom sourceId => sourceId = if wake.kind = .nextDelta then r.id else wake.id
  | .requestTraceEnd => wake.kind = .nextDelta
  | .reset => True
  | _ => False

/-- The call is a wake-up of the suspended process: the one that it has subscribed to, or an
activation by any object when the subscription names none.  Nothing is said of event queue 0. -/
def Admitted (r : ProcessRuntime) (wake : ProcessWake) (call : Call) : Prop :=
  r.Woken wake call ∨
    wake.kind ∈ [.condition, .resource] ∧ wake.id = 0 ∧ (∃ sourceId, call = .activateFrom sourceId) ∨
    wake = ⟨.eventQueue, 0⟩

/-- What the state machine promises in a state, when `wakes` are the wake-ups of a suspended
process. -/
structure Behaves (wakes : ProcessRuntime → ProcessWake → Call → Prop) (r : ProcessRuntime) :
    Prop where
  valid : r.validate = true
  /-- Outside Xfer and reset the committed point stays, or a suspended process becomes runnable. -/
  barrier : ∀ x call r', Step executeProcessStep entryPc r x call r' → call ≠ .doXfer →
    call ≠ .reset → r'.committed = r.committed ∨
      r.committed.status = .suspended ∧ r'.committed = r.committed.resume
  absorbing : ∀ x call r', Step executeProcessStep entryPc r x call r' → call ≠ .reset →
    r.committed.status = .terminated ∨ r.committed.status = .failed → r'.committed = r.committed
  /-- A Work executes at most `fairnessWork` steps, whatever counts them. -/
  fair : ∀ (x y : X) point (count : X → ℕ),
    (∀ pc x step y, (executeProcessStep pc x).Leaf (step, y) → count y ≤ count x + 1) →
    (r.doWork executeProcessStep x).Leaf (point, y) → count y ≤ count x + r.fairnessWork
  /-- A Work of a runnable process proposes one point, any other none. -/
  proposes : ∀ (x y : X) point, (r.doWork executeProcessStep x).Leaf (point, y) →
    point.isSome = r.isRunnable
  woken : ∀ x call r', Step executeProcessStep entryPc r x call r' →
    r.committed.status = .suspended → r'.committed.status = .runnable →
    ∃ wake, r.committed.wake = some wake ∧ wakes r wake call

/-- The process has no subscription that every object meets. -/
def Subscribed (r : ProcessRuntime) : Prop :=
  ∀ wake, r.committed.wake = some wake →
    wake.kind ∈ [.condition, .resource, .eventQueue] → wake.id ≠ 0

/-! ### The invariant -/

structure Invariant (id : ObjectId) (fairnessWork : ℕ) (r : ProcessRuntime) : Prop where
  id : r.id = id
  fairnessWork : r.fairnessWork = fairnessWork
  committed : r.committed.Consistent
  proposed : r.pendingCommit = true → r.committed.status = .runnable ∧ r.proposed.Consistent

variable {executeProcessStep entryPc} {id : ObjectId} {fairnessWork : ℕ} {r r' : ProcessRuntime}
  {x y : X} {wakes : ProcessRuntime → ProcessWake → Call → Prop} {call : Call}

theorem consistent_fail (p : ProcessPoint) (diagnostic : String) (h : diagnostic ≠ "") :
    (p.fail diagnostic h).Consistent := ⟨by simp [ProcessPoint.fail], nofun⟩

theorem consistent_terminated (pc : ℕ) :
    ({ pc := pc, status := .terminated } : ProcessPoint).Consistent := ⟨by simp, nofun⟩

theorem workLoop_spec {count : X → ℕ}
    (hcount : ∀ pc x step y, (executeProcessStep pc x).Leaf (step, y) → count y ≤ count x + 1)
    {proposed point : ProcessPoint} : ∀ {n pc : ℕ} {x : X},
    (workLoop executeProcessStep proposed n pc x).Leaf (point, y) →
      point.Consistent ∧ count y ≤ count x + n := by
  intro n
  induction n with
  | zero =>
    intro pc x hleaf
    cases leaf_done.mp hleaf
    exact ⟨consistent_fail _ _ _, le_rfl⟩
  | succ n ih =>
    intro pc x hleaf
    obtain ⟨⟨step, z⟩, hexec, hleaf⟩ := (leaf_bind _).mp hleaf
    have hz := hcount pc x step z hexec
    dsimp only at hleaf
    split at hleaf
    · obtain ⟨hpoint, hle⟩ := ih hleaf
      exact ⟨hpoint, by omega⟩
    · split at hleaf
      · cases leaf_pure.mp hleaf
        exact ⟨consistent_fail _ _ _, by omega⟩
      · next hwake =>
        cases leaf_pure.mp hleaf
        simp only [Bool.or_eq_true, decide_eq_true_eq, not_or, Option.isNone_iff_eq_none] at hwake
        exact ⟨⟨by simp [Option.isSome_iff_ne_none, hwake.1], fun _ => hwake.2⟩, by omega⟩
    · cases leaf_pure.mp hleaf
      exact ⟨consistent_terminated _, by omega⟩
    · split at hleaf <;> cases leaf_pure.mp hleaf
      all_goals exact ⟨consistent_fail _ _ _, by omega⟩

theorem doWork_spec (count : X → ℕ)
    (hcount : ∀ pc x step y, (executeProcessStep pc x).Leaf (step, y) → count y ≤ count x + 1)
    {point : Option ProcessPoint} (h : (r.doWork executeProcessStep x).Leaf (point, y)) :
    point.isSome = r.isRunnable ∧ (∀ p ∈ point, p.Consistent) ∧
      count y ≤ count x + r.fairnessWork := by
  unfold doWork at h
  split at h
  · next hidle =>
    cases leaf_done.mp h
    refine ⟨?_, nofun, by omega⟩
    rw [isRunnable]
    simp only [Bool.or_eq_true, decide_eq_true_eq] at hidle
    obtain hidle | hidle := hidle <;> simp [hidle]
  next hrunnable =>
  have hrun : r.isRunnable = true := by
    simpa [isRunnable] using hrunnable
  split at h
  · cases leaf_done.mp h
    refine ⟨hrun.symm, ?_, by omega⟩
    rintro p ⟨⟩
    exact consistent_terminated _
  · obtain ⟨⟨point, z⟩, hloop, h⟩ := (leaf_bind _).mp h
    cases leaf_pure.mp h
    obtain ⟨hpoint, hle⟩ := workLoop_spec hcount hloop
    refine ⟨hrun.symm, ?_, hle⟩
    rintro p ⟨⟩
    exact hpoint

theorem woken_of_met {wake : ProcessWake} {sourceId : ObjectId}
    (h : wake.isMetBy r.id sourceId = true) : r.Woken wake (.activateFrom sourceId) ∨
      wake.id = 0 ∧ wake.kind ∈ [.condition, .resource, .eventQueue] := by
  obtain ⟨kind, wakeId⟩ := wake
  cases kind <;> simp only [ProcessWake.isMetBy, Bool.or_eq_true, decide_eq_true_eq] at h
  case nextDelta => exact .inl h
  case queueReadable => exact .inl h.symm
  case queueWritable => exact .inl h.symm
  all_goals
    obtain h | h := h
    · exact .inr ⟨h, by simp⟩
    · exact .inl h.symm

/-- What a call can do to the process. -/
theorem Step.cases (h : Step executeProcessStep entryPc r x call r') : r' = r ∨
    (call = .doWork ∧ ∃ p : ProcessPoint, p.Consistent ∧ r.isRunnable = true ∧ r' = r.propose p) ∨
    (call = .doXfer ∧ r.pendingCommit = true ∧ r' = r.doXfer) ∨
    (∃ wake traceEndRequested, r.committed.status = .suspended ∧ r.committed.wake = some wake ∧
      r' = { r.resume with traceEndRequested := traceEndRequested } ∧ (r.Woken wake call ∨
        wake.id = 0 ∧ wake.kind ∈ [.condition, .resource, .eventQueue] ∧
          ∃ sourceId, call = .activateFrom sourceId)) ∨
    call = .reset ∧ r' = r.reset entryPc := by
  cases h with
  | @doWork _ point h =>
    obtain ⟨hrunnable, hpoint, -⟩ := doWork_spec (fun _ => 0) (by simp) h
    cases point with
    | none => exact .inl rfl
    | some p => exact .inr (.inl ⟨rfl, p, hpoint p rfl, hrunnable.symm, rfl⟩)
  | doXfer =>
    cases hpending : r.pendingCommit with
    | false => exact .inl (by simp [ProcessRuntime.doXfer, hpending])
    | true => exact .inr (.inr (.inl ⟨rfl, rfl, rfl⟩))
  | wake wake continuationId =>
    unfold ProcessRuntime.wake
    split
    · exact .inl rfl
    · next hwake =>
      simp only [Bool.or_eq_true, decide_eq_true_eq, not_or, not_not] at hwake
      exact .inr (.inr (.inr (.inl ⟨wake, _, hwake.1.1, hwake.1.2, rfl, .inl ⟨rfl, hwake.2.symm⟩⟩)))
  | activateFrom sourceId =>
    unfold ProcessRuntime.activateFrom
    split
    · exact .inl rfl
    split
    · exact .inl rfl
    next hsuspended =>
    split
    · exact .inl rfl
    next wake hwake =>
    split
    · next hmet =>
      exact .inr (.inr (.inr (.inl ⟨wake, _, not_not.mp hsuspended, hwake, rfl,
        (woken_of_met hmet).imp_right fun h => ⟨h.1, h.2, sourceId, rfl⟩⟩)))
    · exact .inl rfl
  | requestTraceEnd =>
    unfold ProcessRuntime.requestTraceEnd
    split
    · exact .inl rfl
    · next hend =>
      simp only [Bool.or_eq_true, decide_eq_true_eq, not_or, not_not, Bool.not_eq_true',
        Bool.not_eq_false, Option.any_eq_true] at hend
      obtain ⟨⟨-, hsuspended⟩, wake, hwake, hkind⟩ := hend
      exact .inr (.inr (.inr (.inl ⟨wake, true, hsuspended, hwake, rfl, .inl hkind⟩)))
  | reset => exact .inr (.inr (.inr (.inr ⟨rfl, rfl⟩)))

theorem Invariant.start : Invariant id fairnessWork (construct id entryPc fairnessWork) :=
  ⟨rfl, rfl, ⟨by simp [construct], nofun⟩, nofun⟩

theorem Invariant.step (h : Invariant id fairnessWork r)
    (hstep : Step executeProcessStep entryPc r x call r') : Invariant id fairnessWork r' := by
  obtain rfl | ⟨-, p, hp, hrunnable, rfl⟩ | ⟨-, hpending, rfl⟩ | ⟨wake, b, -, -, rfl, -⟩ | ⟨-, rfl⟩ :=
    hstep.cases
  · exact h
  · rw [isRunnable, Bool.and_eq_true, decide_eq_true_eq] at hrunnable
    exact ⟨h.id, h.fairnessWork, h.committed, fun _ => ⟨hrunnable.1, hp⟩⟩
  · rw [ProcessRuntime.doXfer]
    simp only [hpending]
    exact ⟨h.id, h.fairnessWork, (h.proposed hpending).2, by simp⟩
  · exact ⟨h.id, h.fairnessWork, ⟨by simp [resume, ProcessPoint.resume], by simp [resume, ProcessPoint.resume]⟩,
      fun hpending => ⟨rfl, (h.proposed hpending).2⟩⟩
  · rw [← h.id, ← h.fairnessWork]
    exact .start

theorem Reached.invariant (h : Reached executeProcessStep entryPc id fairnessWork r) :
    Invariant id fairnessWork r := by
  induction h with
  | start => exact .start
  | step _ hstep ih => exact ih.step hstep

theorem Invariant.validate (h : Invariant id fairnessWork r) (hne : fairnessWork ≠ 0) :
    r.validate = true := by
  rw [ProcessRuntime.validate, h.fairnessWork, if_neg hne]
  split
  · next hsuspended =>
    simp [h.committed.wake.mp hsuspended, h.committed.continuation hsuspended]
  · next hsuspended =>
    simpa [h.committed.wake] using hsuspended

theorem Behaves.subscribed (h : Behaves executeProcessStep entryPc Woken r) (x : X)
    (hcommitted : r.committed.Consistent) : r.Subscribed := by
  intro wake hwake hkind hid
  have hsuspended : r.committed.status = .suspended := hcommitted.wake.mpr (by rw [hwake]; rfl)
  obtain ⟨wake', hwake', hwoken⟩ := h.woken x (.activateFrom 1) _ (.activateFrom 1) hsuspended (by
    rw [ProcessRuntime.activateFrom, hsuspended, hwake]
    cases hk : wake.kind <;> simp_all [ProcessWake.isMetBy, resume, ProcessPoint.resume])
  rw [hwake] at hwake'
  obtain rfl := Option.some.inj hwake'
  change 1 = if wake.kind = .nextDelta then r.id else wake.id at hwoken
  split at hwoken
  · next hk => simp [hk] at hkind
  · simp [hid] at hwoken

/-- A suspended process is made runnable by a wake-up. -/
theorem Invariant.woken (hinv : Invariant id fairnessWork r)
    (hstep : Step executeProcessStep entryPc r x call r') (hs : r.committed.status = .suspended)
    (hr : r'.committed.status = .runnable) : ∃ wake, r.committed.wake = some wake ∧
      (r.Woken wake call ∨ wake.id = 0 ∧ wake.kind ∈ [.condition, .resource, .eventQueue] ∧
        ∃ sourceId, call = .activateFrom sourceId) := by
  obtain rfl | ⟨-, p, -, hrunnable, rfl⟩ | ⟨-, hpending, -⟩ |
    ⟨wake, b, -, hwake, -, hwoken⟩ | ⟨hcall, -⟩ := hstep.cases
  · rw [hs] at hr
    cases hr
  · simp [isRunnable, hs] at hrunnable
  · simp [(hinv.proposed hpending).1] at hs
  · exact ⟨wake, hwake, hwoken⟩
  · obtain ⟨wake, hwake⟩ := Option.isSome_iff_exists.mp (hinv.committed.wake.mp hs)
    exact ⟨wake, hwake, .inl (hcall ▸ trivial)⟩

/-- What does not depend on the wake-ups. -/
theorem Invariant.behaves (hinv : Invariant id fairnessWork r) (hne : fairnessWork ≠ 0)
    (hwoken : ∀ x call r', Step executeProcessStep entryPc r x call r' →
      r.committed.status = .suspended → r'.committed.status = .runnable →
      ∃ wake, r.committed.wake = some wake ∧ wakes r wake call) :
    Behaves executeProcessStep entryPc wakes r := by
  refine ⟨hinv.validate hne, ?_, ?_, ?_, ?_, hwoken⟩
  · intro y call r' hstep hxfer hreset
    obtain rfl | ⟨-, p, -, -, rfl⟩ | ⟨hcall, -⟩ | ⟨wake, b, hs, -, rfl, -⟩ | ⟨hcall, -⟩ := hstep.cases
    · exact .inl rfl
    · exact .inl rfl
    · exact absurd hcall hxfer
    · exact .inr ⟨hs, rfl⟩
    · exact absurd hcall hreset
  · intro y call r' hstep hreset hend
    obtain rfl | ⟨-, p, -, -, rfl⟩ | ⟨-, hpending, -⟩ | ⟨wake, b, hs, -, -⟩ | ⟨hcall, -⟩ := hstep.cases
    · rfl
    · rfl
    · simp [(hinv.proposed hpending).1] at hend
    · simp [hs] at hend
    · exact absurd hcall hreset
  · intro y z point count hcount hleaf
    exact (doWork_spec count hcount hleaf).2.2
  · intro y z point hleaf
    exact (doWork_spec (fun _ => 0) (by simp) hleaf).1

theorem Behaves.fairnessWork_ne
    (h : Behaves executeProcessStep entryPc wakes r) (hinv : Invariant id fairnessWork r) :
    fairnessWork ≠ 0 := by
  rintro rfl
  simpa [ProcessRuntime.validate, hinv.fairnessWork] using h.valid

/-- A state that the calls can reach keeps the promises exactly when the fairness bound is not
zero.  That only its own subscription wakes the process needs besides that it is not suspended on an
identity that every object meets. -/
theorem behaves_iff (h : Reached executeProcessStep entryPc id fairnessWork r) (x : X) :
    (Behaves executeProcessStep entryPc Admitted r ↔ fairnessWork ≠ 0) ∧
    (Behaves executeProcessStep entryPc Woken r ↔ fairnessWork ≠ 0 ∧ r.Subscribed) := by
  have hinv := h.invariant
  refine ⟨⟨fun hbehaves => hbehaves.fairnessWork_ne hinv, fun hne => ?_⟩,
    ⟨fun hbehaves => ⟨hbehaves.fairnessWork_ne hinv, hbehaves.subscribed x hinv.committed⟩, ?_⟩⟩
  · refine hinv.behaves hne fun y call r' hstep hs hr => ?_
    obtain ⟨wake, hwake, hwoken | ⟨hid, hkind, hcall⟩⟩ := hinv.woken hstep hs hr
    · exact ⟨wake, hwake, .inl hwoken⟩
    · obtain ⟨kind, wakeId⟩ := wake
      cases hid
      refine ⟨_, hwake, .inr ?_⟩
      simp only [List.mem_cons, List.not_mem_nil, or_false] at hkind
      obtain rfl | rfl | rfl := hkind
      · exact .inl ⟨by simp, rfl, hcall⟩
      · exact .inl ⟨by simp, rfl, hcall⟩
      · exact .inr rfl
  · rintro ⟨hne, hsubscribed⟩
    refine hinv.behaves hne fun y call r' hstep hs hr => ?_
    obtain ⟨wake, hwake, hwoken | ⟨hid, hkind, -⟩⟩ := hinv.woken hstep hs hr
    · exact ⟨wake, hwake, hwoken⟩
    · exact absurd hid (hsubscribed wake hwake hkind)

/-! ### A process that waits -/

/-- The generated code suspends on `wake` at once. -/
def waitOn (wake : ProcessWake) : ℕ → Unit → Body (ProcessStep × Unit) :=
  fun pc x => .done (.suspendAt pc wake 7, x)

theorem suspended_named : ProcessStatus.suspended = .failed → "" ≠ "" := by decide

/-- Process 3, suspended after one epoch. -/
def waiting (wake : ProcessWake) : ProcessRuntime :=
  ((construct 3 0 1).propose { pc := 0, status := .suspended, wake := some wake
                               continuationId := 7, named := suspended_named }).doXfer

theorem reached_waiting (wake : ProcessWake) : Reached (waitOn wake) 0 3 1 (waiting wake) :=
  .step (x := ()) (.step (x := ()) .start (.doWork
    (show Body.Leaf _ (some _, ()) from rfl))) .doXfer

/-- Object 1 wakes a process that waits for a condition, which names no object, but not one that
waits for queue 0. -/
theorem behaves_waiting :
    Behaves (waitOn ⟨.condition, 0⟩) 0 Admitted (waiting ⟨.condition, 0⟩) ∧
    ((waiting ⟨.condition, 0⟩).activateFrom 1).2.committed.status = .runnable ∧
    Behaves (waitOn ⟨.queueReadable, 0⟩) 0 Woken (waiting ⟨.queueReadable, 0⟩) ∧
    ((waiting ⟨.queueReadable, 0⟩).activateFrom 1).2.committed.status = .suspended :=
  ⟨(behaves_iff (reached_waiting _) ()).1.mpr (by decide), rfl,
    (behaves_iff (reached_waiting _) ()).2.mpr ⟨by decide, by rintro wake ⟨⟩; decide⟩, rfl⟩

/-- Object 1 is not what a process that waits for the condition 0 has subscribed to. -/
theorem condition_zero_wakes : ¬ ∀ r, Reached (waitOn ⟨.condition, 0⟩) 0 3 1 r →
    Behaves (waitOn ⟨.condition, 0⟩) 0 Woken r := by
  intro h
  exact (h _ (reached_waiting _)).subscribed () (reached_waiting _).invariant.committed _ rfl
    (by decide) rfl

end ProcessRuntime

end AgenticCircuit.Gfsim
