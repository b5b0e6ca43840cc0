import AgenticCircuit.Gfsim.Body

/-! # Processes

`ProcessRuntime` of `gfsim/process.h`: the runtime of a compiler-generated process.  Work runs
steps of the generated code from the committed program counter and proposes a new point, Xfer
commits it.

* **Points.**  The program counter, status, subscription and diagnostic are kept twice, committed
  and proposed, so they form a `ProcessPoint`.  A failed point has a diagnostic.
* **Failures.**  A process that has committed a failed point reports it as its failure code.
* **Steps.**  The generated `executeProcessStep` is a parameter: any method that reads and
  changes a state of type `X`, which holds everything outside the process. -/

namespace AgenticCircuit.Gfsim

open Body

open Relation (ReflTransGen)

inductive ProcessStatus where
  | runnable | suspended | terminated | failed
deriving DecidableEq

inductive ProcessWakeKind where
  | condition | resource | eventQueue | nextDelta | queueReadable | queueWritable
deriving DecidableEq

/-- The name of a subscription in a report. -/
def ProcessWakeKind.text : ProcessWakeKind → String
  | condition => "condition"
  | resource => "resource"
  | eventQueue => "event_queue"
  | nextDelta => "next_delta"
  | queueReadable => "queue_readable"
  | queueWritable => "queue_writable"

structure ProcessWake where
  kind : ProcessWakeKind := .condition
  id : ObjectId := 4294967295
deriving DecidableEq

/-- The subscription `wake` of the process `id` is met by a commit of `sourceId`. -/
def ProcessWake.isMetBy (wake : ProcessWake) (id sourceId : ObjectId) : Bool :=
  match wake.kind with
  | .queueReadable | .queueWritable => decide (wake.id = sourceId)
  | .nextDelta => decide (sourceId = id)
  | .condition | .resource | .eventQueue => decide (wake.id = 0) || decide (wake.id = sourceId)

inductive ProcessStepKind where
  | continue | suspend | terminate | fail
deriving DecidableEq

/-- What one step of the generated code asks for. -/
structure ProcessStep where
  kind : ProcessStepKind := .fail
  nextPc : ℕ := 0
  wake : Option ProcessWake := none
  continuationId : ℕ := 0
  diagnostic : String := "invalid_process_step"
deriving DecidableEq

namespace ProcessStep

def suspendAt (nextPc : ℕ) (wake : ProcessWake) (continuationId : ℕ) : ProcessStep :=
  { kind := .suspend, nextPc := nextPc, wake := some wake, continuationId := continuationId
    diagnostic := "" }

def terminate : ProcessStep := { kind := .terminate, diagnostic := "" }

end ProcessStep

/-! ### Points -/

/-- Where a process stands. -/
structure ProcessPoint where
  pc : ℕ
  status : ProcessStatus := .runnable
  wake : Option ProcessWake := none
  continuationId : ℕ := 0
  diagnostic : String := ""
  named : status = .failed → diagnostic ≠ "" := by nofun
deriving DecidableEq

namespace ProcessPoint

variable (p : ProcessPoint)

/-- `proposeFailure`: the program counter stays. -/
def fail (diagnostic : String) (h : diagnostic ≠ "") : ProcessPoint :=
  { pc := p.pc, status := .failed, diagnostic := diagnostic, named := fun _ => h }

/-- The subscription is gone and the process may run again. -/
def resume : ProcessPoint :=
  { p with status := .runnable, wake := none, named := nofun }

end ProcessPoint

/-! ### The runtime -/

structure ProcessRuntime where
  id : ObjectId
  fairnessWork : ℕ
  committed : ProcessPoint
  proposed : ProcessPoint
  pendingCommit : Bool := false
  traceEndRequested : Bool := false
  runtimeFailureCode : String := ""
  reported : committed.status = .failed → runtimeFailureCode ≠ ""
deriving DecidableEq

namespace ProcessRuntime

/-- A constructed process stands at its entry. -/
def construct (id : ObjectId) (entryPc fairnessWork : ℕ) : ProcessRuntime :=
  { id := id, fairnessWork := fairnessWork, committed := { pc := entryPc }
    proposed := { pc := entryPc }, reported := nofun }

variable (r : ProcessRuntime)

def isRunnable : Bool := decide (r.committed.status = .runnable) && !r.pendingCommit

def propose (point : ProcessPoint) : ProcessRuntime :=
  { r with proposed := point, pendingCommit := true }

/-- The loop of `doWork`, with `n` steps left: the point that will be proposed.  `proposed` is
the last proposal, whose program counter a failure keeps. -/
def workLoop {X : Type} (executeProcessStep : ℕ → X → Body (ProcessStep × X))
    (proposed : ProcessPoint) : ℕ → ℕ → X → Body (ProcessPoint × X)
  | 0, localPc, x =>
    .done (({ pc := localPc } : ProcessPoint).fail "process_fairness_exceeded" (by simp), x)
  | n + 1, localPc, x => do
      let (step, x) ← executeProcessStep localPc x
      match step.kind with
      | .continue => workLoop executeProcessStep proposed n step.nextPc x
      | .suspend =>
        if step.wake.isNone || step.continuationId = 0 then
          return (proposed.fail "invalid_process_continuation" (by simp), x)
        else
          return ({ pc := step.nextPc, status := .suspended, wake := step.wake
                    continuationId := step.continuationId }, x)
      | .terminate => return ({ pc := localPc, status := .terminated }, x)
      | .fail =>
        if h : step.diagnostic = "" then
          return (proposed.fail "process_failed" (by simp), x)
        else return (proposed.fail step.diagnostic h, x)

/-- The end of the trace asks a runnable process to terminate where it stands. -/
def traceEndPoint : ProcessPoint := { pc := r.committed.pc, status := .terminated }

/-- `ProcessRuntime::doWork`: the point to propose, if any. -/
def doWork {X : Type} (executeProcessStep : ℕ → X → Body (ProcessStep × X)) (x : X) :
    Body (Option ProcessPoint × X) :=
  if r.committed.status ≠ .runnable || r.pendingCommit then .done (none, x)
  else if r.traceEndRequested then .done (some r.traceEndPoint, x)
  else do
    let (point, x) ←
      workLoop executeProcessStep r.proposed r.fairnessWork r.committed.pc x
    return (some point, x)

/-- `ProcessRuntime::doXfer`. -/
def doXfer : ProcessRuntime :=
  if !r.pendingCommit then r
  else { r with
    committed := r.proposed
    pendingCommit := false
    traceEndRequested := if r.proposed.status = .terminated then false else r.traceEndRequested
    runtimeFailureCode := if r.proposed.status = .failed then r.proposed.diagnostic
      else r.runtimeFailureCode
    reported := fun h => by
      rw [if_pos h]
      exact r.proposed.named h }

/-- Make a suspended process runnable. -/
def resume : ProcessRuntime := { r with committed := r.committed.resume, reported := nofun }

def wake (wake : ProcessWake) (continuationId : ℕ) : Bool × ProcessRuntime :=
  if r.committed.status ≠ .suspended || r.committed.wake ≠ some wake ||
      r.committed.continuationId ≠ continuationId then (false, r)
  else (true, r.resume)

def activateFrom (sourceId : ObjectId) : Bool × ProcessRuntime :=
  if r.committed.status = .runnable then (true, r)
  else if r.committed.status ≠ .suspended then (false, r)
  else
    match r.committed.wake with
    | none => (false, r)
    | some wake => if wake.isMetBy r.id sourceId then (true, r.resume) else (false, r)

def requestTraceEnd : Bool × ProcessRuntime :=
  if r.pendingCommit || r.committed.status ≠ .suspended ||
      !r.committed.wake.any (fun wake => wake.kind = .nextDelta) then (false, r)
  else (true, { r.resume with traceEndRequested := true })

def runtimeState : RuntimeObjectState :=
  let state := SimObject.runtimeState r.pendingCommit r.isRunnable
  let quiescent := !r.pendingCommit &&
    (decide (r.committed.status = .terminated) || decide (r.committed.status = .failed))
  if quiescent then { state with quiescent := true, reason := "" }
  else if r.pendingCommit then { state with quiescent := false, reason := "pending_commit" }
  else if r.committed.status = .runnable then
    { state with quiescent := false, reason := "process_runnable_unscheduled" }
  else
    { state with
      quiescent := false
      reason := "process_suspended"
      subscriptions := r.committed.wake.toList.map
        (fun wake => wake.kind.text ++ ":" ++ toString wake.id) }

/-- The process has terminated and has nothing to commit. -/
def Finished : Prop := r.committed.status = .terminated ∧ r.pendingCommit = false

/-! ### What others can do to a process -/

/-- A process is woken, or a failure code is set on it: its points are private. -/
inductive Use : ProcessRuntime → ProcessRuntime → Prop
  | wake {r : ProcessRuntime} (w : ProcessWake) (continuationId : ℕ) :
      Use r (r.wake w continuationId).2
  | setRuntimeFailureCode {r : ProcessRuntime} (code : String) (h : code ≠ "") :
      Use r { r with runtimeFailureCode := code, reported := fun _ => h }

variable {r}

/-- A change to a process after which it has failed only if it had before. -/
def Spares (r r' : ProcessRuntime) : Prop :=
  r'.committed.status = .failed → r.committed.status = .failed

theorem Spares.refl (r : ProcessRuntime) : r.Spares r := fun hfailed => hfailed

theorem Spares.trans {r r' r'' : ProcessRuntime} (h : r.Spares r') (h' : r'.Spares r'') :
    r.Spares r'' := fun hfailed => h (h' hfailed)

theorem spares_resume : r.Spares r.resume := nofun

theorem spares_wake (w : ProcessWake) (continuationId : ℕ) :
    r.Spares (r.wake w continuationId).2 := by
  unfold wake
  split
  · exact .refl r
  · exact spares_resume

theorem spares_activateFrom (sourceId : ObjectId) : r.Spares (r.activateFrom sourceId).2 := by
  unfold activateFrom
  split
  · exact .refl r
  split
  · exact .refl r
  split
  · exact .refl r
  split
  · exact spares_resume
  · exact .refl r

theorem spares_requestTraceEnd : r.Spares r.requestTraceEnd.2 := by
  unfold requestTraceEnd
  split
  · exact .refl r
  · exact spares_resume

theorem spares_of_uses {r' : ProcessRuntime} (h : ReflTransGen Use r r') : r.Spares r' := by
  induction h with
  | refl => exact .refl r
  | tail _ huse ih =>
    refine ih.trans ?_
    cases huse with
    | wake w continuationId => exact spares_wake w continuationId
    | setRuntimeFailureCode => exact .refl _

section work

variable {X : Type} {R : X → X → Prop} {executeProcessStep : ℕ → X → Body (ProcessStep × X)}
  (hrefl : ∀ x, R x x) (htrans : ∀ x y z, R x y → R y z → R x z)
  (hstep : ∀ pc x step x', (executeProcessStep pc x).Leaf (step, x') → R x x')
include hrefl htrans hstep

theorem workLoop_leaf {proposed point : ProcessPoint} {x x' : X} : ∀ {n pc : ℕ},
    (workLoop executeProcessStep proposed n pc x).Leaf (point, x') → R x x' := by
  intro n
  induction n generalizing x with
  | zero =>
    intro pc hleaf
    cases leaf_done.mp hleaf
    exact hrefl _
  | succ n ih =>
    intro pc hleaf
    obtain ⟨⟨step, y⟩, hexec, hleaf⟩ := (leaf_bind _).mp hleaf
    have hy := hstep pc x step y hexec
    suffices hrest : R y x' from htrans x y x' hy hrest
    dsimp only at hleaf
    split at hleaf
    · exact ih hleaf
    · split at hleaf <;> cases leaf_pure.mp hleaf <;> exact hrefl _
    · cases leaf_pure.mp hleaf
      exact hrefl _
    · split at hleaf <;> cases leaf_pure.mp hleaf <;> exact hrefl _

theorem doWork_leaf {point : Option ProcessPoint} {x x' : X}
    (hleaf : (r.doWork executeProcessStep x).Leaf (point, x')) : R x x' := by
  unfold doWork at hleaf
  split at hleaf
  · cases leaf_done.mp hleaf
    exact hrefl x
  split at hleaf
  · cases leaf_done.mp hleaf
    exact hrefl x
  · obtain ⟨⟨point, y⟩, hloop, hleaf⟩ := (leaf_bind _).mp hleaf
    cases leaf_pure.mp hleaf
    exact workLoop_leaf hrefl htrans hstep hloop

end work

theorem quiescent_iff (h : r.committed.status ≠ .failed) :
    r.runtimeState.quiescent = true ↔ r.Finished := by
  unfold runtimeState Finished
  cases r.pendingCommit <;> cases hstatus : r.committed.status <;> simp_all

end ProcessRuntime

end AgenticCircuit.Gfsim
