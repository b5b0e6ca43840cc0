import AgenticCircuit.Lib.Ordered
import Mathlib.Data.Prod.Lex

/-! # Core data of the simulation runtime

The plain data of `gfsim/core.h`: exact time, object identity, events, termination results
and the diagnostic state of runtime objects.

* **Time.**  A tick is `uint64_t`, a causal delta is `uint32_t`; both are natural numbers
  here, and every place where the runtime guards an overflow keeps its guard (`uint64Max`).
  An `Epoch` is the pair `(time, delta)` with the lexicographic order of `operator<=>`.
* **Events** are ordered by ready epoch and then by acceptance sequence (`Event.key`).
* **Diagnostics.** Every way a run can end has one constructor of `Diagnostic`; several of them
  share a `code`. -/

namespace AgenticCircuit.Gfsim

/-- `std::numeric_limits<uint64_t>::max()`. -/
def uint64Max : ℕ := 18446744073709551615

abbrev ObjectId := ℕ

/-- Maximum causal deltas per tick. -/
def kMaxDeltasPerTick : ℕ := 1024

def kInvalidObjectId : ObjectId := 4294967295
def kSystemObjectId : ObjectId := kInvalidObjectId - 1

/-! ### Epochs -/

/-- The global epoch: the exact pair `(time, delta)`. -/
structure Epoch where
  time : ℕ
  delta : ℕ
deriving DecidableEq

namespace Epoch

instance : Inhabited Epoch := ⟨⟨0, 0⟩⟩

def nextDelta (e : Epoch) : Epoch := ⟨e.time, e.delta + 1⟩

instance : LT Epoch := ⟨fun a b => a.time < b.time ∨ (a.time = b.time ∧ a.delta < b.delta)⟩
instance : LE Epoch := ⟨fun a b => a.time < b.time ∨ (a.time = b.time ∧ a.delta ≤ b.delta)⟩

variable {a b : Epoch}

theorem lt_def : a < b ↔ a.time < b.time ∨ (a.time = b.time ∧ a.delta < b.delta) := Iff.rfl

theorem le_def : a ≤ b ↔ a.time < b.time ∨ (a.time = b.time ∧ a.delta ≤ b.delta) := Iff.rfl

instance : DecidableLT Epoch := fun _ _ => inferInstanceAs (Decidable (_ ∨ _))
instance : DecidableLE Epoch := fun _ _ => inferInstanceAs (Decidable (_ ∨ _))

theorem eq_iff : a = b ↔ a.time = b.time ∧ a.delta = b.delta := by
  cases a
  cases b
  simp

instance : LinearOrder Epoch where
  le_refl a := by rw [le_def]; omega
  le_trans a b c := by simp only [le_def]; omega
  lt_iff_le_not_ge a b := by simp only [lt_def, le_def]; omega
  le_antisymm a b := by simp only [le_def, eq_iff]; omega
  le_total a b := by simp only [le_def]; omega
  toDecidableLE := inferInstance
  toDecidableEq := inferInstance
  toDecidableLT := inferInstance

theorem lt_nextDelta (e : Epoch) : e < e.nextDelta :=
  lt_def.mpr (Or.inr ⟨rfl, Nat.lt_succ_self _⟩)

theorem lt_nextTick (e : Epoch) : e < ⟨e.time + 1, 0⟩ :=
  lt_def.mpr (Or.inl (Nat.lt_succ_self _))

theorem time_le_of_le (h : a ≤ b) : a.time ≤ b.time := by
  rw [le_def] at h
  omega

end Epoch

/-! ### Objects -/

/-- Statically known runtime kind of every object. -/
inductive ObjectKind where
  | system | module | queue | eventQueue | resource | process | traceSource | compute | link
  | memory | sink | probe | statistic | scheduler
deriving DecidableEq

/-- Committed liveness state an object reports outside the hot path. -/
structure RuntimeObjectState where
  quiescent : Bool := true
  runnable : Bool := false
  pendingCommit : Bool := false
  reason : String := ""
  subscriptions : List String := []
  dependencyChain : List ℕ := []
  correlationChain : List ℕ := []
  queueOccupancy : ℕ := 0
  pendingOffers : ℕ := 0
  activeReservations : ℕ := 0
  protocolState : String := ""
  traceOwner : Bool := false
  tracePosition : ℕ := 0
  traceLastCommittedSequenceId : Option ℕ := none
  traceEof : Bool := false
deriving DecidableEq

/-- `SimObject::runtimeState`, from the probes `hasPendingCommit` and `isRunnable`. -/
def SimObject.runtimeState (pending runnable : Bool) : RuntimeObjectState :=
  { quiescent := !pending && !runnable
    runnable := runnable
    pendingCommit := pending
    reason := if pending then "pending_commit" else if runnable then "runnable" else "" }

/-! ### Events -/

/-- An event scheduled for a future epoch. -/
structure Event where
  readyTime : Epoch
  targetId : ObjectId
  eventKind : ℕ := 0
  payload : ℕ := 0
  sequence : ℕ := 0
deriving DecidableEq

/-- The system order of events: ready epoch, then acceptance sequence. -/
def Event.key (e : Event) : Epoch ×ₗ ℕ := toLex (e.readyTime, e.sequence)

variable {a b : Event}

theorem Event.key_lt : a.key < b.key ↔
    a.readyTime < b.readyTime ∨ (a.readyTime = b.readyTime ∧ a.sequence < b.sequence) :=
  Prod.Lex.toLex_lt_toLex

theorem Event.key_le : a.key ≤ b.key ↔
    a.readyTime < b.readyTime ∨ (a.readyTime = b.readyTime ∧ a.sequence ≤ b.sequence) :=
  Prod.Lex.toLex_le_toLex

theorem Event.readyTime_le_of_key_le (h : a.key ≤ b.key) : a.readyTime ≤ b.readyTime := by
  rcases Event.key_le.mp h with h | ⟨h, _⟩
  · exact le_of_lt h
  · exact le_of_eq h

/-! ### Reports -/

/-- One unfinished object of a no-progress report. -/
structure BlockedObject where
  id : ObjectId
  path : String
  reason : String
  subscriptions : List String
  dependencyChain : List ℕ
  correlationChain : List ℕ
  queueOccupancy : ℕ
  pendingOffers : ℕ
  activeReservations : ℕ
  protocolState : String
deriving DecidableEq

structure NoProgressReport where
  blockedObjects : List BlockedObject := []
  queueOccupancy : ℕ := 0
  pendingOffers : ℕ := 0
  activeReservations : ℕ := 0
  nextEvent : Option Event := none
  tracePosition : ℕ := 0
  lastCommittedSequenceId : Option ℕ := none
  summary : String := ""
deriving DecidableEq

/-! ### Termination -/

inductive TerminationClass where
  | completed | incomplete | failed
deriving DecidableEq

/-- How two runtime objects can clash in the identity check before the first step. -/
inductive IdentityConflict where
  | invalidId
  | sharedId (id : ObjectId)
  | sharedPath (path : String)
deriving DecidableEq

/-- Every diagnosed end of a run.  The first group are declared caps, which end a run as
`incomplete`; all others end it as `failed`. -/
inductive Diagnostic where
  | maxTraceRecordsReached
  | maxTicksReached
  | maxDomainCyclesReached
  | maxEventsReached
  | duplicateObjectIdentity (conflict : IdentityConflict)
  | multipleTraceOwners
  | invalidObservationOwner
  | invalidObservationProposal (error : String)
  | unknownCommitParticipant
  | invalidDeadlockWindow
  | scheduledWorkDelta
  | workBeforeCurrentEpoch
  | unknownWorkTarget
  | continuationDelta
  | scheduledEventDelta
  | eventBeforeCurrentEpoch
  | unknownEventTarget
  | eventSequenceOverflow
  | eventQueueCapacityExceeded
  | invalidEventNotification
  | staleEvent
  | pendingRejected (failureCode : String)
  | multipleStatefulCommits
  | xferProbeMismatch
  | committedFailure (failureCode : String)
  | invalidObservationCommit (error : String)
  | traceEndOverflow
  | activationOverflow
  | windowOverflow
  | deadlockExhausted (summary : String)
  | deadlockPending
  | noProgress (summary : String)
  | nonMonotonicEpoch
deriving DecidableEq

namespace Diagnostic

/-- `TerminationResult::diagnosticCode`. -/
def code : Diagnostic → String
  | maxTraceRecordsReached => "max_trace_records_reached"
  | maxTicksReached => "max_ticks_reached"
  | maxDomainCyclesReached => "max_domain_cycles_reached"
  | maxEventsReached => "max_events_reached"
  | duplicateObjectIdentity _ => "duplicate_object_identity"
  | multipleTraceOwners => "multiple_trace_owners"
  | invalidObservationOwner => "invalid_observation_owner"
  | invalidObservationProposal _ => "invalid_observation_proposal"
  | unknownCommitParticipant => "unknown_commit_participant"
  | invalidDeadlockWindow => "invalid_runtime_limits"
  | scheduledWorkDelta | continuationDelta | scheduledEventDelta => "max_deltas_exceeded"
  | workBeforeCurrentEpoch => "work_before_current_epoch"
  | unknownWorkTarget => "unknown_work_target"
  | eventBeforeCurrentEpoch | staleEvent => "event_before_current_epoch"
  | unknownEventTarget => "unknown_event_target"
  | eventSequenceOverflow => "event_sequence_overflow"
  | eventQueueCapacityExceeded => "event_queue_capacity_exceeded"
  | invalidEventNotification => "invalid_event_notification"
  | pendingRejected failureCode =>
    if failureCode.isEmpty then "invalid_pending_commit" else failureCode
  | multipleStatefulCommits => "multiple_stateful_commits"
  | xferProbeMismatch => "xfer_probe_mismatch"
  | committedFailure failureCode => failureCode
  | invalidObservationCommit _ => "invalid_observation_commit"
  | traceEndOverflow | activationOverflow | windowOverflow => "tick_overflow"
  | deadlockExhausted _ | deadlockPending => "deadlock_window_reached"
  | noProgress _ => "no_progress"
  | nonMonotonicEpoch => "non_monotonic_epoch"

end Diagnostic

/-- The result of a run.  `diagnostic` stands for `diagnosticCode` and `message`. -/
structure TerminationResult where
  classification : TerminationClass := .incomplete
  finalEpoch : Epoch := ⟨0, 0⟩
  committedEventCount : ℕ := 0
  tracePosition : ℕ := 0
  traceLastCommittedSequenceId : Option ℕ := none
  terminationCap : Option ℕ := none
  domainCycles : List (String × ℕ) := []
  diagnostic : Option Diagnostic := none
deriving DecidableEq

/-- A declared time domain. -/
structure TimeDomainRuntime where
  name : String
  period : ℕ := 1
  phase : ℕ := 0
  tickScale : ℕ := 1
deriving DecidableEq

end AgenticCircuit.Gfsim
