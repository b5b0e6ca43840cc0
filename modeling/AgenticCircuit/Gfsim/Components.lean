import AgenticCircuit.Gfsim.Process
import AgenticCircuit.Gfsim.QueueSystem
import AgenticCircuit.Gfsim.Resource
import AgenticCircuit.Gfsim.TimedQueue

/-! # Components

The standard components of `gfsim/components.h`, `queue.h`, `resource.h`, `trace.h`, `host.h` and
`statistics.h`, as far as a report of the system can see them: the state that `hasPendingCommit`,
`isRunnable` and `runtimeState` read.

* **`runtimeState`** is translated from each component.  Compute, Sink, Link, Memory, statistics and
  `HostEgress` do not override `SimObject::runtimeState`.
* **`Finished`** says what the component is for: it retains nothing and has no pending proposal.
  `quiescent_iff` connects the two for every component but one.
* **`HostEgress`** inherits `runtimeState` and calls itself runnable while its mailbox is free, so
  it is quiescent exactly while it retains a value (`HostEgress.quiescent_iff`).  `HostIngress` has
  an override.

Objects of the demonstration models (`npu.h`, `showcase.h`) are not components. -/

namespace AgenticCircuit.Gfsim

/-! ### Components with the inherited state -/

structure Compute where
  hasInput : Bool := false
  hasOutput : Bool := false
  runtimeFailureCode : String := ""
deriving DecidableEq

def Compute.runtimeState (c : Compute) : RuntimeObjectState :=
  SimObject.runtimeState c.hasOutput c.hasInput

structure Sink (α : Type) where
  receivedProposals : List α := []
  runtimeFailureCode : String := ""
deriving DecidableEq

def Sink.runtimeState {α : Type} (s : Sink α) : RuntimeObjectState :=
  SimObject.runtimeState (!s.receivedProposals.isEmpty) false

/-- The connector `Link`, which is runnable while it has a proposal. -/
structure Link where
  hasProposal : Bool := false
  runtimeFailureCode : String := ""
deriving DecidableEq

def Link.runtimeState (l : Link) : RuntimeObjectState :=
  SimObject.runtimeState l.hasProposal l.hasProposal

structure Memory (α : Type) where
  writeProposals : List (ℕ × α) := []
  runtimeFailureCode : String := ""
deriving DecidableEq

def Memory.runtimeState {α : Type} (m : Memory α) : RuntimeObjectState :=
  SimObject.runtimeState (!m.writeProposals.isEmpty) false

structure Statistic where
  pending : Bool := false
  runtimeFailureCode : String := ""
deriving DecidableEq

def Statistic.runtimeState (s : Statistic) : RuntimeObjectState :=
  SimObject.runtimeState s.pending false

theorem SimObject.quiescent_iff {pending runnable : Bool} :
    (SimObject.runtimeState pending runnable).quiescent = true ↔
      pending = false ∧ runnable = false := by
  simp [SimObject.runtimeState]

/-! ### State arrays -/

structure StateArray (α : Type) where
  proposals : List (ℕ × α) := []
  runtimeFailureCode : String := ""
deriving DecidableEq

def StateArray.runtimeState {α : Type} (a : StateArray α) : RuntimeObjectState :=
  let state := SimObject.runtimeState (!a.proposals.isEmpty) false
  { state with
    pendingOffers := a.proposals.length
    quiescent := a.proposals.isEmpty
    reason := if a.proposals.isEmpty then state.reason else "pending_commit" }

/-! ### Schedulers -/

structure SchedulerEntry (α : Type) where
  value : α
  priority : ℕ
  issueEpoch : Epoch
  portIndex : ℕ
  instanceIndex : ℕ
  ownerId : ObjectId
  transactionId : ℕ
deriving DecidableEq

structure Scheduler (α : Type) where
  proposals : List (SchedulerEntry α) := []
  accepted : List (SchedulerEntry α) := []
  rejected : List (SchedulerEntry α) := []
  committed : List (SchedulerEntry α) := []
  popProposalCount : ℕ := 0
  runtimeFailureCode : String := ""
deriving DecidableEq

namespace Scheduler

variable {α : Type} (s : Scheduler α)

def hasPendingCommit : Bool :=
  !s.proposals.isEmpty || !s.accepted.isEmpty || !s.rejected.isEmpty ||
    decide (s.popProposalCount ≠ 0)

def isRunnable : Bool := !s.proposals.isEmpty

def runtimeState : RuntimeObjectState :=
  let state := SimObject.runtimeState s.hasPendingCommit s.isRunnable
  let quiescent := s.committed.isEmpty && !s.hasPendingCommit
  { state with
    queueOccupancy := s.committed.length
    pendingOffers := s.proposals.length + s.accepted.length + s.rejected.length
    quiescent := quiescent
    reason := if quiescent then state.reason
      else if s.hasPendingCommit then "scheduler_pending_proposal" else "scheduler_not_empty" }

/-- The scheduler is empty and has no proposals. -/
def Finished : Prop :=
  s.committed = [] ∧ s.proposals = [] ∧ s.accepted = [] ∧ s.rejected = [] ∧ s.popProposalCount = 0

theorem quiescent_iff : s.runtimeState.quiescent = true ↔ s.Finished := by
  simp [runtimeState, hasPendingCommit, Finished, and_assoc]

end Scheduler

/-! ### Resources -/

namespace Resource

variable (r : Resource)

def pendingOffers : ℕ :=
  r.proposals.length + r.acceptedProposals.length + r.releaseProposals.length +
    r.cancellationProposals.length + r.proposedRejectedTransactions.length

def runtimeState : RuntimeObjectState :=
  let state := SimObject.runtimeState r.hasPendingCommit false
  let quiescent := r.reservations.isEmpty && decide (r.pendingOffers = 0)
  { state with
    activeReservations := r.activeCapacity
    pendingOffers := r.pendingOffers
    quiescent := quiescent
    reason := if quiescent then state.reason
      else if r.pendingOffers ≠ 0 then "resource_pending_proposal"
      else "resource_reservation_live" }

/-- No reservation is live and nothing is proposed. -/
def Finished : Prop :=
  r.reservations = [] ∧ r.proposals = [] ∧ r.acceptedProposals = [] ∧ r.releaseProposals = [] ∧
    r.cancellationProposals = [] ∧ r.proposedRejectedTransactions = []

theorem quiescent_iff : r.runtimeState.quiescent = true ↔ r.Finished := by
  simp [runtimeState, pendingOffers, Finished, and_assoc]

end Resource

/-! ### Protocols -/

structure ReadyValid (α : Type) where
  ready : Bool := false
  offer : Option α := none
  offerProposal : Option α := none
  readyProposal : Option Bool := none
  runtimeFailureCode : String := ""
deriving DecidableEq

namespace ReadyValid

variable {α : Type} (v : ReadyValid α)

def hasPendingCommit : Bool := v.offerProposal.isSome || v.readyProposal.isSome

def runtimeState : RuntimeObjectState :=
  let state := SimObject.runtimeState v.hasPendingCommit v.hasPendingCommit
  let quiescent := v.offer.isNone && !v.hasPendingCommit
  { state with
    pendingOffers := v.offer.isSome.toNat + v.offerProposal.isSome.toNat
    protocolState := if v.ready then "ready" else "backpressure"
    quiescent := quiescent
    reason := if quiescent then state.reason
      else if v.offer.isSome then "ready_valid_offer_blocked" else "ready_valid_pending_proposal" }

/-- No offer is retained and nothing is proposed. -/
def Finished : Prop := v.offer = none ∧ v.offerProposal = none ∧ v.readyProposal = none

theorem quiescent_iff : v.runtimeState.quiescent = true ↔ v.Finished := by
  simp [runtimeState, hasPendingCommit, Finished]

end ReadyValid

structure Envelope (α : Type) where
  payload : α
  correlationId : ℕ
deriving DecidableEq

structure RequestResponse (α : Type) where
  requestProposals : List (Envelope α) := []
  responseProposals : List (Envelope α) := []
  committedRequests : List (Envelope α) := []
  committedResponses : List (Envelope α) := []
  /-- The correlations in flight, in ascending order. -/
  active : List ℕ := []
  requestPopCount : ℕ := 0
  responsePopCount : ℕ := 0
  runtimeFailureCode : String := ""
deriving DecidableEq

namespace RequestResponse

variable {α : Type} (v : RequestResponse α)

def hasPendingCommit : Bool :=
  !v.requestProposals.isEmpty || !v.responseProposals.isEmpty ||
    decide (v.requestPopCount ≠ 0) || decide (v.responsePopCount ≠ 0)

def pendingOffers : ℕ :=
  v.requestProposals.length + v.responseProposals.length + v.committedRequests.length +
    v.committedResponses.length

def runtimeState : RuntimeObjectState :=
  let state := SimObject.runtimeState v.hasPendingCommit false
  let quiescent := v.active.isEmpty && decide (v.pendingOffers = 0) && !v.hasPendingCommit
  { state with
    pendingOffers := v.pendingOffers
    correlationChain := v.active
    protocolState := if v.active.isEmpty then "idle" else "in_flight"
    quiescent := quiescent
    reason := if quiescent then state.reason else "request_response_blocked" }

/-- No correlation is in flight, no envelope is retained and nothing is proposed. -/
def Finished : Prop :=
  v.active = [] ∧ v.requestProposals = [] ∧ v.responseProposals = [] ∧ v.committedRequests = [] ∧
    v.committedResponses = [] ∧ v.requestPopCount = 0 ∧ v.responsePopCount = 0

theorem quiescent_iff : v.runtimeState.quiescent = true ↔ v.Finished := by
  simp only [runtimeState, pendingOffers, hasPendingCommit, Finished, Bool.and_eq_true,
    Bool.or_eq_false_iff, decide_eq_true_eq, Bool.not_eq_true', Bool.not_eq_false',
    List.isEmpty_iff, decide_eq_false_iff_not, Nat.add_eq_zero_iff, List.length_eq_zero_iff]
  tauto

end RequestResponse

/-! ### Trace sources -/

/-- The fields of a trace record that decide when it is offered. -/
structure PtoTraceRecord where
  sequenceId : ℕ
  issueTime : Option ℕ := none
  dependencies : List ℕ := []
deriving DecidableEq

/-- The cursor owner of a trace document.  `endOfTrace` is kept beside the position. -/
structure TraceSource (α : Type) where
  records : List PtoTraceRecord := []
  nextRecordIndex : ℕ := 0
  lastCommittedSequenceId : Option ℕ := none
  endOfTrace : Bool
  committedOffer : Option α := none
  offerProposal : Option α := none
  committedSequenceId : Option ℕ := none
  proposedSequenceId : Option ℕ := none
  acceptProposal : Bool := false
  completedSequences : List ℕ := []
  runtimeFailureCode : String := ""
  atEnd : endOfTrace = true ↔ nextRecordIndex = records.length
deriving DecidableEq

namespace TraceSource

variable {α : Type}

def construct (records : List PtoTraceRecord) : TraceSource α :=
  { records := records, endOfTrace := records.isEmpty
    atEnd := by cases records <;> simp }

variable (t : TraceSource α)

/-- An accepted offer moves the cursor; a new offer is published. -/
def doXfer : TraceSource α :=
  let t := if !t.acceptProposal then t
    else { t with
      lastCommittedSequenceId := t.committedSequenceId
      nextRecordIndex := t.nextRecordIndex + 1
      endOfTrace := decide (t.nextRecordIndex + 1 = t.records.length)
      committedOffer := none
      committedSequenceId := none
      acceptProposal := false
      atEnd := decide_eq_true_iff }
  if t.offerProposal.isNone then t
  else { t with
    committedOffer := t.offerProposal
    committedSequenceId := t.proposedSequenceId
    offerProposal := none
    proposedSequenceId := none }

def hasPendingCommit : Bool := t.offerProposal.isSome || t.acceptProposal

/-- The dependencies of a record that are not complete. -/
def openDependencies (record : PtoTraceRecord) : List ℕ :=
  record.dependencies.filter (fun dependency => !t.completedSequences.contains dependency)

/-- The issue time of a record lies after `epoch`. -/
def issuesLater (record : PtoTraceRecord) (epoch : Epoch) : Bool :=
  record.issueTime.any (fun time => decide (epoch.time < time))

def isRunnable (epoch : Epoch) : Bool :=
  !t.endOfTrace && t.committedOffer.isNone && t.offerProposal.isNone && !t.acceptProposal &&
    (t.records[t.nextRecordIndex]?).any (fun record =>
      !issuesLater record epoch && (t.openDependencies record).isEmpty)

def runtimeState (epoch : Epoch) : RuntimeObjectState :=
  let state := SimObject.runtimeState t.hasPendingCommit (t.isRunnable epoch)
  let state := { state with
    traceOwner := true
    tracePosition := t.nextRecordIndex
    traceLastCommittedSequenceId := t.lastCommittedSequenceId
    traceEof := t.endOfTrace
    pendingOffers := (t.committedOffer.isSome || t.offerProposal.isSome).toNat
    quiescent := t.endOfTrace && !t.hasPendingCommit && t.committedOffer.isNone }
  if state.quiescent then { state with reason := "" }
  else if t.committedOffer.isSome then { state with reason := "trace_offer_blocked" }
  else if t.hasPendingCommit then { state with reason := "pending_commit" }
  else
    match t.records[t.nextRecordIndex]? with
    | none => state
    | some record =>
      let blocked := t.openDependencies record
      { state with
        dependencyChain := blocked
        reason := if !blocked.isEmpty then "trace_dependency_blocked"
          else if issuesLater record epoch then "trace_issue_time_pending"
          else "trace_runnable_unscheduled" }

/-- Every record has been accepted, no offer is retained and nothing is proposed. -/
def Finished : Prop :=
  t.nextRecordIndex = t.records.length ∧ t.committedOffer = none ∧ t.offerProposal = none ∧
    t.acceptProposal = false

theorem quiescent_iff (epoch : Epoch) : (t.runtimeState epoch).quiescent = true ↔ t.Finished := by
  have hquiescent : (t.runtimeState epoch).quiescent =
      (t.endOfTrace && !t.hasPendingCommit && t.committedOffer.isNone) := by
    unfold runtimeState
    dsimp only
    split
    · rfl
    split
    · rfl
    split
    · rfl
    split <;> rfl
  rw [hquiescent, Finished, ← t.atEnd]
  simp only [hasPendingCommit, Bool.and_eq_true, Bool.not_eq_true', Bool.or_eq_false_iff,
    Option.isSome_eq_false_iff, Option.isNone_iff_eq_none]
  tauto

end TraceSource

/-! ### Host bridges -/

/-- The bridge from the host's one-entry mailbox into a queue. -/
structure HostIngress (α : Type) where
  destination : Ptr
  mailbox : Option α := none
  proposed : Bool := false
  hostAccepted : ℕ := 0
  queueCommitted : ℕ := 0
  lastUpdate : Epoch := ⟨0, 0⟩
  runtimeFailureCode : String := ""
deriving DecidableEq

namespace HostIngress

variable {α : Type} (h : HostIngress α)

def stage (value : α) : Bool × HostIngress α :=
  if h.mailbox.isSome || h.proposed then (false, h)
  else (true, { h with mailbox := some value, hostAccepted := h.hostAccepted + 1 })

def doXfer (epoch : Epoch) : HostIngress α :=
  if !h.proposed then h
  else { h with
    mailbox := none, proposed := false, queueCommitted := h.queueCommitted + 1
    lastUpdate := epoch }

def isRunnable : Bool := h.mailbox.isSome

def runtimeState : RuntimeObjectState :=
  let state := SimObject.runtimeState h.proposed h.isRunnable
  let quiescent := h.mailbox.isNone && !h.proposed
  { state with
    pendingOffers := h.mailbox.isSome.toNat
    quiescent := quiescent
    reason := if quiescent then state.reason
      else if h.proposed then "pending_commit" else "host_mailbox_pending" }

/-- The mailbox is empty and nothing is proposed. -/
def Finished : Prop := h.mailbox = none ∧ h.proposed = false

theorem quiescent_iff : h.runtimeState.quiescent = true ↔ h.Finished := by
  simp [runtimeState, Finished]

end HostIngress

/-- The bridge from a queue into the mailbox the host takes from. -/
structure HostEgress (α : Type) where
  source : Ptr
  mailbox : Option α := none
  proposedValue : Option α := none
  proposed : Bool := false
  queueCommitted : ℕ := 0
  hostCompleted : ℕ := 0
  lastUpdate : Epoch := ⟨0, 0⟩
  runtimeFailureCode : String := ""
deriving DecidableEq

namespace HostEgress

variable {α : Type} (h : HostEgress α)

def take : Option α × HostEgress α :=
  if h.mailbox.isNone then (none, h)
  else (h.mailbox, { h with mailbox := none, hostCompleted := h.hostCompleted + 1 })

def doXfer (epoch : Epoch) : HostEgress α :=
  if !h.proposed then h
  else { h with
    mailbox := h.proposedValue, proposedValue := none, proposed := false
    queueCommitted := h.queueCommitted + 1, lastUpdate := epoch }

def isRunnable : Bool := h.mailbox.isNone

/-- Inherited from `SimObject`. -/
def runtimeState : RuntimeObjectState := SimObject.runtimeState h.proposed h.isRunnable

/-- The mailbox is empty and nothing is proposed. -/
def Finished : Prop := h.mailbox = none ∧ h.proposed = false

theorem quiescent_iff :
    h.runtimeState.quiescent = true ↔ h.mailbox.isSome = true ∧ h.proposed = false := by
  rw [runtimeState, SimObject.quiescent_iff, and_comm, isRunnable]
  cases h.mailbox <;> simp

end HostEgress

/-! ### Any component -/

inductive Component (α : Type) where
  | process (r : ProcessRuntime)
  | queue (q : SimQueue α)
  | queueLink (l : QueueLink)
  | stateArray (a : StateArray α)
  | timedEventQueue (q : TimedEventQueue α)
  | resource (r : Resource)
  | compute (c : Compute)
  | sink (s : Sink α)
  | link (l : Link)
  | memory (m : Memory α)
  | scheduler (s : Scheduler α)
  | readyValid (v : ReadyValid α)
  | requestResponse (v : RequestResponse α)
  | traceSource (t : TraceSource α)
  | hostIngress (h : HostIngress α)
  | hostEgress (h : HostEgress α)
  | statistic (s : Statistic)
  | module

namespace Component

variable {α : Type}

def asQueue : Component α → Option (SimQueue α)
  | queue q => some q
  | _ => none

def hasPendingCommit : Component α → Bool
  | process r => r.pendingCommit
  | queue q => q.hasPendingCommit
  | queueLink l => l.pendingTransfer
  | stateArray a => !a.proposals.isEmpty
  | timedEventQueue q => q.hasPendingCommit
  | resource r => r.hasPendingCommit
  | compute c => c.hasOutput
  | sink s => !s.receivedProposals.isEmpty
  | link l => l.hasProposal
  | memory m => !m.writeProposals.isEmpty
  | scheduler s => s.hasPendingCommit
  | readyValid v => v.hasPendingCommit
  | requestResponse v => v.hasPendingCommit
  | traceSource t => t.hasPendingCommit
  | hostIngress h => h.proposed
  | hostEgress h => h.proposed
  | statistic s => s.pending
  | module => false

def runtimeFailureCode : Component α → String
  | process r => r.runtimeFailureCode
  | queue q => q.runtimeFailureCode
  | queueLink l => l.runtimeFailureCode
  | stateArray a => a.runtimeFailureCode
  | timedEventQueue q => q.runtimeFailureCode
  | resource r => r.runtimeFailureCode
  | compute c => c.runtimeFailureCode
  | sink s => s.runtimeFailureCode
  | link l => l.runtimeFailureCode
  | memory m => m.runtimeFailureCode
  | scheduler s => s.runtimeFailureCode
  | readyValid v => v.runtimeFailureCode
  | requestResponse v => v.runtimeFailureCode
  | traceSource t => t.runtimeFailureCode
  | hostIngress h => h.runtimeFailureCode
  | hostEgress h => h.runtimeFailureCode
  | statistic s => s.runtimeFailureCode
  | module => ""

section queues

def isEgress : Component α → Bool
  | hostEgress _ => true
  | _ => false

/-- A process that has committed a failure. -/
def hasFailed : Component α → Bool
  | process r => decide (r.committed.status = .failed)
  | _ => false

variable [PacketTraits α] (parts : Ptr → Component α)

/-- A link could move an entry: `!source_.isEmpty() && !destination_.isFull()`. -/
def linkRunnable (l : QueueLink) : Bool :=
  (parts l.source).asQueue.any (fun q => !q.isEmpty) &&
    (parts l.destination).asQueue.any (fun q => !q.isFull)

/-- The state a component reports; a link looks at its two queues. -/
def runtimeState (epoch : Epoch) : Component α → RuntimeObjectState
  | process r => r.runtimeState
  | queue q => q.runtimeState
  | queueLink l => SimObject.runtimeState l.pendingTransfer (linkRunnable parts l)
  | stateArray a => a.runtimeState
  | timedEventQueue q => q.runtimeState
  | resource r => r.runtimeState
  | compute c => c.runtimeState
  | sink s => s.runtimeState
  | link l => l.runtimeState
  | memory m => m.runtimeState
  | scheduler s => s.runtimeState
  | readyValid v => v.runtimeState
  | requestResponse v => v.runtimeState
  | traceSource t => t.runtimeState epoch
  | hostIngress h => h.runtimeState
  | hostEgress h => h.runtimeState
  | statistic s => s.runtimeState
  | module => SimObject.runtimeState false false

/-- The component holds no unfinished state. -/
def Finished : Component α → Prop
  | process r => r.Finished
  | queue q => q.committed = [] ∧ q.pushProposals = [] ∧ q.popProposalCount = 0
  | queueLink l => l.pendingTransfer = false ∧ linkRunnable parts l = false
  | stateArray a => a.proposals = []
  | timedEventQueue q => q.Finished
  | resource r => r.Finished
  | compute c => c.hasOutput = false ∧ c.hasInput = false
  | sink s => s.receivedProposals = []
  | link l => l.hasProposal = false
  | memory m => m.writeProposals = []
  | scheduler s => s.Finished
  | readyValid v => v.Finished
  | requestResponse v => v.Finished
  | traceSource t => t.Finished
  | hostIngress h => h.Finished
  | hostEgress h => h.Finished
  | statistic s => s.pending = false
  | module => True

/-- Apart from failed processes and host egresses, a component is quiescent exactly when it has
finished. -/
theorem quiescent_iff {epoch : Epoch} {part : Component α} (hegress : part.isEgress = false)
    (hfailed : part.hasFailed = false) :
    (part.runtimeState parts epoch).quiescent = true ↔ part.Finished parts := by
  cases part with
  | process r => exact r.quiescent_iff (of_decide_eq_false hfailed)
  | queue q => simp [runtimeState, Finished, SimQueue.runtimeState, SimQueue.hasPendingCommit]
  | queueLink l | compute c => exact SimObject.quiescent_iff
  | stateArray a => simp [runtimeState, Finished, StateArray.runtimeState]
  | timedEventQueue q => exact q.quiescent_iff
  | resource r => exact r.quiescent_iff
  | sink s => simp [runtimeState, Finished, Sink.runtimeState, SimObject.quiescent_iff]
  | link l => simp [runtimeState, Finished, Link.runtimeState, SimObject.quiescent_iff]
  | memory m => simp [runtimeState, Finished, Memory.runtimeState, SimObject.quiescent_iff]
  | scheduler s => exact s.quiescent_iff
  | readyValid v | requestResponse v => exact v.quiescent_iff
  | traceSource t => exact t.quiescent_iff epoch
  | hostIngress h => exact h.quiescent_iff
  | hostEgress h => cases hegress
  | statistic s => simp [runtimeState, Finished, Statistic.runtimeState, SimObject.quiescent_iff]
  | module => exact ⟨fun _ => trivial, fun _ => rfl⟩

end queues

end Component

end AgenticCircuit.Gfsim
