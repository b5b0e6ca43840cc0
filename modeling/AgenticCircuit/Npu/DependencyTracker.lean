import AgenticCircuit.Npu.Instruction
import Mathlib.Data.Finset.Card
import Mathlib.Data.Finset.Union

/-! # The dependency tracker

`NpuDependencyTracker` of `gfsim/npu.h`: a rename table of the tiles of each block and four finite
issue queues.  Dispatches, issues and completions are proposals; `doArbitrate` derives the
dependencies of the dispatches that find room and emits the observations, `doXfer` commits.

The rename table `producers` is the one committed by earlier transfers: an arbitration reads it and
only the transfer writes it.  An array over the engines is a function of the engine.  The sink of
the observations stands by its answers, in the order of the observations of an arbitration; an
object without a sink is one whose sink accepts everything. -/

namespace AgenticCircuit.Npu

open Bindings Trace Gfsim

/-! ### Flow identities -/

def kMaxPortableJsonInteger : ℕ := 9007199254740991

/-- One byte of the FNV-1a hash on 64-bit words. -/
def appendByte (hash byte : ℕ) : ℕ := (hash ^^^ byte) * 1099511628211 % 2 ^ 64

/-- The eight bytes of a 64-bit word, the least significant first. -/
def appendInteger (hash value : ℕ) : ℕ :=
  (List.range 8).foldl (fun hash i => appendByte hash (value / 2 ^ (8 * i) % 256)) hash

def dependencyFlowId (blockId producerSequenceId consumerSequenceId : ℕ) (tileIdentity : Bytes) : ℕ :=
  let hash := appendInteger 14695981039346656037 blockId
  let hash := appendInteger hash producerSequenceId
  let hash := appendInteger hash consumerSequenceId
  tileIdentity.foldl (fun hash byte => appendByte hash byte.toNat) hash % kMaxPortableJsonInteger + 1

def nextFlowId (flow : ℕ) : ℕ := if flow = kMaxPortableJsonInteger then 1 else flow + 1

/-- The probing loop with the attempts it has left; `none` when they are exhausted. -/
def probeFlowId (shadowFlowIds : Finset ℕ) : ℕ → ℕ → Option ℕ
  | 0, flow => if flow ∈ shadowFlowIds then none else some flow
  | attempts + 1, flow =>
    if flow ∈ shadowFlowIds then probeFlowId shadowFlowIds attempts (nextFlowId flow) else some flow

/-! ### The object -/

structure DispatchProposal where
  instruction : NpuInstruction
  stableObjectId : ObjectId := kInvalidObjectId

/-- The order in which dispatch proposals are arbitrated. -/
def DispatchProposal.key (p : DispatchProposal) : ℕ ×ₗ ObjectId :=
  toLex (p.instruction.sequenceId, p.stableObjectId)

structure NpuDependencyTracker where
  /-- `NpuIssueQueueCapacities`. -/
  capacities : NpuEngineClass → ℕ
  queues : NpuEngineClass → List NpuIssueEntry := fun _ => []
  dispatchProposals : List DispatchProposal := []
  acceptedDispatches : List NpuIssueEntry := []
  proposedRejectedDispatches : List ℕ := []
  rejectedDispatches : List ℕ := []
  acceptedDispatchSequences : Finset ℕ := ∅
  issueProposals : NpuEngineClass → Option NpuIssueEntry := fun _ => none
  issued : List NpuIssueEntry := []
  completionProposals : List ℕ := []
  outstandingSequences : Finset ℕ := ∅
  completedSequences : Finset ℕ := ∅
  producers : TileKey → Option ℕ := fun _ => none
  usedFlowIds : Finset ℕ := ∅
  lastDispatchedSequence : Option ℕ := none
  highWatermarks : NpuEngineClass → ℕ := fun _ => 0
  totalDispatches : UInt64 := 0
  totalDispatchStalls : UInt64 := 0
  totalIssues : UInt64 := 0
  totalDependencyWakeups : UInt64 := 0
  lastUpdate : Epoch := ⟨0, 0⟩
  runtimeFailureCode : String := ""

namespace NpuDependencyTracker

variable (s : NpuDependencyTracker)

def knownSequence (sequenceId : ℕ) : Bool :=
  decide (sequenceId ∈ s.completedSequences) || decide (sequenceId ∈ s.outstandingSequences) ||
    s.dispatchProposals.any (fun p => p.instruction.sequenceId == sequenceId) ||
    s.acceptedDispatches.any (fun e => e.instruction.sequenceId == sequenceId) ||
    NpuEngineClass.all.any fun engine =>
      (s.queues engine).any fun e => e.instruction.sequenceId == sequenceId

def ready (entry : NpuIssueEntry) : Bool :=
  entry.derivedDependencies.all fun d => decide (d.producerSequenceId ∈ s.completedSequences)

/-! ### Proposals -/

def proposeDispatch (instruction : NpuInstruction) (stableObjectId : ObjectId) :
    Bool × NpuDependencyTracker :=
  if decide (stableObjectId = kInvalidObjectId) ||
      s.lastDispatchedSequence.any (fun last => decide (instruction.sequenceId ≤ last)) ||
      s.knownSequence instruction.sequenceId then (false, s)
  else (true, { s with dispatchProposals := s.dispatchProposals ++ [⟨instruction, stableObjectId⟩] })

/-- One entry of the scan of `proposeIssue` for the least ready entry. -/
def selectIssue (candidate : Option NpuIssueEntry) (entry : NpuIssueEntry) : Option NpuIssueEntry :=
  if s.ready entry && candidate.all (fun c => decide (entry.key < c.key)) then some entry
  else candidate

def proposeIssue (engine : NpuEngineClass) : Bool × NpuDependencyTracker :=
  if (s.issueProposals engine).isSome then (false, s)
  else
    match (s.queues engine).foldl s.selectIssue none with
    | none => (false, s)
    | some candidate =>
      (true, { s with issueProposals := Function.update s.issueProposals engine (some candidate) })

def proposeComplete (sequenceId : ℕ) : Bool × NpuDependencyTracker :=
  if decide (sequenceId ∉ s.outstandingSequences) || s.completionProposals.contains sequenceId then
    (false, s)
  else (true, { s with completionProposals := s.completionProposals ++ [sequenceId] })

/-! ### Arbitration -/

/-- The room of a queue when the entry that issues in this epoch has left it. -/
def room (engine : NpuEngineClass) : ℕ :=
  let released := if (s.issueProposals engine).isSome then 1 else 0
  s.capacities engine - ((s.queues engine).length - released)

/-- The locals of the dispatch loop of `doArbitrate`. -/
structure Arbitration where
  remaining : NpuEngineClass → ℕ
  shadowFlowIds : Finset ℕ
  dispatchBlocked : Bool := false
  accepted : List NpuIssueEntry := []
  rejected : List ℕ := []
  runtimeFailureCode : String

/-- The loop over the input tiles of a dispatch: the dependencies, the shadow of the flow
identities and the failure code.  A failure ends the loop. -/
def deriveDependencies (instruction : NpuInstruction) :
    List Bytes → Finset ℕ → String → List NpuDependency × Finset ℕ × String
  | [], shadowFlowIds, code => ([], shadowFlowIds, code)
  | tile :: tiles, shadowFlowIds, code =>
    match s.producers (instruction.blockId, tile) with
    | none => deriveDependencies instruction tiles shadowFlowIds code
    | some producer =>
      let first := dependencyFlowId instruction.blockId producer instruction.sequenceId tile
      match probeFlowId shadowFlowIds shadowFlowIds.card first with
      | none => ([], shadowFlowIds, "npu_dependency_flow_id_exhausted")
      | some flow =>
        if code ≠ "" then ([], shadowFlowIds, code)
        else
          let rest := deriveDependencies instruction tiles (insert flow shadowFlowIds) code
          (⟨producer, tile, flow⟩ :: rest.1, rest.2)

def arbitrateDispatch (a : Arbitration) (proposal : DispatchProposal) : Arbitration :=
  let engine := proposal.instruction.engine
  if a.dispatchBlocked || a.remaining engine = 0 then
    { a with
      rejected := a.rejected ++ [proposal.instruction.sequenceId]
      dispatchBlocked := true }
  else
    let derived := s.deriveDependencies proposal.instruction proposal.instruction.inputTiles
      a.shadowFlowIds a.runtimeFailureCode
    if derived.2.2 ≠ "" then
      { a with
        rejected := a.rejected ++ [proposal.instruction.sequenceId]
        dispatchBlocked := true
        shadowFlowIds := derived.2.1
        runtimeFailureCode := derived.2.2 }
    else
      { a with
        remaining := Function.update a.remaining engine (a.remaining engine - 1)
        shadowFlowIds := derived.2.1
        accepted := a.accepted ++ [⟨proposal.instruction, proposal.stableObjectId, derived.1⟩] }

def sortedProposals : List DispatchProposal := insertAll DispatchProposal.key [] s.dispatchProposals

def arbitration : Arbitration :=
  s.sortedProposals.foldl s.arbitrateDispatch
    { remaining := s.room
      shadowFlowIds := s.usedFlowIds
      runtimeFailureCode := s.runtimeFailureCode }

/-- The proposed issues in their order. -/
def proposedIssues : List NpuIssueEntry :=
  insertAll NpuIssueEntry.key [] (NpuEngineClass.all.filterMap s.issueProposals)

/-! ### Observations -/

def instructionEvent (name : String) (entry : NpuIssueEntry) : EventProposal :=
  { category := "instruction"
    name := name
    rootSequenceId := some entry.instruction.sequenceId
    arguments := [⟨"engine", .text entry.instruction.engine.toString⟩,
      ⟨"stable_object_id", .unsigned entry.stableObjectId⟩] }

def flowEvent (phase : TraceEventPhase) (entry : NpuIssueEntry) (d : NpuDependency) : EventProposal :=
  { category := "dependency"
    name := "tile"
    phase := phase
    rootSequenceId := some entry.instruction.sequenceId
    flowId := some d.flowId
    arguments := [⟨"producer_sequence_id", .unsigned d.producerSequenceId⟩,
      ⟨"tile_identity", .text (textOf d.tileIdentity)⟩] }

/-- The event of an entry and the flow events of its dependencies. -/
def entryEvents (name : String) (phase : TraceEventPhase) (entry : NpuIssueEntry) :
    List EventProposal :=
  instructionEvent name entry :: entry.derivedDependencies.map (flowEvent phase entry)

def stallEvent (sequenceId : ℕ) : EventProposal :=
  { category := "stall"
    name := "issue_queue_capacity"
    rootSequenceId := some sequenceId }

def readyEvent (producer : ℕ) (entry : NpuIssueEntry) : EventProposal :=
  { category := "dependency"
    name := "ready"
    rootSequenceId := some entry.instruction.sequenceId
    arguments := [⟨"producer_sequence_id", .unsigned producer⟩] }

/-- The queued entries that wait for a producer. -/
def waiting (producer : ℕ) : List NpuIssueEntry :=
  (NpuEngineClass.all.flatMap s.queues).filter fun e =>
    e.derivedDependencies.any fun d => d.producerSequenceId == producer

def sortedCompletions : List ℕ := insertAll id [] s.completionProposals

/-- What an arbitration emits, in order. -/
def observations : List EventProposal :=
  s.acceptedDispatches.flatMap (entryEvents "dispatch" .flowStart) ++
    s.proposedRejectedDispatches.map stallEvent ++
    s.proposedIssues.flatMap (entryEvents "issue" .flowEnd) ++
    s.sortedCompletions.flatMap fun producer => (s.waiting producer).map (readyEvent producer)

/-- The state `doArbitrate` leaves, up to the failure code of its observations. -/
def arbitrated : NpuDependencyTracker :=
  let a := s.arbitration
  { s with
    dispatchProposals := s.sortedProposals
    acceptedDispatches := s.acceptedDispatches ++ a.accepted
    proposedRejectedDispatches := s.proposedRejectedDispatches ++ a.rejected
    completionProposals := s.sortedCompletions
    runtimeFailureCode := a.runtimeFailureCode }

/-- `sink k` is the answer of the sink to the `k`-th observation. -/
def doArbitrate (sink : ℕ → Bool) : NpuDependencyTracker × List EventProposal :=
  let s := s.arbitrated
  let emitted := s.observations
  let code := if (List.range emitted.length).all sink then s.runtimeFailureCode
    else "observation_proposal_failed"
  ({ s with runtimeFailureCode := code }, emitted)

/-! ### Transfer -/

def hasPendingCommit : Bool :=
  !s.dispatchProposals.isEmpty || !s.acceptedDispatches.isEmpty ||
    !s.proposedRejectedDispatches.isEmpty ||
    NpuEngineClass.all.any (fun engine => (s.issueProposals engine).isSome) ||
    !s.completionProposals.isEmpty

/-- `entry.instruction.timestamps.dispatched = epoch.time`. -/
def setDispatched (epoch : Epoch) (entry : NpuIssueEntry) : NpuIssueEntry :=
  { entry with instruction := { entry.instruction with
      timestamps := { entry.instruction.timestamps with dispatched := some epoch.time } } }

/-- `position->instruction.timestamps.issued = epoch.time`. -/
def setIssued (epoch : Epoch) (entry : NpuIssueEntry) : NpuIssueEntry :=
  { entry with instruction := { entry.instruction with
      timestamps := { entry.instruction.timestamps with issued := some epoch.time } } }

/-- The output tiles of an entry become its in the rename table. -/
def rename (producers : TileKey → Option ℕ) (i : NpuInstruction) : TileKey → Option ℕ :=
  i.outputTiles.foldl
    (fun producers tile => Function.update producers (i.blockId, tile) (some i.sequenceId)) producers

def commitDispatch (epoch : Epoch) (s : NpuDependencyTracker) (entry : NpuIssueEntry) :
    NpuDependencyTracker :=
  let engine := entry.instruction.engine
  { s with
    producers := rename s.producers entry.instruction
    usedFlowIds := s.usedFlowIds ∪ (entry.derivedDependencies.map (·.flowId)).toFinset
    acceptedDispatchSequences := insert entry.instruction.sequenceId s.acceptedDispatchSequences
    lastDispatchedSequence := some entry.instruction.sequenceId
    queues := Function.update s.queues engine (s.queues engine ++ [setDispatched epoch entry])
    totalDispatches := s.totalDispatches + 1 }

/-- The entry of a queue that a proposed issue names. -/
def named (proposal entry : NpuIssueEntry) : Bool :=
  entry.instruction.sequenceId == proposal.instruction.sequenceId &&
    entry.stableObjectId == proposal.stableObjectId

def commitIssue (epoch : Epoch) (s : NpuDependencyTracker) (engine : NpuEngineClass) :
    NpuDependencyTracker :=
  match s.issueProposals engine with
  | none => s
  | some proposal =>
    match (s.queues engine).find? (named proposal) with
    | none => { s with runtimeFailureCode := "npu_issue_entry_missing" }
    | some entry =>
      { s with
        outstandingSequences := insert entry.instruction.sequenceId s.outstandingSequences
        issued := s.issued ++ [setIssued epoch entry]
        queues := Function.update s.queues engine ((s.queues engine).eraseP (named proposal))
        totalIssues := s.totalIssues + 1 }

/-- How many queued dependencies wait for a producer. -/
def wakeups (sequenceId : ℕ) : ℕ :=
  ((NpuEngineClass.all.flatMap s.queues).map fun e =>
    e.derivedDependencies.countP fun d => d.producerSequenceId == sequenceId).sum

def commitCompletion (s : NpuDependencyTracker) (sequenceId : ℕ) : NpuDependencyTracker :=
  { s with
    totalDependencyWakeups := s.totalDependencyWakeups + UInt64.ofNat (s.wakeups sequenceId)
    completedSequences := insert sequenceId s.completedSequences
    outstandingSequences := s.outstandingSequences.erase sequenceId }

def doXfer (epoch : Epoch) : NpuDependencyTracker :=
  let changed := s.hasPendingCommit
  let s := { s with
    issued := []
    acceptedDispatchSequences := ∅
    rejectedDispatches := s.proposedRejectedDispatches }
  let s := s.acceptedDispatches.foldl (commitDispatch epoch) s
  let s := { s with
    totalDispatchStalls := s.totalDispatchStalls + UInt64.ofNat s.proposedRejectedDispatches.length }
  let s := NpuEngineClass.all.foldl (commitIssue epoch) s
  let s := { s with issued := insertAll NpuIssueEntry.key [] s.issued }
  let s := s.completionProposals.foldl commitCompletion s
  let queues := fun engine => insertAll NpuIssueEntry.key [] (s.queues engine)
  { s with
    queues := queues
    highWatermarks := fun engine => max (s.highWatermarks engine) (queues engine).length
    dispatchProposals := []
    acceptedDispatches := []
    proposedRejectedDispatches := []
    issueProposals := fun _ => none
    completionProposals := []
    lastUpdate := if changed then epoch else s.lastUpdate }

def reset : NpuDependencyTracker := { capacities := s.capacities }

end NpuDependencyTracker

end AgenticCircuit.Npu
