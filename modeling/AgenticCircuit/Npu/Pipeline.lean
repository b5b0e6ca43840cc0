import AgenticCircuit.Gfsim.Correlation
import AgenticCircuit.Npu.DependencyTracker

/-! # The execution pipeline

`NpuExecutionPipeline` of `gfsim/npu.h`: a reorder buffer for each block, the executions in flight on
the units of four engines, a scratchpad and a global memory behind a request protocol with a
controller.  Admissions, executions, deliveries and completions are proposals; `doXfer` commits them
and retires from the heads of the reorder buffers.

* **Maps.**  `rob` and the other maps are functions, where a missing key reads as an empty list or
  as `none`; `blocks` are the keys of `rob` in order.  `active` is in the order of its keys.  The
  scratchpad, whose size counts, is a list without repeated tiles.
* **Calls out.**  `schedule` answers for the bound system and `sink` for the observation sink; the
  request protocol and the controller have neither. -/

namespace AgenticCircuit.Npu

open Bindings Trace Gfsim

structure NpuExecutionConfig where
  scalarUnits : ℕ := 0
  vectorUnits : ℕ := 0
  cubeUnits : ℕ := 0
  tmaUnits : ℕ := 0
  memoryRequests : ℕ := 0
  scratchpadTiles : ℕ := 0
deriving DecidableEq

/-- `configuredUnits`. -/
def NpuExecutionConfig.units (config : NpuExecutionConfig) : NpuEngineClass → ℕ
  | .scalar => config.scalarUnits
  | .vector => config.vectorUnits
  | .cube => config.cubeUnits
  | .tma => config.tmaUnits

structure NpuMemoryRequest where
  sequenceId : ℕ := 0
  correlationId : ℕ := 0
  address : ℕ := 0
  write : Bool := false
  tileIdentity : Bytes := []
deriving DecidableEq

structure NpuMemoryResponse where
  correlationId : ℕ := 0
  value : ℕ := 0
deriving DecidableEq

structure NpuArchitecturalResult where
  retiredInstructions : UInt64 := 0
  digest : ℕ := 14695981039346656037
  retiredSequenceIds : List ℕ := []
deriving DecidableEq

/-- The instruction stores: its opcode starts with `TSTORE`. -/
def NpuInstruction.isStore (i : NpuInstruction) : Bool := (utf8 "TSTORE").isPrefixOf i.opcode

/-- The tiles an instruction leaves in the scratchpad. -/
def NpuInstruction.written (i : NpuInstruction) : List Bytes :=
  if i.isStore then [] else i.outputTileDescriptors.map (·.identity)

def executionLatency (i : NpuInstruction) : ℕ :=
  match i.engine with
  | .scalar => 1
  | .vector => if i.opcode ∈ ["TEXP", "TLOG", "TSQRT", "TRSQRT"].map utf8 then 3 else 2
  | .cube => if (utf8 "TMATMUL_MX").isPrefixOf i.opcode then 5 else 4
  | .tma => if i.opcode ∈ ["TSTORE", "TSTORE_FP"].map utf8 then 4 else 3

/-- A digit of `std::from_chars` in base sixteen. -/
def hexDigit (c : UInt8) : Option ℕ :=
  let n := c.toNat
  if 48 ≤ n ∧ n ≤ 57 then some (n - 48)
  else if 97 ≤ n ∧ n ≤ 102 then some (n - 87)
  else if 65 ≤ n ∧ n ≤ 70 then some (n - 55)
  else none

/-- `0x` and hexadecimal digits of a 64-bit number. -/
def parseAddress (text : Bytes) : Option ℕ :=
  if text.length < 3 || !(utf8 "0x").isPrefixOf text then none
  else do
    let digits ← (text.drop 2).mapM hexDigit
    let value := digits.foldl (fun value digit => 16 * value + digit) 0
    if value ≤ uint64Max then some value else none

/-- `updateDigest`: the sequence, the block, the opcode and the output tiles. -/
def updateDigest (digest : ℕ) (i : NpuInstruction) : ℕ :=
  let append := fun (digest : ℕ) (bytes : Bytes) => bytes.foldl (fun d b => appendByte d b.toNat) digest
  let digest := appendInteger (appendInteger digest i.sequenceId) i.blockId
  let digest := appendByte (append digest i.opcode) 0
  i.outputTiles.foldl (fun digest tile => appendByte (append digest tile) 0) digest

structure RobEntry where
  instruction : NpuInstruction
  completed : Bool := false

structure ActiveExecution where
  entry : NpuIssueEntry
  issueEpoch : Epoch
  readyEpoch : Epoch
  unitIndex : ℕ := 0
  memoryDelivered : Bool := false
  memoryRequest : Option NpuMemoryRequest := none

namespace ActiveExecution

def sequenceId (a : ActiveExecution) : ℕ := a.entry.instruction.sequenceId

def engine (a : ActiveExecution) : NpuEngineClass := a.entry.instruction.engine

end ActiveExecution

structure NpuExecutionPipeline where
  id : ObjectId
  config : NpuExecutionConfig
  /-- A system is bound. -/
  system : Bool := false
  memoryProtocol : RequestResponseLink NpuMemoryRequest NpuMemoryResponse
  memoryController : Resource
  blocks : List ℕ := []
  rob : ℕ → List RobEntry := fun _ => []
  lastAdmittedSequence : ℕ → Option ℕ := fun _ => none
  admissionProposals : List NpuInstruction := []
  executionProposals : List ActiveExecution := []
  active : List ActiveExecution := []
  deliveryProposals : List ℕ := []
  completionProposals : List ℕ := []
  traceExhaustedProposal : Bool := false
  traceExhausted : Bool := false
  executedSequences : Finset ℕ := ∅
  completed : List NpuIssueEntry := []
  retired : List NpuInstruction := []
  memoryRequests : List NpuMemoryRequest := []
  memoryResponses : List NpuMemoryResponse := []
  scratchpad : List (Bytes × ℕ) := []
  globalMemory : ℕ → Option ℕ := fun _ => none
  result : NpuArchitecturalResult := {}
  unitHighWatermarks : NpuEngineClass → ℕ := fun _ => 0
  totalExecutions : UInt64 := 0
  totalCompletions : UInt64 := 0
  totalUnitStalls : UInt64 := 0
  unitStallProposals : UInt64 := 0
  totalMemoryRequests : UInt64 := 0
  lastUpdate : Epoch := ⟨0, 0⟩
  runtimeFailureCode : String := ""

namespace NpuExecutionPipeline

/-- The constructed pipeline. -/
def construct (id : ObjectId) (config : NpuExecutionConfig) (system : Bool) : NpuExecutionPipeline :=
  { id := id
    config := config
    system := system
    memoryProtocol := { maxInFlight := config.memoryRequests }
    memoryController :=
      { id := kInvalidObjectId
        totalCapacity := min config.memoryRequests (2 ^ 32 - 1) }
    runtimeFailureCode := if 2 ^ 32 - 1 < config.memoryRequests then "npu_memory_capacity_invalid" else "" }

variable (s : NpuExecutionPipeline)

def setRuntimeFailureCode (code : String) : NpuExecutionPipeline := { s with runtimeFailureCode := code }

/-- The entries of every reorder buffer, by block. -/
def robEntries : List RobEntry := s.blocks.flatMap s.rob

def find (sequenceId : ℕ) : Option ActiveExecution := s.active.find? fun a => a.sequenceId = sequenceId

def scratchpadContains (tile : Bytes) : Bool := s.scratchpad.any fun e => e.1 = tile

/-- `scratchpad.at(tile)`: the tile is there. -/
def scratchpadAt (tile : Bytes) : ℕ := (s.scratchpad.lookup tile).getD 0

/-- `map[key] = value` in a map whose order nobody reads. -/
def assign (key : Bytes) (value : ℕ) (entries : List (Bytes × ℕ)) : List (Bytes × ℕ) :=
  (key, value) :: entries.filter fun e => e.1 ≠ key

/-! ### Admission -/

def proposeAdmit (i : NpuInstruction) : Bool × NpuExecutionPipeline :=
  if s.admissionProposals.any (fun candidate => candidate.sequenceId = i.sequenceId) ||
      (s.lastAdmittedSequence i.blockId).any (fun previous => decide (i.sequenceId ≤ previous)) ||
      s.robEntries.any (fun entry => entry.instruction.sequenceId = i.sequenceId) then (false, s)
  else (true, { s with admissionProposals := s.admissionProposals ++ [i] })

/-! ### Execution -/

/-- The executions in flight and those proposed. -/
def inFlight : List ActiveExecution := s.active ++ s.executionProposals

def activeExecutions (engine : NpuEngineClass) : ℕ := s.active.countP fun a => a.engine = engine

/-- The executions that hold a unit of an engine. -/
def holding (engine : NpuEngineClass) : List ActiveExecution := s.inFlight.filter fun a => a.engine = engine

def memoryOccupied : ℕ := s.inFlight.countP fun a => a.memoryRequest.isSome

/-- The loop for a free unit, with the steps it has left. -/
def freeUnit (occupied : List ℕ) : ℕ → ℕ → ℕ
  | 0, unit => unit
  | steps + 1, unit => if unit ∈ occupied then freeUnit occupied steps (unit + 1) else unit

/-- The tiles the executions in flight and a further one will add to the scratchpad. -/
def pendingTiles (further : List Bytes) : Finset Bytes :=
  ((s.inFlight.flatMap (·.entry.instruction.written) ++ further).filter
    fun tile => !s.scratchpadContains tile).toFinset

/-- Why an execution is refused. -/
inductive Refusal where
  | quiet
  | stall
  | failure (code : String)
deriving DecidableEq

/-- The request of a TMA instruction. -/
def memoryRequestOf (i : NpuInstruction) : Except Refusal (Option NpuMemoryRequest) :=
  if i.engine ≠ .tma then .ok none
  else if s.config.memoryRequests ≤ s.memoryOccupied then .error .stall
  else
    let descriptors := if i.isStore then i.outputTileDescriptors else i.inputTileDescriptors
    let tiles := if i.isStore then i.inputTileDescriptors else i.outputTileDescriptors
    match descriptors, tiles with
    | descriptor :: _, tile :: _ =>
      match parseAddress descriptor.address with
      | none => .error (.failure "npu_memory_address_invalid")
      | some address =>
        .ok (some
          { sequenceId := i.sequenceId
            correlationId := i.sequenceId
            address := address
            write := i.isStore
            tileIdentity := tile.identity })
    | _, _ => .error (.failure "npu_memory_descriptor_missing")

/-- The last reorder buffer entry with the sequence. -/
def admitted (sequenceId : ℕ) : Option NpuInstruction :=
  ((s.robEntries.filter fun entry => entry.instruction.sequenceId = sequenceId).map (·.instruction)).getLast?

/-- `kNpuCompletionEvent`, `kNpuMemoryServiceEvent` and `kNpuMemoryCleanupEvent`. -/
def kNpuCompletionEvent : ℕ := 0x4e505501
def kNpuMemoryServiceEvent : ℕ := 0x4e505502
def kNpuMemoryCleanupEvent : ℕ := 0x4e505503

/-- The event of a proposed execution. -/
def wakeEvent (i : NpuInstruction) (issueEpoch readyEpoch : Epoch) : Event :=
  { readyTime := if i.engine = .tma then ⟨issueEpoch.time + 1, 0⟩ else readyEpoch
    targetId := s.id
    eventKind := if i.engine = .tma then kNpuMemoryServiceEvent else kNpuCompletionEvent
    payload := i.sequenceId }

/-- The checks of `proposeExecute` in their order, and the proposal. -/
def prepare (schedule : Event → Bool) (entry : NpuIssueEntry) (issueEpoch : Epoch) :
    Except Refusal ActiveExecution :=
  let i := entry.instruction
  let latency := executionLatency i
  let readyEpoch : Epoch := ⟨issueEpoch.time + latency, 0⟩
  match s.admitted i.sequenceId with
  | none => .error .quiet
  | some admitted =>
    if decide (i.sequenceId ∈ s.executedSequences) ||
        s.inFlight.any (fun a => a.sequenceId = i.sequenceId) then .error .quiet
    else if !admitted.identity.equal i.identity then .error (.failure "npu_execution_identity_mismatch")
    else if s.config.units i.engine ≤ (s.holding i.engine).length then .error .stall
    else if uint64Max - latency < issueEpoch.time then .error (.failure "npu_execution_time_overflow")
    else if s.config.scratchpadTiles < s.scratchpad.length + (s.pendingTiles i.written).card then
      .error .stall
    else if i.isStore && !(i.inputTileDescriptors.head?.any fun tile => s.scratchpadContains tile.identity)
      then .error (.failure "npu_scratchpad_input_missing")
    else
      match s.memoryRequestOf i with
      | .error refusal => .error refusal
      | .ok request =>
        if s.system && !schedule (s.wakeEvent i issueEpoch readyEpoch) then
          .error (.failure "npu_completion_schedule_failed")
        else
          let occupied := (s.holding i.engine).map (·.unitIndex)
          .ok
            { entry := entry
              issueEpoch := issueEpoch
              readyEpoch := readyEpoch
              unitIndex := freeUnit occupied occupied.length 0
              memoryRequest := request }

def proposeExecute (schedule : Event → Bool) (entry : NpuIssueEntry) (issueEpoch : Epoch) :
    Bool × NpuExecutionPipeline :=
  match s.prepare schedule entry issueEpoch with
  | .ok proposal => (true, { s with executionProposals := s.executionProposals ++ [proposal] })
  | .error .quiet => (false, s)
  | .error .stall => (false, { s with unitStallProposals := s.unitStallProposals + 1 })
  | .error (.failure code) => (false, s.setRuntimeFailureCode code)

def proposeTraceExhausted : Bool × NpuExecutionPipeline :=
  if s.traceExhausted || s.traceExhaustedProposal then (false, s)
  else (true, { s with traceExhaustedProposal := true })

/-! ### Work -/

/-- `while (proposePopResponse())`, with the steps it has left. -/
def drainResponses : ℕ → RequestResponseLink NpuMemoryRequest NpuMemoryResponse →
    RequestResponseLink NpuMemoryRequest NpuMemoryResponse
  | 0, v => v
  | steps + 1, v =>
    match v.proposePopResponse with
    | (none, v) => v
    | (some _, v) => drainResponses steps v

/-- The loop that hands out requests.  `peekRequest` is the oldest committed request, which stays
in front until the transfer. -/
def deliverRequests (epoch : Epoch) : ℕ → NpuExecutionPipeline → NpuExecutionPipeline
  | 0, s => s
  | steps + 1, s =>
    match s.memoryProtocol.committedRequests.head? with
    | none => s
    | some request =>
      match s.find request.correlationId with
      | none => s.setRuntimeFailureCode "npu_memory_correlation_missing"
      | some active =>
        if active.issueEpoch.time = uint64Max ∨ epoch.time < active.issueEpoch.time + 1 then s
        else if active.memoryDelivered then
          s.setRuntimeFailureCode "npu_memory_request_delivered_twice"
        else
          match s.memoryProtocol.proposePopRequest with
          | (none, _) => s
          | (some popped, v) =>
            deliverRequests epoch steps { s with
              memoryProtocol := v
              deliveryProposals := s.deliveryProposals ++ [popped.correlationId] }

/-- The value a completed request carries. -/
def requestValue (request : NpuMemoryRequest) (sequenceId : ℕ) : ℕ :=
  if request.write then s.scratchpadAt request.tileIdentity else request.address ^^^ sequenceId

/-- One execution in the loop that proposes completions. -/
def proposeCompletion (epoch : Epoch) (s : NpuExecutionPipeline) (a : ActiveExecution) :
    NpuExecutionPipeline :=
  let push := fun s : NpuExecutionPipeline =>
    { s with completionProposals := s.completionProposals ++ [a.sequenceId] }
  if decide (a.readyEpoch ≠ epoch) || s.completionProposals.contains a.sequenceId then s
  else
    match a.memoryRequest with
    | none => push s
    | some request =>
      if !a.memoryDelivered then s
      else
        let response := s.memoryProtocol.proposeResponse
          ⟨a.sequenceId, s.requestValue request a.sequenceId⟩ a.sequenceId
        let s := { s with memoryProtocol := response.2 }
        if !response.1 then s.setRuntimeFailureCode "npu_memory_response_failed"
        else
          let cancel := s.memoryController.proposeCancel s.id a.sequenceId
          let s := { s with memoryController := cancel.2 }
          if !cancel.1 then s.setRuntimeFailureCode "npu_memory_response_failed" else push s

def doWork (epoch : Epoch) : NpuExecutionPipeline :=
  let v := s.memoryProtocol
  let s := { s with memoryProtocol := drainResponses (v.committedResponses.length + 1) v }
  let s := deliverRequests epoch (v.committedRequests.length + 1) s
  s.active.foldl (proposeCompletion epoch) s

/-! ### Arbitration -/

def admissionKey (i : NpuInstruction) : ℕ ×ₗ ℕ := toLex (i.sequenceId, i.blockId)

/-- The memory side of a proposed execution. -/
def requestMemory (s : NpuExecutionPipeline) (a : ActiveExecution) : NpuExecutionPipeline :=
  match a.memoryRequest with
  | none => s
  | some request =>
    let asked := s.memoryProtocol.proposeRequest request a.sequenceId
    let s := { s with memoryProtocol := asked.2 }
    if !asked.1 then s.setRuntimeFailureCode "npu_memory_request_failed"
    else
      let reserved := s.memoryController.proposeReserve
        { ownerId := s.id
          amount := 1
          issueTime := a.issueEpoch
          readyTime := a.readyEpoch
          transactionId := a.sequenceId
          rootTransactionId := a.sequenceId }
      let s := { s with memoryController := reserved.2 }
      if !reserved.1 then s.setRuntimeFailureCode "npu_memory_request_failed" else s

def executeEvent (a : ActiveExecution) : EventProposal :=
  { category := "instruction"
    name := "execute"
    phase := .complete
    rootSequenceId := some a.sequenceId
    duration := some (executionLatency a.entry.instruction)
    arguments := [⟨"engine", .text a.engine.toString⟩, ⟨"unit_index", .unsigned a.unitIndex⟩] }

def stageEvent (name : String) (sequenceId : ℕ) : EventProposal :=
  { category := "instruction"
    name := name
    rootSequenceId := some sequenceId }

/-- Emit observations; `sink k` is the answer to the `k`-th one. -/
def emit (sink : ℕ → Bool) (events : List EventProposal) : NpuExecutionPipeline :=
  if (List.range events.length).all sink then s
  else s.setRuntimeFailureCode "observation_proposal_failed"

/-- The state before the observations of `doArbitrate`. -/
def arbitrated : NpuExecutionPipeline :=
  let s := { s with
    admissionProposals := insertAll admissionKey [] s.admissionProposals
    executionProposals := insertAll (fun a : ActiveExecution => a.entry.key) [] s.executionProposals }
  let s := s.executionProposals.foldl requestMemory s
  { s with memoryController := s.memoryController.arbitrated }

/-- The observations of `doArbitrate`, from the state before them. -/
def observations : List EventProposal :=
  s.executionProposals.map executeEvent ++ s.completionProposals.map (stageEvent "complete")

def doArbitrate (sink : ℕ → Bool) : NpuExecutionPipeline × List EventProposal :=
  let s := s.arbitrated
  (s.emit sink s.observations, s.observations)

/-! ### Transfer -/

def hasPendingCommit : Bool :=
  !s.admissionProposals.isEmpty || !s.executionProposals.isEmpty || !s.deliveryProposals.isEmpty ||
    !s.completionProposals.isEmpty || s.traceExhaustedProposal || decide (s.unitStallProposals ≠ 0) ||
    s.memoryProtocol.hasPendingCommit || s.memoryController.hasPendingCommit

def robKey (entry : RobEntry) : ℕ := entry.instruction.sequenceId

def commitAdmission (s : NpuExecutionPipeline) (i : NpuInstruction) : NpuExecutionPipeline :=
  { s with
    blocks := insertSet (fun n : ℕ => n) i.blockId s.blocks
    rob := Function.update s.rob i.blockId (insertAll robKey [] (s.rob i.blockId ++ [⟨i, false⟩]))
    lastAdmittedSequence := Function.update s.lastAdmittedSequence i.blockId (some i.sequenceId) }

def commitExecution (s : NpuExecutionPipeline) (a : ActiveExecution) : NpuExecutionPipeline :=
  { s with
    executedSequences := insert a.sequenceId s.executedSequences
    memoryRequests := s.memoryRequests ++ a.memoryRequest.toList
    totalMemoryRequests := s.totalMemoryRequests + UInt64.ofNat a.memoryRequest.toList.length
    active := if (s.find a.sequenceId).isSome then s.active
      else insertKey ActiveExecution.sequenceId a s.active
    totalExecutions := s.totalExecutions + 1 }

def commitDelivery (schedule : Event → Bool) (s : NpuExecutionPipeline) (sequenceId : ℕ) :
    NpuExecutionPipeline :=
  match s.find sequenceId with
  | none => s.setRuntimeFailureCode "npu_memory_correlation_missing"
  | some active =>
    let s := { s with
      active := s.active.map fun a =>
        if a.sequenceId = sequenceId then { a with memoryDelivered := true } else a }
    if s.system && !schedule ⟨active.readyEpoch, s.id, kNpuCompletionEvent, sequenceId, 0⟩ then
      s.setRuntimeFailureCode "npu_completion_schedule_failed"
    else s

/-- `entry.instruction = completed.instruction; entry.completed = true` where the sequence is. -/
def markCompleted (completed : NpuInstruction) (entries : List RobEntry) : List RobEntry :=
  entries.map fun entry =>
    if entry.instruction.sequenceId = completed.sequenceId then ⟨completed, true⟩ else entry

/-- The memory side of a completion. -/
def completeRequest (schedule : Event → Bool) (epoch : Epoch) (sequenceId value : ℕ)
    (s : NpuExecutionPipeline) (request : NpuMemoryRequest) : NpuExecutionPipeline :=
  let s := { s with
    globalMemory := if request.write then Function.update s.globalMemory request.address (some value)
      else s.globalMemory
    memoryResponses := s.memoryResponses ++ [⟨request.correlationId, value⟩] }
  if s.system && (decide (epoch.time = uint64Max) ||
      !schedule ⟨⟨epoch.time + 1, 0⟩, s.id, kNpuMemoryCleanupEvent, sequenceId, 0⟩) then
    s.setRuntimeFailureCode "npu_completion_schedule_failed"
  else s

def commitCompletion (schedule : Event → Bool) (epoch : Epoch) (s : NpuExecutionPipeline)
    (sequenceId : ℕ) : NpuExecutionPipeline :=
  match s.find sequenceId with
  | none => s.setRuntimeFailureCode "npu_completion_correlation_missing"
  | some active =>
    let i := active.entry.instruction
    let instruction := { i with timestamps := { i.timestamps with completed := some epoch.time } }
    let s := { s with rob := fun block => markCompleted instruction (s.rob block) }
    let value := match active.memoryRequest with
      | none => sequenceId
      | some request => s.requestValue request sequenceId
    let s := active.memoryRequest.toList.foldl (completeRequest schedule epoch sequenceId value) s
    { s with
      scratchpad := instruction.written.foldl (fun entries tile => assign tile value entries) s.scratchpad
      completed := s.completed ++ [{ active.entry with instruction := instruction }]
      active := s.active.filter fun a => a.sequenceId ≠ sequenceId
      totalCompletions := s.totalCompletions + 1 }

/-- `instruction.timestamps.retired = epoch.time` -/
def setRetired (epoch : Epoch) (i : NpuInstruction) : NpuInstruction :=
  { i with timestamps := { i.timestamps with retired := some epoch.time } }

def retireResult (result : NpuArchitecturalResult) (i : NpuInstruction) : NpuArchitecturalResult :=
  { retiredInstructions := result.retiredInstructions + 1
    digest := updateDigest result.digest i
    retiredSequenceIds := result.retiredSequenceIds ++ [i.sequenceId] }

/-- The completed entries at the head of the reorder buffer of a block leave it. -/
def retireBlock (epoch : Epoch) (s : NpuExecutionPipeline) (block : ℕ) : NpuExecutionPipeline :=
  let done := ((s.rob block).takeWhile (·.completed)).map fun entry => setRetired epoch entry.instruction
  { s with
    rob := Function.update s.rob block ((s.rob block).dropWhile (·.completed))
    result := done.foldl retireResult s.result
    retired := s.retired ++ done }

def retiredKey (i : NpuInstruction) : ℕ ×ₗ ℕ := toLex (i.blockId, i.sequenceId)

/-- The state before the observations of `doXfer`, with the instructions in the order of their
retirement. -/
def transferred (schedule : Event → Bool) (epoch : Epoch) : NpuExecutionPipeline :=
  let s := { s with
    completed := []
    retired := []
    memoryProtocol := s.memoryProtocol.doXfer epoch
    memoryController := s.memoryController.doXfer epoch }
  let s := s.admissionProposals.foldl commitAdmission s
  let s := s.executionProposals.foldl commitExecution s
  let s := s.deliveryProposals.foldl (commitDelivery schedule) s
  let s := (insertAll (fun n : ℕ => n) [] s.completionProposals).foldl (commitCompletion schedule epoch) s
  let s := { s with completed := insertAll NpuIssueEntry.key [] s.completed }
  s.blocks.foldl (retireBlock epoch) s

def doXfer (schedule : Event → Bool) (sink : ℕ → Bool) (epoch : Epoch) :
    NpuExecutionPipeline × List EventProposal :=
  let changed := s.hasPendingCommit
  let s := s.transferred schedule epoch
  let emitted := s.retired.map fun i => stageEvent "retire" i.sequenceId
  let s := s.emit sink emitted
  ({ s with
    retired := insertAll retiredKey [] s.retired
    traceExhausted := s.traceExhausted || s.traceExhaustedProposal
    totalUnitStalls := s.totalUnitStalls + s.unitStallProposals
    unitHighWatermarks := fun engine => max (s.unitHighWatermarks engine) (s.activeExecutions engine)
    admissionProposals := []
    executionProposals := []
    deliveryProposals := []
    completionProposals := []
    traceExhaustedProposal := false
    unitStallProposals := 0
    lastUpdate := if changed then epoch else s.lastUpdate }, emitted)

/-! ### Queries -/

/-- Nothing is admitted, executing or proposed, the memory is quiet and the trace is exhausted. -/
def complete : Bool :=
  let v := s.memoryProtocol
  let c := s.memoryController
  s.traceExhausted && s.active.isEmpty && s.admissionProposals.isEmpty && s.executionProposals.isEmpty &&
    !s.hasPendingCommit && s.robEntries.isEmpty &&
    (decide (v.active = ∅) && v.requestProposals.isEmpty && v.responseProposals.isEmpty &&
      v.committedRequests.isEmpty && v.committedResponses.isEmpty && !v.hasPendingCommit) &&
    (c.reservations.isEmpty && c.proposals.isEmpty && c.acceptedProposals.isEmpty &&
      c.releaseProposals.isEmpty && c.cancellationProposals.isEmpty &&
      c.proposedRejectedTransactions.isEmpty)

def reset : NpuExecutionPipeline :=
  { construct s.id s.config s.system with runtimeFailureCode := "" }

end NpuExecutionPipeline

end AgenticCircuit.Npu
