import AgenticCircuit.Npu.PipelineSteps

/-! # Runs of the execution pipeline

A run is a sequence of proposals, works and epoch ends; an epoch end arbitrates and transfers.  `Log`
is what the run has shown since the last reset: the admitted, the completed and the retired
instructions.

* **`Buffers`**: what a block has admitted is what it has retired and then its reorder buffer.
* **`Flight`**: the executions in flight have units of their own, fit the memory and the scratchpad,
  and wait for an entry of a reorder buffer.
* **`Answered`** and **`Memory`**: the requests are answered or in flight, and the protocol knows
  requests of active executions only. -/

namespace AgenticCircuit.Npu

open List
open Bindings Trace Gfsim

/-- What retirement reads of an instruction. -/
def NpuInstruction.summary (i : NpuInstruction) : ℕ × ℕ × Bytes × List Bytes :=
  (i.sequenceId, i.blockId, i.opcode, i.outputTiles)

/-- An instruction by its block and its place there. -/
def NpuInstruction.place (i : NpuInstruction) : ℕ × ℕ := (i.blockId, i.sequenceId)

theorem NpuInstruction.summary_eq {a b : NpuInstruction} (h : a.identity.equal b.identity = true) :
    a.summary = b.summary := by
  obtain ⟨hsequence, hblock, hopcode, htiles, _⟩ := equal_fields h
  rw [summary, summary, hsequence, hblock, hopcode, htiles]

/-- The instructions of a block. -/
def ofBlock (block : ℕ) (l : List NpuInstruction) : List NpuInstruction :=
  l.filter fun i => i.blockId = block

@[simp] theorem ofBlock_append (block : ℕ) (l m : List NpuInstruction) :
    ofBlock block (l ++ m) = ofBlock block l ++ ofBlock block m := filter_append ..

theorem mem_ofBlock {block : ℕ} {l : List NpuInstruction} {i : NpuInstruction} :
    i ∈ ofBlock block l ↔ i ∈ l ∧ i.blockId = block := by
  simp [ofBlock]

namespace NpuExecutionPipeline

/-- `doArbitrate` and `doXfer` of an epoch, with the answers to their observations. -/
def commit (s : NpuExecutionPipeline) (schedule : Event → Bool) (sink sink' : ℕ → Bool) (epoch : Epoch) :
    NpuExecutionPipeline :=
  ((s.doArbitrate sink).1.doXfer schedule sink' epoch).1

inductive Call where
  | proposeAdmit (instruction : NpuInstruction)
  | proposeExecute (schedule : Event → Bool) (entry : NpuIssueEntry) (issueEpoch : Epoch)
  | proposeTraceExhausted
  | doWork (epoch : Epoch)
  | commit (schedule : Event → Bool) (sink sink' : ℕ → Bool) (epoch : Epoch)
  | reset

def step (s : NpuExecutionPipeline) : Call → NpuExecutionPipeline
  | .proposeAdmit instruction => (s.proposeAdmit instruction).2
  | .proposeExecute schedule entry issueEpoch => (s.proposeExecute schedule entry issueEpoch).2
  | .proposeTraceExhausted => s.proposeTraceExhausted.2
  | .doWork epoch => s.doWork epoch
  | .commit schedule sink sink' epoch => s.commit schedule sink sink' epoch
  | .reset => s.reset

/-- What the calls since the last reset have shown. -/
structure Log where
  admitted : List NpuInstruction := []
  completed : List NpuIssueEntry := []
  /-- The retired instructions in the order of their retirement. -/
  retired : List NpuInstruction := []

/-- The log after a call in the state `s`. -/
def Log.record (log : Log) (s : NpuExecutionPipeline) : Call → Log
  | .commit schedule sink sink' epoch =>
    { admitted := log.admitted ++ (s.doArbitrate sink).1.admissionProposals
      completed := log.completed ++ (s.commit schedule sink sink' epoch).completed
      retired := log.retired ++ ((s.doArbitrate sink).1.transferred schedule epoch).retired }
  | .reset => {}
  | _ => log

/-- A run of calls from the constructed pipeline. -/
inductive Run (id : ObjectId) (config : NpuExecutionConfig) (system : Bool) :
    Log → NpuExecutionPipeline → Prop
  | start : Run id config system {} (construct id config system)
  | call {log s} (call : Call) : Run id config system log s →
      Run id config system (log.record s call) (s.step call)

/-! ### The invariant -/

/-- The reorder buffers, after the admissions `A`, the completions `C` and the retirements `R`. -/
structure Buffers (A : List NpuInstruction) (C : List (ℕ × ℕ)) (R : List NpuInstruction)
    (s : NpuExecutionPipeline) : Prop where
  increasing : ∀ block, ((ofBlock block A).map (·.sequenceId)).Pairwise (· < ·)
  last : ∀ block, s.lastAdmittedSequence block = ((ofBlock block A).map (·.sequenceId)).getLast?
  split : ∀ block, (ofBlock block A).map (·.summary) =
    (ofBlock block R).map (·.summary) ++ (s.rob block).map (·.instruction.summary)
  blocks : ∀ block, s.rob block ≠ [] → block ∈ s.blocks
  apart : ∀ block block', ∀ e ∈ s.rob block, ∀ e' ∈ s.rob block',
    e.instruction.sequenceId = e'.instruction.sequenceId → block = block'
  flagged : ∀ block, ∀ e ∈ s.rob block, e.completed = true →
    (block, e.instruction.sequenceId) ∈ C ∧ e.instruction.sequenceId ∈ s.executedSequences
  done : ∀ i ∈ R, i.place ∈ C

/-- The executions in flight. -/
structure Flight (l : List ActiveExecution) (s : NpuExecutionPipeline) : Prop where
  ids : (l.map (·.sequenceId)).Nodup
  units : (l.map fun a => (a.engine, a.unitIndex)).Nodup
  bounded : ∀ a ∈ l, a.unitIndex < s.config.units a.engine
  memory : (l.filterMap (·.memoryRequest)).length ≤ s.config.memoryRequests
  correlated : ∀ a ∈ l, ∀ request ∈ a.memoryRequest, request.correlationId = a.sequenceId
  ready : ∀ a ∈ l, ¬a.readyEpoch < a.issueEpoch
  backed : ∀ a ∈ l, ∃ block, ∃ e ∈ s.rob block, e.instruction.sequenceId = a.sequenceId ∧
    e.completed = false ∧ e.instruction.identity.equal a.entry.instruction.identity = true
  tiles : (s.scratchpad.map Prod.fst).Nodup
  footprint : ((s.scratchpad.map Prod.fst).toFinset ∪
    (l.flatMap (·.entry.instruction.written)).toFinset).card ≤ s.config.scratchpadTiles

/-- The requests are those with a response and those of active executions. -/
structure Answered (s : NpuExecutionPipeline) : Prop where
  once : (s.memoryRequests.map (·.correlationId)).Nodup
  executed : ∀ request ∈ s.memoryRequests, request.correlationId ∈ s.executedSequences
  answered : (s.memoryRequests.map (·.correlationId)).Perm (s.memoryResponses.map (·.correlationId) ++
    (s.active.filterMap (·.memoryRequest)).map (·.correlationId))

/-- What the loops of a transfer keep, while the executions `pending` are not yet active. -/
structure Moving (A : List NpuInstruction) (C : List (ℕ × ℕ)) (R : List NpuInstruction)
    (pending : List ActiveExecution) (s : NpuExecutionPipeline) : Prop where
  buffers : s.Buffers A C R
  flight : Flight (s.active ++ pending) s
  executed : ∀ a ∈ s.active, a.sequenceId ∈ s.executedSequences
  unexecuted : ∀ a ∈ pending, a.sequenceId ∉ s.executedSequences
  answered : s.Answered
  code : Fine s.runtimeFailureCode
  result : s.result = R.foldl retireResult {}

/-- Instructions that may be admitted after `A`. -/
structure Admissible (A l : List NpuInstruction) (s : NpuExecutionPipeline) : Prop where
  ids : (l.map (·.sequenceId)).Nodup
  younger : ∀ p ∈ l, ∀ i ∈ A, i.blockId = p.blockId → i.sequenceId < p.sequenceId
  fresh : ∀ p ∈ l, ∀ block, ∀ e ∈ s.rob block, e.instruction.sequenceId ≠ p.sequenceId

/-- The request protocol between two transfers. -/
structure Memory (s : NpuExecutionPipeline) : Prop where
  linked : Linked s.config.memoryRequests s.memoryProtocol
  asked : s.memoryProtocol.requestProposals = []
  served : ∀ x ∈ s.memoryProtocol.active, ∃ a ∈ s.active, a.sequenceId = x ∧ a.memoryRequest.isSome
  responses : ∀ x ∈ correlations s.memoryProtocol.committedResponses, x ∈ s.executedSequences
  deliveries : s.deliveryProposals =
    correlations (s.memoryProtocol.committedRequests.take s.memoryProtocol.requestPopCount)
  completing : Completing s.active s.memoryProtocol s.completionProposals

/-- The memory controller between two transfers. -/
structure Controlled (s : NpuExecutionPipeline) : Prop where
  capacity : s.memoryController.totalCapacity = min s.config.memoryRequests (2 ^ 32 - 1)
  proposals : s.memoryController.proposals = []
  accepted : s.memoryController.acceptedProposals = []
  releases : s.memoryController.releaseProposals = []
  executed : ∀ e ∈ s.memoryController.reservations, e.1 ∈ s.executedSequences

structure Invariant (id : ObjectId) (config : NpuExecutionConfig) (log : Log) (s : NpuExecutionPipeline) :
    Prop where
  id : s.id = id
  config : s.config = config
  moving : Moving log.admitted (log.completed.map (·.instruction.place)) log.retired s.executionProposals s
  admissible : Admissible log.admitted s.admissionProposals s
  memory : s.Memory
  controlled : s.Controlled

variable {id : ObjectId} {config : NpuExecutionConfig} {log : Log} {s : NpuExecutionPipeline}
  {A R : List NpuInstruction} {C : List (ℕ × ℕ)} {block sequenceId x : ℕ} {i : NpuInstruction}
  {entry : NpuIssueEntry} {issueEpoch : Epoch} {a : ActiveExecution}

theorem Linked.start (n : ℕ) : Linked n { maxInFlight := n } := ⟨_, .start⟩

theorem Linked.invariant {n : ℕ} {v : RequestResponseLink NpuMemoryRequest NpuMemoryResponse}
    (h : Linked n v) :
    v.Distinct ∧ v.requestPopCount ≤ v.committedRequests.length ∧ v.maxInFlight = n := by
  obtain ⟨log, hrun⟩ := h
  obtain ⟨hinvariant, hmax⟩ := hrun.invariant
  exact ⟨hinvariant.distinct, hinvariant.queued.requestPops, hmax⟩

theorem Invariant.constructed (id : ObjectId) (config : NpuExecutionConfig) (system : Bool)
    {code : String} (hcode : Fine code) :
    Invariant id config {} { construct id config system with runtimeFailureCode := code } where
  id := rfl
  config := rfl
  moving :=
    { buffers := by constructor <;> simp [construct, ofBlock]
      flight := by constructor <;> simp [construct]
      executed := by simp [construct]
      unexecuted := by simp [construct]
      answered := by constructor <;> simp [construct]
      code := hcode
      result := rfl }
  admissible := by constructor <;> simp [construct]
  memory := by
    refine ⟨Linked.start config.memoryRequests, rfl, ?_, ?_, rfl, ?_⟩
    · simp [construct]
    · simp [construct]
    · simp [construct, Completing]
  controlled := by constructor <;> simp [construct]

/-! ### Admission -/

theorem Buffers.lt_of_last (h : s.Buffers A C R)
    (hlast : ∀ last ∈ s.lastAdmittedSequence block, last < sequenceId) (hi : i ∈ A)
    (hblock : i.blockId = block) : i.sequenceId < sequenceId := by
  have hmem : i.sequenceId ∈ (ofBlock block A).map (·.sequenceId) :=
    mem_map_of_mem (mem_ofBlock.mpr ⟨hi, hblock⟩)
  cases hl : ((ofBlock block A).map (·.sequenceId)).getLast? with
  | none =>
    rw [getLast?_eq_none_iff.mp hl] at hmem
    exact absurd hmem not_mem_nil
  | some last =>
    have hle := getLast?_of_pairwise_lt (h.increasing block) hl _ hmem
    exact lt_of_le_of_lt hle (hlast last ((h.last block).trans hl))

theorem Buffers.mem_robEntries (h : s.Buffers A C R) {e : RobEntry} (he : e ∈ s.rob block) :
    e ∈ s.robEntries :=
  mem_flatMap.mpr ⟨block, h.blocks block (ne_nil_of_mem he), he⟩

theorem Invariant.proposeAdmit (h : Invariant id config log s) (i : NpuInstruction) :
    Invariant id config log (s.proposeAdmit i).2 := by
  rcases proposeAdmit_cases s i with hsame | ⟨hnew, hproposals, hlast, hrob⟩
  · rwa [hsame]
  rw [hnew]
  refine ⟨h.id, h.config,
    { h.moving with
      buffers := { h.moving.buffers with }
      flight := { h.moving.flight with }
      answered := { h.moving.answered with } },
    ⟨?_, fun p hp => ?_, fun p hp => ?_⟩, { h.memory with }, { h.controlled with }⟩
  · rw [map_append]
    refine List.Nodup.append h.admissible.ids (nodup_singleton _) fun x hx hx' => ?_
    obtain ⟨p, hp, rfl⟩ := mem_map.mp hx
    exact hproposals p hp (mem_singleton.mp hx')
  · rcases mem_append.mp hp with hp | hp
    · exact h.admissible.younger p hp
    · rw [mem_singleton.mp hp]
      exact fun j hj hblock => h.moving.buffers.lt_of_last hlast hj hblock
  · rcases mem_append.mp hp with hp | hp
    · exact h.admissible.fresh p hp
    · rw [mem_singleton.mp hp]
      exact fun block e he => hrob e (h.moving.buffers.mem_robEntries he)

/-! ### Execution -/

theorem scratchpadContains_iff {tile : Bytes} :
    s.scratchpadContains tile = true ↔ tile ∈ s.scratchpad.map Prod.fst := by
  simp [scratchpadContains]

theorem card_footprint (htiles : (s.scratchpad.map Prod.fst).Nodup) (further : List Bytes) :
    ((s.scratchpad.map Prod.fst).toFinset ∪
        (s.inFlight.flatMap (·.entry.instruction.written) ++ further).toFinset).card =
      s.scratchpad.length + (s.pendingTiles further).card := by
  have hpending : s.pendingTiles further =
      (s.inFlight.flatMap (·.entry.instruction.written) ++ further).toFinset \
        (s.scratchpad.map Prod.fst).toFinset := by
    ext tile
    simp only [pendingTiles, mem_toFinset, mem_filter, Finset.mem_sdiff, Bool.not_eq_true',
      ← scratchpadContains_iff, Bool.not_eq_true]
  have hlength : (s.scratchpad.map Prod.fst).toFinset.card = s.scratchpad.length := by
    rw [toFinset_card_of_nodup htiles, length_map]
  rw [hpending, ← hlength, ← Finset.card_union_of_disjoint Finset.disjoint_sdiff,
    Finset.union_sdiff_self_eq_union]

theorem memoryOccupied_eq : s.memoryOccupied = (s.inFlight.filterMap (·.memoryRequest)).length := by
  unfold memoryOccupied
  induction s.inFlight with
  | nil => rfl
  | cons a l ih =>
    rw [countP_cons, filterMap_cons, ih]
    cases a.memoryRequest <;> simp

theorem exists_of_admitted (h : s.admitted sequenceId = some i) :
    ∃ block, ∃ e ∈ s.rob block, e.instruction = i ∧ i.sequenceId = sequenceId := by
  have hmem := mem_of_getLast? h
  obtain ⟨e, he, rfl⟩ := mem_map.mp hmem
  obtain ⟨he, hsequence⟩ := mem_filter.mp he
  obtain ⟨block, _, he⟩ := mem_flatMap.mp he
  exact ⟨block, e, he, rfl, by simpa using hsequence⟩

theorem Prepared.correlation (h : s.Prepared entry issueEpoch a) : ∀ request ∈ a.memoryRequest,
      request.correlationId = a.sequenceId ∧ s.memoryOccupied < s.config.memoryRequests := by
  intro request hrequest
  rcases memoryRequestOf_ok h.request with hnone | ⟨r, hsome, _, _, hcorrelation, hroom, _⟩
  · rw [hnone] at hrequest
    exact absurd hrequest (by simp)
  · rw [hsome] at hrequest
    cases hrequest
    exact ⟨hcorrelation, hroom⟩

theorem executionLatency_pos (i : NpuInstruction) : 0 < executionLatency i := by
  unfold executionLatency
  split
  · exact Nat.one_pos
  all_goals
    split
    · omega
    · omega

theorem Flight.push (h : Flight s.inFlight s) (hbuffers : s.Buffers A C R)
    (ha : s.Prepared entry issueEpoch a) : Flight (s.inFlight ++ [a]) s := by
  have hlast : ∀ {p : ActiveExecution → Prop}, (∀ b ∈ s.inFlight, p b) → p a →
      ∀ b ∈ s.inFlight ++ [a], p b := by
    intro p hall hp b hb
    rcases mem_append.mp hb with hb | hb
    · exact hall b hb
    · exact mem_singleton.mp hb ▸ hp
  refine ⟨?_, ?_, hlast h.bounded ha.unit, ?_, hlast h.correlated fun r hr => (ha.correlation r hr).1,
    hlast h.ready ?_, hlast h.backed ?_, h.tiles, ?_⟩
  · rw [map_append]
    refine List.Nodup.append h.ids (nodup_singleton _) fun x hx hx' => ?_
    obtain ⟨b, hb, rfl⟩ := mem_map.mp hx
    exact ha.fresh b hb (mem_singleton.mp hx')
  · rw [map_append]
    refine List.Nodup.append h.units (nodup_singleton _) fun x hx hx' => ?_
    obtain ⟨b, hb, rfl⟩ := mem_map.mp hx
    have heq := Prod.mk.inj (mem_singleton.mp hx')
    exact ha.free b (mem_filter.mpr ⟨hb, by simpa using heq.1⟩) heq.2
  · rw [filterMap_append, length_append, ← memoryOccupied_eq]
    have hmemory := h.memory
    rw [← memoryOccupied_eq] at hmemory
    cases hr : a.memoryRequest with
    | none => simpa [hr] using hmemory
    | some request =>
      have hroom := (ha.correlation request hr).2
      simp only [filterMap_cons, hr, filterMap_nil, length_singleton]
      omega
  · rw [ha.ready_eq, ha.issue_eq]
    have hlatency := executionLatency_pos entry.instruction
    intro hlt
    rcases Epoch.lt_def.mp hlt with hlt | ⟨heq, _⟩
    · exact absurd hlt (by simp)
    · have htime : issueEpoch.time + executionLatency entry.instruction = issueEpoch.time := heq
      omega
  · obtain ⟨i, hadmitted, hequal⟩ := ha.admitted
    obtain ⟨block, e, he, rfl, hsequence⟩ := exists_of_admitted hadmitted
    refine ⟨block, e, he, hsequence, ?_, hequal⟩
    -- a completed entry has been executed
    by_contra hcompleted
    have hexecuted := (hbuffers.flagged block e he (by simpa using hcompleted)).2
    exact ha.unexecuted (hsequence ▸ hexecuted)
  · rw [flatMap_append, flatMap_singleton, card_footprint h.tiles]
    exact ha.tiles

theorem Invariant.proposeExecute (h : Invariant id config log s) (schedule : Event → Bool)
    (entry : NpuIssueEntry) (issueEpoch : Epoch) :
    Invariant id config log (s.proposeExecute schedule entry issueEpoch).2 := by
  rcases proposeExecute_cases s schedule entry issueEpoch with ⟨a, ha, hnew⟩ | ⟨stalls, code, hcode, hsame⟩
  · rw [hnew]
    have hflight : Flight (s.active ++ (s.executionProposals ++ [a])) s := by
      rw [← List.append_assoc]
      exact h.moving.flight.push h.moving.buffers ha
    refine ⟨h.id, h.config,
      { h.moving with
        buffers := { h.moving.buffers with }
        flight := { hflight with }
        unexecuted := fun b hb => ?_
        answered := { h.moving.answered with } },
      { h.admissible with }, { h.memory with }, { h.controlled with }⟩
    rcases mem_append.mp hb with hb | hb
    · exact h.moving.unexecuted b hb
    · rw [mem_singleton.mp hb]
      exact ha.unexecuted
  · rw [hsame]
    exact ⟨h.id, h.config,
      { h.moving with
        buffers := { h.moving.buffers with }
        flight := { h.moving.flight with }
        answered := { h.moving.answered with }
        code := hcode h.moving.code },
      { h.admissible with }, { h.memory with }, { h.controlled with }⟩

theorem Invariant.proposeTraceExhausted (h : Invariant id config log s) :
    Invariant id config log s.proposeTraceExhausted.2 := by
  unfold NpuExecutionPipeline.proposeTraceExhausted
  split
  · exact h
  · exact ⟨h.id, h.config,
      { h.moving with
        buffers := { h.moving.buffers with }
        flight := { h.moving.flight with }
        answered := { h.moving.answered with } },
      { h.admissible with }, { h.memory with }, { h.controlled with }⟩

/-! ### Work -/

theorem find_isSome (h : ∃ a ∈ s.active, a.sequenceId = x) : (s.find x).isSome := by
  obtain ⟨a, ha, hx⟩ := h
  exact find?_isSome.mpr ⟨a, ha, by simpa using hx⟩

theorem Memory.found (h : s.Memory) (hx : x ∈ correlations s.memoryProtocol.committedRequests) :
    ∃ a ∈ s.active, a.sequenceId = x := by
  obtain ⟨a, ha, heq, _⟩ := h.served x (h.linked.invariant.1.mem_active.mpr (Or.inl hx))
  exact ⟨a, ha, heq⟩

theorem Invariant.doWork (h : Invariant id config log s) (epoch : Epoch) :
    Invariant id config log (s.doWork epoch) := by
  obtain ⟨drained, hdrained, hdrainedRun⟩ := drainResponses_eq (n := s.config.memoryRequests)
    (s.memoryProtocol.committedResponses.length + 1) s.memoryProtocol
  have hfront : ∀ request ∈ s.memoryProtocol.committedRequests.head?,
      (s.find request.correlationId).isSome := fun request hmem =>
    find_isSome (h.memory.found (mem_map_of_mem (mem_of_mem_head? hmem)))
  obtain ⟨pops, code, hdelivered, _, hcode, hrun⟩ := deliverRequests_eq
    (n := s.config.memoryRequests) epoch (s.memoryProtocol.committedRequests.length + 1)
    { s with memoryProtocol := drainResponses (s.memoryProtocol.committedResponses.length + 1) s.memoryProtocol }
    (by rw [hdrained]; exact h.memory.linked.invariant.2.1) (by rw [hdrained]; exact h.memory.deliveries)
    (by rw [hdrained]; exact hfront)
  have hlinked := hrun (hdrainedRun h.memory.linked)
  obtain ⟨responses, cancellations, completions, code', heq, hcode', hlinked', hcompleting⟩ :=
    foldl_proposeCompletion (n := s.config.memoryRequests) epoch _ (deliverRequests epoch
      (s.memoryProtocol.committedRequests.length + 1)
      { s with memoryProtocol :=
        drainResponses (s.memoryProtocol.committedResponses.length + 1) s.memoryProtocol })
      fun a ha => ha
  unfold NpuExecutionPipeline.doWork
  rw [heq] at hlinked' hcompleting ⊢
  rw [hdelivered] at hlinked' hcompleting hcode' ⊢
  rw [hdrained] at hlinked hlinked' hcompleting ⊢
  exact ⟨h.id, h.config,
    { h.moving with
      buffers := { h.moving.buffers with }
      flight := { h.moving.flight with }
      answered := { h.moving.answered with }
      code := hcode' (hcode h.moving.code) },
    { h.admissible with },
    { h.memory with
      linked := hlinked' hlinked
      deliveries := rfl
      completing := hcompleting h.memory.completing },
    { h.controlled with }⟩

end NpuExecutionPipeline

end AgenticCircuit.Npu
