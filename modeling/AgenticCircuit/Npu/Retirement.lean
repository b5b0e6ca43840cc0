import AgenticCircuit.Npu.PipelineTransfer

/-! # Retirement in order

What a run of the execution pipeline promises: a block retires what it has admitted, in order and
completed, within the units, the scratchpad and the memory, and without a lost correlation
(`Run.retires_in_order`).  Two complete runs that admitted the same instructions of one block give
the same result, whatever their units were. -/

namespace AgenticCircuit.Npu

open List NpuInstruction
open Bindings Trace Gfsim

namespace NpuExecutionPipeline

variable {id : ObjectId} {config : NpuExecutionConfig} {system : Bool} {log : Log}
  {s : NpuExecutionPipeline} {A R : List NpuInstruction} {C : List (ℕ × ℕ)}

/-- What holds in every state of a run. -/
structure Orderly (config : NpuExecutionConfig) (log : Log) (s : NpuExecutionPipeline) : Prop where
  increasing : ∀ block, ((ofBlock block log.admitted).map (·.sequenceId)).Pairwise (· < ·)
  retired : ∀ block, (ofBlock block log.retired).map (·.sequenceId) <+:
    (ofBlock block log.admitted).map (·.sequenceId)
  /-- A retired instruction and the older ones of its block have completed. -/
  completed : ∀ i ∈ log.retired, ∀ j ∈ log.admitted, j.blockId = i.blockId →
    j.sequenceId ≤ i.sequenceId → ∃ e ∈ log.completed, e.instruction.place = j.place
  units : ∀ engine, ((s.active.filter fun a => a.engine = engine).map (·.unitIndex)).Nodup ∧
    ∀ a ∈ s.active, a.engine = engine → a.unitIndex < config.units engine
  tiles : (s.scratchpad.map Prod.fst).Nodup ∧
    s.scratchpad.length + (s.pendingTiles []).card ≤ config.scratchpadTiles
  inFlight : s.memoryProtocol.inFlight ≤ config.memoryRequests ∧ s.memoryOccupied ≤ config.memoryRequests
  requests : (s.memoryRequests.map (·.correlationId)).Nodup
  /-- The requests are those with a response and those in flight. -/
  responses : (s.memoryRequests.map (·.correlationId)).Perm (s.memoryResponses.map (·.correlationId) ++
    (s.active.filterMap (·.memoryRequest)).map (·.correlationId))
  code : Fine s.runtimeFailureCode

variable {i j : NpuInstruction} {result : NpuArchitecturalResult}

theorem Buffers.retired_older (h : s.Buffers A C R) (hi : i ∈ R) (hj : j ∈ A)
    (hblock : j.blockId = i.blockId) (hle : j.sequenceId ≤ i.sequenceId) : j.place ∈ C := by
  have hsequences := h.sequences i.blockId
  have hincreasing := h.increasing i.blockId
  have hmem : j.sequenceId ∈ (ofBlock i.blockId A).map (·.sequenceId) :=
    mem_map_of_mem (mem_ofBlock.mpr ⟨hj, hblock⟩)
  rw [hsequences] at hmem hincreasing
  rcases mem_append.mp hmem with hmem | hmem
  · obtain ⟨k, hk, hid⟩ := mem_map.mp hmem
    obtain ⟨hk, hkblock⟩ := mem_ofBlock.mp hk
    have hplace : k.place = j.place := by
      rw [place, place, hkblock, hblock, hid]
    exact hplace ▸ h.done k hk
  · -- what is in the reorder buffer is younger than what has retired
    have hlt := (pairwise_append.mp hincreasing).2.2 i.sequenceId
      (mem_map_of_mem (mem_ofBlock.mpr ⟨hi, rfl⟩)) j.sequenceId hmem
    omega

theorem Flight.nodup_units {l : List ActiveExecution} (h : Flight l s) (engine : NpuEngineClass) :
    ((l.filter fun a => a.engine = engine).map (·.unitIndex)).Nodup := by
  refine List.Nodup.map_on (fun a ha b hb heq => ?_) ((List.Nodup.of_map _ h.ids).filter _)
  obtain ⟨ha, haengine⟩ := mem_filter.mp ha
  obtain ⟨hb, hbengine⟩ := mem_filter.mp hb
  simp only [decide_eq_true_eq] at haengine hbengine
  exact inj_on_of_nodup_map h.units ha hb (Prod.ext (haengine.trans hbengine.symm) heq)

theorem Invariant.orderly (h : Invariant id config log s) : Orderly config log s := by
  have hflight := h.moving.flight
  have hactive : Flight s.active s := by
    have hsub : s.active.Sublist (s.active ++ s.executionProposals) := sublist_append_left _ _
    exact {
      hflight with
      ids := hflight.ids.sublist (hsub.map _)
      units := hflight.units.sublist (hsub.map _)
      bounded := fun a ha => hflight.bounded a (hsub.subset ha)
      memory := ((hsub.filterMap _).length_le).trans hflight.memory
      correlated := fun a ha => hflight.correlated a (hsub.subset ha)
      ready := fun a ha => hflight.ready a (hsub.subset ha)
      backed := fun a ha => hflight.backed a (hsub.subset ha)
      footprint := by
        refine (Finset.card_le_card (Finset.union_subset_union_right fun tile htile => ?_)).trans
          hflight.footprint
        rw [mem_toFinset] at htile ⊢
        obtain ⟨a, ha, htile⟩ := mem_flatMap.mp htile
        exact mem_flatMap.mpr ⟨a, hsub.subset ha, htile⟩ }
  obtain ⟨hdistinct, _, hmax⟩ := h.memory.linked.invariant
  refine ⟨h.moving.buffers.increasing, fun block => ?_, fun i hi j hj hblock hle => ?_, fun engine =>
    ⟨hactive.nodup_units engine, fun a ha hengine => ?_⟩, ⟨hactive.tiles, ?_⟩, ⟨?_, ?_⟩,
    h.moving.answered.once, h.moving.answered.answered, h.moving.code⟩
  · rw [h.moving.buffers.sequences block]
    exact prefix_append _ _
  · obtain ⟨e, he, hplace⟩ := mem_map.mp (h.moving.buffers.retired_older hi hj hblock hle)
    exact ⟨e, he, hplace⟩
  · have hbound := hactive.bounded a ha
    rwa [hengine, h.config] at hbound
  · have hfootprint := hflight.footprint
    rw [← card_footprint hactive.tiles, List.append_nil, ← h.config]
    exact hfootprint
  · have hbound := hdistinct.bound
    rw [hmax, h.config] at hbound
    show s.memoryProtocol.active.card ≤ config.memoryRequests
    omega
  · rw [memoryOccupied_eq, ← h.config]
    exact hflight.memory

/-! ### The architectural result -/

theorem retireResult_eq (h : i.summary = j.summary) :
    retireResult result i = retireResult result j := by
  simp only [summary, Prod.mk.injEq] at h
  obtain ⟨hsequence, hblock, hopcode, htiles⟩ := h
  simp only [retireResult, updateDigest, hsequence, hblock, hopcode, htiles]

theorem foldl_retireResult {l l' : List NpuInstruction}
    (h : l.map (·.summary) = l'.map (·.summary)) :
    l.foldl retireResult result = l'.foldl retireResult result := by
  induction l generalizing l' result with
  | nil =>
    rw [map_nil, eq_comm, map_eq_nil_iff] at h
    rw [h]
  | cons i l ih =>
    cases l' with
    | nil => exact absurd h (by simp)
    | cons j l' =>
      rw [map_cons, map_cons, List.cons.injEq] at h
      rw [foldl_cons, foldl_cons, retireResult_eq h.1]
      exact ih h.2

theorem Buffers.retired_all (h : s.Buffers A C R) {block : ℕ} (hblock : ∀ i ∈ A, i.blockId = block)
    (hcomplete : s.complete = true) : A.map (·.summary) = R.map (·.summary) := by
  have hrob : s.rob block = [] := by
    by_contra hne
    obtain ⟨e, he⟩ := exists_mem_of_ne_nil _ hne
    have hempty : s.robEntries = [] := by
      simp only [NpuExecutionPipeline.complete, Bool.and_eq_true, List.isEmpty_iff] at hcomplete
      exact hcomplete.1.1.2
    exact absurd (h.mem_robEntries he) (by rw [hempty]; exact not_mem_nil)
  have hadmitted : ofBlock block A = A := filter_eq_self.mpr fun i hi => by simpa using hblock i hi
  have hretired : ofBlock block R = R := by
    refine filter_eq_self.mpr fun i hi => ?_
    have hmem : i.summary ∈ (ofBlock i.blockId A).map (·.summary) := by
      rw [h.split]
      exact mem_append_left _ (mem_map_of_mem (mem_ofBlock.mpr ⟨hi, rfl⟩))
    obtain ⟨j, hj, _⟩ := mem_map.mp hmem
    obtain ⟨hj, hjblock⟩ := mem_ofBlock.mp hj
    simpa [hjblock] using hblock j hj
  have hsplit := h.split block
  rwa [hrob, hadmitted, hretired, map_nil, List.append_nil] at hsplit

/-- Every state of a run is orderly, and complete runs of one block give one result. -/
theorem Run.retires_in_order (h : Run id config system log s) (hid : id ≠ kInvalidObjectId) :
    Orderly config log s ∧ ∀ id' config' system' log' s', Run id' config' system' log' s' →
      id' ≠ kInvalidObjectId → ∀ block, (∀ i ∈ log.admitted, i.blockId = block) →
      log'.admitted.map (·.summary) = log.admitted.map (·.summary) → s.complete = true →
      s'.complete = true → s'.result = s.result := by
  have hinvariant := h.invariant hid
  refine ⟨hinvariant.orderly, fun id' config' system' log' s' h' hid' block hblock hsame hs hs' => ?_⟩
  have hinvariant' := h'.invariant hid'
  have hblock' : ∀ i ∈ log'.admitted, i.blockId = block := by
    intro i hi
    have hmem : i.summary ∈ log.admitted.map (·.summary) := by
      rw [← hsame]
      exact mem_map_of_mem hi
    obtain ⟨j, hj, hsummary⟩ := mem_map.mp hmem
    have hjblock : j.blockId = i.blockId := congrArg (fun p => p.2.1) hsummary
    rw [← hjblock, hblock j hj]
  rw [hinvariant.moving.result, hinvariant'.moving.result]
  refine foldl_retireResult ?_
  rw [← hinvariant.moving.buffers.retired_all hblock hs,
    ← hinvariant'.moving.buffers.retired_all hblock' hs', hsame]

/-! ### Runs on fixed inputs -/

/-- The state and the log after a list of calls, the last one first. -/
def afterCalls (config : NpuExecutionConfig) : List Call → Log × NpuExecutionPipeline
  | [] => ({}, construct 1 config false)
  | call :: calls =>
    let before := afterCalls config calls
    (before.1.record before.2 call, before.2.step call)

theorem run_afterCalls (config : NpuExecutionConfig) : ∀ calls : List Call,
    Run 1 config false (afterCalls config calls).1 (afterCalls config calls).2
  | [] => .start
  | call :: calls => .call call (run_afterCalls config calls)

def tileDescriptor (identity : Bytes) : NpuTileDescriptor := ⟨identity, utf8 "0x10", utf8 "f32", utf8 "row", []⟩

/-- A load into the tile `1`, and an addition of it to the tile `2`. -/
def load : NpuInstruction :=
  { sequenceId := 0
    opcode := utf8 "TLOAD"
    engine := .tma
    outputTiles := [[49]]
    inputTileDescriptors := [tileDescriptor [48]]
    outputTileDescriptors := [tileDescriptor [49]] }

def addition : NpuInstruction :=
  { sequenceId := 1
    opcode := utf8 "TADD"
    engine := .vector
    inputTiles := [[49]]
    outputTiles := [[50]]
    inputTileDescriptors := [tileDescriptor [49]]
    outputTileDescriptors := [tileDescriptor [50]] }

def oneUnit : NpuExecutionConfig :=
  { vectorUnits := 1
    tmaUnits := 1
    memoryRequests := 1
    scratchpadTiles := 2 }

def twoUnits : NpuExecutionConfig :=
  { vectorUnits := 2
    tmaUnits := 2
    memoryRequests := 2
    scratchpadTiles := 2 }

def close (time : ℕ) : Call := .commit (fun _ => true) (fun _ => true) (fun _ => true) ⟨time, 0⟩

def execute (i : NpuInstruction) (time : ℕ) : Call := .proposeExecute (fun _ => true) ⟨i, 7, []⟩ ⟨time, 0⟩

/-- The load and the addition execute one after the other. -/
def oneByOne : List Call :=
  [close 9, .proposeTraceExhausted, close 8, .doWork ⟨8, 0⟩, close 7, .doWork ⟨7, 0⟩, close 5,
    execute addition 5, close 4, .doWork ⟨4, 0⟩, close 2, .doWork ⟨2, 0⟩, close 1, execute load 1, close 0,
    .proposeAdmit addition, .proposeAdmit load]

/-- The addition completes before the load. -/
def outOfOrder : List Call :=
  [close 9, .proposeTraceExhausted, close 5, .doWork ⟨5, 0⟩, close 4, .doWork ⟨4, 0⟩, close 3,
    .doWork ⟨3, 0⟩, close 2, .doWork ⟨2, 0⟩, close 1, execute addition 1, execute load 1, close 0,
    .proposeAdmit addition, .proposeAdmit load]

/-- Both runs retire the load and then the addition. -/
theorem retires_in_order_twice :
    ((afterCalls oneUnit oneByOne).1.completed.map (·.instruction.sequenceId) = [0, 1] ∧
      (afterCalls twoUnits outOfOrder).1.completed.map (·.instruction.sequenceId) = [1, 0] ∧
      (afterCalls twoUnits outOfOrder).2.result.retiredSequenceIds = [0, 1]) ∧
    Orderly oneUnit (afterCalls oneUnit oneByOne).1 (afterCalls oneUnit oneByOne).2 ∧
      (afterCalls twoUnits outOfOrder).2.result = (afterCalls oneUnit oneByOne).2.result := by
  obtain ⟨horderly, hresult⟩ := (run_afterCalls oneUnit oneByOne).retires_in_order (by decide)
  refine ⟨by decide +kernel, horderly, ?_⟩
  exact hresult 1 twoUnits false _ _ (run_afterCalls twoUnits outOfOrder) (by decide) 0
    (by decide +kernel) (by decide +kernel) (by decide +kernel) (by decide +kernel)

/-! ### Calls in any order -/

/-- The calls one by one. -/
inductive FreeCall where
  | proposeAdmit (instruction : NpuInstruction)
  | proposeExecute (schedule : Event → Bool) (entry : NpuIssueEntry)
  | doWork
  | doArbitrate (sink : ℕ → Bool)
  | doXfer (schedule : Event → Bool) (sink : ℕ → Bool)

def freeStep (s : NpuExecutionPipeline) (epoch : Epoch) : FreeCall → NpuExecutionPipeline
  | .proposeAdmit instruction => (s.proposeAdmit instruction).2
  | .proposeExecute schedule entry => (s.proposeExecute schedule entry epoch).2
  | .doWork => s.doWork epoch
  | .doArbitrate sink => (s.doArbitrate sink).1
  | .doXfer schedule sink => (s.doXfer schedule sink epoch).1

/-- A sequence of calls with epochs that do not decrease; the last epoch is an index. -/
inductive FreeRun (id : ObjectId) (config : NpuExecutionConfig) (system : Bool) :
    Epoch → NpuExecutionPipeline → Prop
  | start (epoch : Epoch) : FreeRun id config system epoch (construct id config system)
  | call {epoch epoch' s} (call : FreeCall) : FreeRun id config system epoch s → epoch ≤ epoch' →
      FreeRun id config system epoch' (s.freeStep epoch' call)

/-- The state after a list of calls with the times they are made at, the last one first. -/
def afterFree (config : NpuExecutionConfig) : List (ℕ × FreeCall) → NpuExecutionPipeline
  | [] => construct 1 config false
  | (time, call) :: calls => (afterFree config calls).freeStep ⟨time, 0⟩ call

theorem freeRun_afterFree (config : NpuExecutionConfig) : ∀ calls : List (ℕ × FreeCall),
    (calls.map Prod.fst).Pairwise (· ≥ ·) →
      FreeRun 1 config false ⟨(calls.map Prod.fst).headD 0, 0⟩ (afterFree config calls)
  | [], _ => .start _
  | (time, call) :: calls, h => by
    obtain ⟨hfirst, hrest⟩ := pairwise_cons.mp h
    refine .call call (freeRun_afterFree config calls hrest) ?_
    have hle : (calls.map Prod.fst).headD 0 ≤ time := by
      cases hcalls : calls.map Prod.fst with
      | nil => exact Nat.zero_le time
      | cons t _ => exact hfirst t (hcalls ▸ mem_cons_self)
    rcases Nat.lt_or_eq_of_le hle with hlt | heq
    · exact Or.inl hlt
    · exact Or.inr ⟨heq, le_rfl⟩

/-- An instruction of the scalar unit. -/
def scalar (sequenceId : ℕ) : NpuInstruction := { sequenceId := sequenceId }

def executeAt (i : NpuInstruction) : FreeCall := .proposeExecute (fun _ => true) ⟨i, 7, []⟩

def arbitrate : FreeCall := .doArbitrate fun _ => true

def transfer : FreeCall := .doXfer (fun _ => true) fun _ => true

/-- A load is proposed and arbitrated twice. -/
def arbitratedTwice : List (ℕ × FreeCall) :=
  [(1, arbitrate), (1, arbitrate), (1, executeAt load), (0, transfer), (0, arbitrate),
    (0, .proposeAdmit load)]

/-- Two admissions are transferred in the order of their proposals, and a third one after they have
retired. -/
def neverArbitrated : List (ℕ × FreeCall) :=
  [(5, transfer), (5, .doWork), (4, transfer), (4, executeAt (scalar 4)), (3, transfer),
    (3, .proposeAdmit (scalar 4)), (2, transfer), (2, .doWork), (1, transfer), (1, executeAt (scalar 5)),
    (1, executeAt (scalar 3)), (0, transfer), (0, .proposeAdmit (scalar 3)), (0, .proposeAdmit (scalar 5))]

def twoScalars : NpuExecutionConfig := { scalarUnits := 2 }

/-- A request that is arbitrated twice is refused, and admissions that are not arbitrated retire out
of order. -/
theorem arbitration_out_of_step :
    (¬∀ (id : ObjectId) (config : NpuExecutionConfig) (system : Bool) (epoch : Epoch)
      (s : NpuExecutionPipeline), id ≠ kInvalidObjectId → FreeRun id config system epoch s →
        Fine s.runtimeFailureCode) ∧
    FreeRun 1 twoScalars false ⟨5, 0⟩ (afterFree twoScalars neverArbitrated) ∧
      (afterFree twoScalars neverArbitrated).result.retiredSequenceIds = [3, 5, 4] := by
  refine ⟨fun h => ?_, freeRun_afterFree twoScalars neverArbitrated (by decide), by decide +kernel⟩
  have hrun := freeRun_afterFree oneUnit arbitratedTwice (by decide)
  exact absurd (h 1 oneUnit false _ _ (by decide) hrun) (by decide +kernel)

end NpuExecutionPipeline

end AgenticCircuit.Npu
