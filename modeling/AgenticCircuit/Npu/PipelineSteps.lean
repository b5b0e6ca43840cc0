import AgenticCircuit.Npu.Pipeline
import AgenticCircuit.Npu.TrackerSteps

/-! # What the methods of the pipeline do

One lemma for each method and each loop of a method: what an accepted execution has passed
(`prepare_ok`), and the states after the loops of `doWork`, `doArbitrate` and `doXfer`. -/

namespace AgenticCircuit.Npu

open List
open Bindings Trace Gfsim

namespace NpuExecutionPipeline

variable {s : NpuExecutionPipeline}

/-- The failure codes that are ruled out. -/
def Fine (code : String) : Prop :=
  code ≠ "npu_memory_request_failed" ∧ code ≠ "npu_memory_correlation_missing" ∧
    code ≠ "npu_completion_correlation_missing"

instance (code : String) : Decidable (Fine code) := inferInstanceAs (Decidable (_ ∧ _))

/-! ### Units -/

variable {i : NpuInstruction} {schedule : Event → Bool} {entry : NpuIssueEntry} {issueEpoch : Epoch}
    {code : String}

/-- The loop passes occupied units only. -/
theorem freeUnit_spec (occupied : List ℕ) : ∀ steps unit, unit ≤ freeUnit occupied steps unit ∧
    freeUnit occupied steps unit ≤ unit + steps ∧
    (∀ u, unit ≤ u → u < freeUnit occupied steps unit → u ∈ occupied) ∧
    (freeUnit occupied steps unit ∈ occupied → freeUnit occupied steps unit = unit + steps)
  | 0, unit => by
    simp only [freeUnit, Nat.add_zero, le_refl, implies_true, and_true, true_and]
    exact fun u hle hlt => absurd hlt (not_lt.mpr hle)
  | steps + 1, unit => by
    unfold freeUnit
    split
    · rename_i hmem
      obtain ⟨hle, hbound, hpassed, hend⟩ := freeUnit_spec occupied steps (unit + 1)
      refine ⟨by omega, by omega, fun u hu hlt => ?_, fun h => by rw [hend h]; omega⟩
      rcases Nat.eq_or_lt_of_le hu with rfl | hu
      · exact hmem
      · exact hpassed u hu hlt
    · rename_i hnot
      exact ⟨le_rfl, by omega, fun u hle hlt => absurd hlt (not_lt.mpr hle), fun h => absurd h hnot⟩

theorem freeUnit_not_mem (occupied : List ℕ) : freeUnit occupied occupied.length 0 ∉ occupied := by
  intro hmem
  obtain ⟨_, _, hpassed, hend⟩ := freeUnit_spec occupied occupied.length 0
  have hall : List.range (occupied.length + 1) ⊆ occupied := by
    intro u hu
    rcases Nat.lt_succ_iff_lt_or_eq.mp (mem_range.mp hu) with hlt | rfl
    · exact hpassed u (Nat.zero_le u) (by rw [hend hmem]; omega)
    · have heq := hend hmem
      rw [Nat.zero_add] at heq
      rwa [heq] at hmem
  have hlength := (nodup_range.subperm hall).length_le
  rw [length_range] at hlength
  omega

theorem freeUnit_le (occupied : List ℕ) :
    freeUnit occupied occupied.length 0 ≤ occupied.length := by
  have hbound := (freeUnit_spec occupied occupied.length 0).2.1
  omega

/-! ### Admission and execution -/

theorem proposeAdmit_cases (s : NpuExecutionPipeline) (i : NpuInstruction) :
    (s.proposeAdmit i).2 = s ∨
      (s.proposeAdmit i).2 = { s with admissionProposals := s.admissionProposals ++ [i] } ∧
        (∀ p ∈ s.admissionProposals, p.sequenceId ≠ i.sequenceId) ∧
        (∀ last ∈ s.lastAdmittedSequence i.blockId, last < i.sequenceId) ∧
        ∀ entry ∈ s.robEntries, entry.instruction.sequenceId ≠ i.sequenceId := by
  unfold proposeAdmit
  split
  · exact Or.inl rfl
  · rename_i hfree
    simp only [Bool.or_eq_true, not_or, any_eq_true, decide_eq_true_eq, not_exists, not_and] at hfree
    obtain ⟨⟨hproposals, hlast⟩, hrob⟩ := hfree
    refine Or.inr ⟨rfl, hproposals, fun last hmem => ?_, hrob⟩
    rw [Option.mem_def] at hmem
    simpa [hmem] using hlast

theorem memoryRequestOf_ok {request : Option NpuMemoryRequest}
    (h : s.memoryRequestOf i = .ok request) :
    request = none ∨ ∃ r, request = some r ∧ i.engine = .tma ∧ r.sequenceId = i.sequenceId ∧
      r.correlationId = i.sequenceId ∧ s.memoryOccupied < s.config.memoryRequests ∧
      r.write = i.isStore ∧ (r.write = true → ∃ tile, i.inputTileDescriptors.head? = some tile ∧
        r.tileIdentity = tile.identity) ∧
      ∃ descriptor, (if i.isStore then i.outputTileDescriptors else i.inputTileDescriptors).head? =
        some descriptor ∧ parseAddress descriptor.address = some r.address := by
  unfold memoryRequestOf at h
  split at h
  · exact Or.inl (Except.ok.inj h).symm
  · rename_i htma
    split at h
    · cases h
    · rename_i hroom
      dsimp only at h
      split at h
      · rename_i descriptor descriptors tile tiles hdescriptors htiles
        split at h
        · cases h
        · rename_i address haddress
          refine Or.inr ⟨_, (Except.ok.inj h).symm, not_not.mp htma, rfl, rfl, not_le.mp hroom, rfl, ?_, ?_⟩
          · intro hstore
            rw [if_pos hstore] at htiles
            exact ⟨tile, by rw [htiles]; rfl, rfl⟩
          · exact ⟨descriptor, by rw [hdescriptors]; rfl, haddress⟩
      · cases h

/-- What an accepted execution has passed. -/
structure Prepared (s : NpuExecutionPipeline) (entry : NpuIssueEntry) (issueEpoch : Epoch)
    (a : ActiveExecution) : Prop where
  entry_eq : a.entry = entry
  issue_eq : a.issueEpoch = issueEpoch
  ready_eq : a.readyEpoch = ⟨issueEpoch.time + executionLatency entry.instruction, 0⟩
  undelivered : a.memoryDelivered = false
  admitted : ∃ i, s.admitted a.sequenceId = some i ∧ i.identity.equal a.entry.instruction.identity
  unexecuted : a.sequenceId ∉ s.executedSequences
  fresh : ∀ b ∈ s.inFlight, b.sequenceId ≠ a.sequenceId
  unit : a.unitIndex < s.config.units a.engine
  free : ∀ b ∈ s.holding a.engine, b.unitIndex ≠ a.unitIndex
  tiles : s.scratchpad.length + (s.pendingTiles a.entry.instruction.written).card ≤ s.config.scratchpadTiles
  store : a.entry.instruction.isStore = true → ∃ tile,
    a.entry.instruction.inputTileDescriptors.head? = some tile ∧ s.scratchpadContains tile.identity
  request : s.memoryRequestOf a.entry.instruction = .ok a.memoryRequest

theorem prepare_ok {a : ActiveExecution} (h : s.prepare schedule entry issueEpoch = .ok a) :
    s.Prepared entry issueEpoch a := by
  unfold prepare at h
  dsimp only at h
  split at h
  · cases h
  rename_i admitted hadmitted
  split at h
  · cases h
  rename_i hfresh
  split at h
  · cases h
  rename_i hidentity
  split at h
  · cases h
  rename_i hunits
  split at h
  · cases h
  split at h
  · cases h
  rename_i htiles
  split at h
  · cases h
  rename_i hstore
  split at h
  · cases h
  rename_i request hrequest
  split at h
  · cases h
  simp only [Bool.or_eq_true, decide_eq_true_eq, not_or, any_eq_true, not_exists, not_and] at hfresh
  have hlength : ((s.holding entry.instruction.engine).map (·.unitIndex)).length =
      (s.holding entry.instruction.engine).length := length_map ..
  cases Except.ok.inj h
  refine ⟨rfl, rfl, rfl, rfl, ⟨admitted, hadmitted, by simpa using hidentity⟩, hfresh.1, hfresh.2, ?_, ?_,
    not_lt.mp htiles, fun hs => ?_, hrequest⟩
  · have hle := freeUnit_le ((s.holding entry.instruction.engine).map (·.unitIndex))
    show freeUnit _ _ 0 < _
    exact lt_of_le_of_lt hle (by rw [hlength]; exact not_le.mp hunits)
  · intro b hb heq
    have hmem : b.unitIndex ∈ (s.holding entry.instruction.engine).map (·.unitIndex) :=
      mem_map_of_mem hb
    rw [heq] at hmem
    exact freeUnit_not_mem _ hmem
  · have hany : (entry.instruction.inputTileDescriptors.head?.any
        fun tile => s.scratchpadContains tile.identity) = true := by
      by_contra hnone
      exact hstore (by rw [Bool.and_eq_true]; exact ⟨hs, by simpa using hnone⟩)
    cases htile : entry.instruction.inputTileDescriptors.head? with
    | none =>
      rw [htile] at hany
      exact absurd hany (by simp)
    | some tile =>
      rw [htile] at hany
      exact ⟨tile, rfl, hany⟩

theorem memoryRequestOf_failure (h : s.memoryRequestOf i = .error (.failure code)) : Fine code := by
  unfold memoryRequestOf at h
  split at h
  · cases h
  split at h
  · cases h
  dsimp only at h
  split at h
  · split at h
    · cases h
      decide
    · cases h
  · cases h
    decide

theorem prepare_failure (h : s.prepare schedule entry issueEpoch = .error (.failure code)) :
    Fine code := by
  unfold prepare at h
  dsimp only at h
  split at h
  · cases h
  split at h
  · cases h
  split at h
  · cases h
    decide
  split at h
  · cases h
  split at h
  · cases h
    decide
  split at h
  · cases h
  split at h
  · cases h
    decide
  split at h
  · rename_i refusal hrequest
    cases h
    exact memoryRequestOf_failure hrequest
  split at h
  · cases h
    decide
  · cases h

theorem proposeExecute_cases (s : NpuExecutionPipeline) (schedule : Event → Bool)
    (entry : NpuIssueEntry) (issueEpoch : Epoch) :
    (∃ a, s.Prepared entry issueEpoch a ∧ (s.proposeExecute schedule entry issueEpoch).2 =
        { s with executionProposals := s.executionProposals ++ [a] }) ∨
      ∃ stalls code, (Fine s.runtimeFailureCode → Fine code) ∧
        (s.proposeExecute schedule entry issueEpoch).2 =
          { s with
            unitStallProposals := stalls
            runtimeFailureCode := code } := by
  unfold proposeExecute
  split
  · exact Or.inl ⟨_, prepare_ok ‹_›, rfl⟩
  · exact Or.inr ⟨s.unitStallProposals, s.runtimeFailureCode, fun h => h, rfl⟩
  · exact Or.inr ⟨_, s.runtimeFailureCode, fun h => h, rfl⟩
  · rename_i hfailure
    exact Or.inr ⟨s.unitStallProposals, _, fun _ => prepare_failure hfailure, rfl⟩

/-! ### Work -/

section work

variable {v : RequestResponseLink NpuMemoryRequest NpuMemoryResponse} {n : ℕ}
  {plog : RequestResponseLink.Log NpuMemoryRequest NpuMemoryResponse}

/-- The protocol in a run of its own. -/
def Linked (n : ℕ) (v : RequestResponseLink NpuMemoryRequest NpuMemoryResponse) : Prop :=
  ∃ log, RequestResponseLink.Run n log v

variable {active : List ActiveExecution} {completions : List ℕ} {a : ActiveExecution}

theorem Linked.call (h : Linked n v)
    (call : RequestResponseLink.Call NpuMemoryRequest NpuMemoryResponse) :
    Linked n (v.step call) := by
  obtain ⟨log, hrun⟩ := h
  exact ⟨_, hrun.call call⟩

theorem drainResponses_eq :
    ∀ (steps : ℕ) (v : RequestResponseLink NpuMemoryRequest NpuMemoryResponse),
    ∃ pops, drainResponses steps v = { v with responsePopCount := pops } ∧
      (Linked n v → Linked n (drainResponses steps v))
  | 0, v => ⟨v.responsePopCount, rfl, fun h => h⟩
  | steps + 1, v => by
    have hstep := fun h : Linked n v => h.call .proposePopResponse
    unfold drainResponses
    simp only [RequestResponseLink.step] at hstep
    cases hfront : v.committedResponses[v.responsePopCount]? with
    | none =>
      have hpop : v.proposePopResponse = (none, v) := by
        simp only [RequestResponseLink.proposePopResponse, hfront]
      rw [hpop]
      exact ⟨v.responsePopCount, rfl, fun h => h⟩
    | some response =>
      have hpop : v.proposePopResponse =
          (some response, { v with responsePopCount := v.responsePopCount + 1 }) := by
        simp only [RequestResponseLink.proposePopResponse, hfront]
      rw [hpop] at hstep ⊢
      obtain ⟨pops, heq, hlinked⟩ := drainResponses_eq steps
        { v with responsePopCount := v.responsePopCount + 1 }
      exact ⟨pops, heq, fun h => hlinked (hstep h)⟩

/-- The loop that hands out requests: the requests it hands out are the next ones, and it ends
without a lost correlation where the oldest request is in flight. -/
theorem deliverRequests_eq (epoch : Epoch) : ∀ (steps : ℕ) (s : NpuExecutionPipeline),
    s.memoryProtocol.requestPopCount ≤ s.memoryProtocol.committedRequests.length →
    s.deliveryProposals =
      correlations (s.memoryProtocol.committedRequests.take s.memoryProtocol.requestPopCount) →
    (∀ request ∈ s.memoryProtocol.committedRequests.head?, (s.find request.correlationId).isSome) →
    ∃ pops code, deliverRequests epoch steps s = { s with
        memoryProtocol := { s.memoryProtocol with requestPopCount := pops }
        deliveryProposals := correlations (s.memoryProtocol.committedRequests.take pops)
        runtimeFailureCode := code } ∧
      pops ≤ s.memoryProtocol.committedRequests.length ∧ (Fine s.runtimeFailureCode → Fine code) ∧
      (Linked n s.memoryProtocol → Linked n { s.memoryProtocol with requestPopCount := pops })
  | 0, s, hpops, hdeliveries, _ =>
    ⟨s.memoryProtocol.requestPopCount, s.runtimeFailureCode, by rw [← hdeliveries]; rfl, hpops, fun h => h,
      fun h => h⟩
  | steps + 1, s, hpops, hdeliveries, hfront => by
    have hsame : ∀ code, (Fine s.runtimeFailureCode → Fine code) → ∃ pops code',
        s.setRuntimeFailureCode code = { s with
          memoryProtocol := { s.memoryProtocol with requestPopCount := pops }
          deliveryProposals := correlations (s.memoryProtocol.committedRequests.take pops)
          runtimeFailureCode := code' } ∧
        pops ≤ s.memoryProtocol.committedRequests.length ∧ (Fine s.runtimeFailureCode → Fine code') ∧
        (Linked n s.memoryProtocol → Linked n { s.memoryProtocol with requestPopCount := pops }) :=
      fun code hcode => ⟨s.memoryProtocol.requestPopCount, code, by rw [← hdeliveries]; rfl, hpops, hcode,
        fun h => h⟩
    unfold deliverRequests
    cases hhead : s.memoryProtocol.committedRequests.head? with
    | none => exact hsame s.runtimeFailureCode fun h => h
    | some request =>
      cases hfind : s.find request.correlationId with
      | none => exact absurd (hfront request hhead) (by simp [hfind])
      | some active =>
        simp only [hfind]
        split_ifs
        · exact hsame s.runtimeFailureCode fun h => h
        · exact hsame _ fun _ => by decide
        · cases hnext : s.memoryProtocol.committedRequests[s.memoryProtocol.requestPopCount]? with
          | none =>
            have hpop : s.memoryProtocol.proposePopRequest = (none, s.memoryProtocol) := by
              simp only [RequestResponseLink.proposePopRequest, hnext]
            rw [hpop]
            exact hsame s.runtimeFailureCode fun h => h
          | some popped =>
            have hpop : s.memoryProtocol.proposePopRequest = (some popped,
                { s.memoryProtocol with
                  requestPopCount := s.memoryProtocol.requestPopCount + 1 }) := by
              simp only [RequestResponseLink.proposePopRequest, hnext]
            have hlinked : Linked n s.memoryProtocol → Linked n
                { s.memoryProtocol with
                  requestPopCount := s.memoryProtocol.requestPopCount + 1 } := by
              intro h
              have hcall := h.call .proposePopRequest
              simp only [RequestResponseLink.step, hpop] at hcall
              exact hcall
            obtain ⟨hlt, _⟩ := List.getElem?_eq_some_iff.mp hnext
            rw [hpop]
            obtain ⟨pops, code, heq, hle, hcode, hrun⟩ := deliverRequests_eq epoch steps
              { s with
                memoryProtocol := { s.memoryProtocol with
                  requestPopCount := s.memoryProtocol.requestPopCount + 1 }
                deliveryProposals := s.deliveryProposals ++ [popped.correlationId] }
              hlt (by
                show s.deliveryProposals ++ [popped.correlationId] = correlations
                  (s.memoryProtocol.committedRequests.take (s.memoryProtocol.requestPopCount + 1))
                rw [take_add_one, hnext, correlations_append, ← hdeliveries]
                rfl)
              hfront
            exact ⟨pops, code, heq, hle, hcode, fun h => hrun (hlinked h)⟩

/-- The proposed completions are of executions in flight, and those with a request are answered. -/
def Completing (active : List ActiveExecution)
    (v : RequestResponseLink NpuMemoryRequest NpuMemoryResponse) (completions : List ℕ) : Prop :=
  completions.Nodup ∧ ∀ x ∈ completions, ∃ a ∈ active, a.sequenceId = x ∧
    (a.memoryRequest = none ∨ a.memoryDelivered = true ∧ x ∈ correlations v.responseProposals)

/-- What the loop over the executions may change. -/
def Answers (n : ℕ) (s s' : NpuExecutionPipeline) : Prop :=
  ∃ responses cancellations completions code, s' = { s with
      memoryProtocol := { s.memoryProtocol with responseProposals := responses }
      memoryController := { s.memoryController with cancellationProposals := cancellations }
      completionProposals := completions
      runtimeFailureCode := code } ∧
    (Fine s.runtimeFailureCode → Fine code) ∧ (Linked n s.memoryProtocol → Linked n s'.memoryProtocol) ∧
    (Completing s.active s.memoryProtocol s.completionProposals →
      Completing s'.active s'.memoryProtocol s'.completionProposals)

theorem Answers.refl (s : NpuExecutionPipeline) : Answers n s s :=
  ⟨_, _, _, _, rfl, fun h => h, fun h => h, fun h => h⟩

theorem Answers.trans {s s' s'' : NpuExecutionPipeline} (h : Answers n s s')
    (h' : Answers n s' s'') : Answers n s s'' := by
  obtain ⟨responses, cancellations, completions, code, rfl, hcode, hlinked, hcompleting⟩ := h
  obtain ⟨responses', cancellations', completions', code', rfl, hcode', hlinked', hcompleting'⟩ := h'
  exact ⟨_, _, _, _, rfl, fun h => hcode' (hcode h), fun h => hlinked' (hlinked h),
    fun h => hcompleting' (hcompleting h)⟩

/-- The response of an execution. -/
theorem proposeResponse_linked (response : NpuMemoryResponse) (x : ℕ) :
    ∃ responses, (v.proposeResponse response x).2 = { v with responseProposals := responses } ∧
      (Linked n v → Linked n { v with responseProposals := responses }) ∧
      (∀ y ∈ correlations v.responseProposals, y ∈ correlations responses) ∧
      ((v.proposeResponse response x).1 = true → x ∈ correlations responses) := by
  have hcall : Linked n v → Linked n (v.proposeResponse response x).2 :=
    fun h => h.call (.proposeResponse response x)
  cases haccepted : (v.proposeResponse response x).1 with
  | false =>
    have hsame := RequestResponseLink.proposeResponse_refuses haccepted
    exact ⟨v.responseProposals, hsame, fun h => h, fun y hy => hy, fun h => absurd h (by simp)⟩
  | true =>
    obtain ⟨hnew, _⟩ := RequestResponseLink.proposeResponse_accepts haccepted
    rw [hnew] at hcall ⊢
    refine ⟨_, rfl, hcall, fun y hy => ?_, fun _ => ?_⟩
    · exact mem_map.mpr (by
        obtain ⟨e, he, heq⟩ := mem_map.mp hy
        exact ⟨e, mem_append_left _ he, heq⟩)
    · rw [correlations_append]
      exact mem_append_right _ (mem_singleton.mpr rfl)

theorem Completing.mono {v' : RequestResponseLink NpuMemoryRequest NpuMemoryResponse}
    (h : Completing active v completions)
    (hmono : ∀ y ∈ correlations v.responseProposals, y ∈ correlations v'.responseProposals) :
    Completing active v' completions := by
  refine ⟨h.1, fun x hx => ?_⟩
  obtain ⟨a, ha, heq, hmemory⟩ := h.2 x hx
  exact ⟨a, ha, heq, hmemory.imp_right fun hd => ⟨hd.1, hmono x hd.2⟩⟩

theorem Completing.push (h : Completing active v completions) (ha : a ∈ active)
    (hnew : a.sequenceId ∉ completions)
    (hmemory : a.memoryRequest = none ∨ a.memoryDelivered = true ∧
      a.sequenceId ∈ correlations v.responseProposals) :
    Completing active v (completions ++ [a.sequenceId]) := by
  refine ⟨List.Nodup.append h.1 (nodup_singleton _) fun x hx hx' => ?_, fun x hx => ?_⟩
  · exact hnew (mem_singleton.mp hx' ▸ hx)
  · rcases mem_append.mp hx with hx | hx
    · exact h.2 x hx
    · rw [mem_singleton.mp hx]
      exact ⟨a, ha, rfl, hmemory⟩

theorem proposeCompletion_answers (epoch : Epoch) (s : NpuExecutionPipeline) (ha : a ∈ s.active) :
    Answers n s (proposeCompletion epoch s a) := by
  unfold proposeCompletion
  dsimp only
  split
  · exact .refl s
  rename_i hnew
  simp only [Bool.or_eq_true, not_or, contains_iff_mem] at hnew
  split
  · rename_i hnone
    exact ⟨_, _, _, _, rfl, fun h => h, fun h => h, fun h => h.push ha hnew.2 (Or.inl hnone)⟩
  · rename_i request hrequest
    split
    · exact .refl s
    · rename_i hdelivered
      obtain ⟨responses, hresponse, hlinked, hmono, hanswered⟩ := proposeResponse_linked (n := n)
        (v := s.memoryProtocol) ⟨a.sequenceId, s.requestValue request a.sequenceId⟩ a.sequenceId
      rw [hresponse]
      split
      · exact ⟨_, _, _, _, rfl, fun _ => by decide, hlinked, fun h => h.mono hmono⟩
      · rename_i hok
        have hcancel : ∃ cancellations, (s.memoryController.proposeCancel s.id a.sequenceId).2 =
            { s.memoryController with cancellationProposals := cancellations } := by
          unfold Resource.proposeCancel
          split
          · exact ⟨_, rfl⟩
          · split
            · exact ⟨_, rfl⟩
            · exact ⟨_, rfl⟩
        obtain ⟨cancellations, hcancel⟩ := hcancel
        rw [hcancel]
        split
        · exact ⟨_, _, _, _, rfl, fun _ => by decide, hlinked, fun h => h.mono hmono⟩
        · refine ⟨_, _, _, _, rfl, fun h => h, hlinked, fun h => (h.mono hmono).push ha hnew.2 (Or.inr ⟨?_, ?_⟩)⟩
          · simpa using hdelivered
          · exact hanswered (by simpa using hok)

theorem foldl_proposeCompletion (epoch : Epoch) :
    ∀ (l : List ActiveExecution) (s : NpuExecutionPipeline),
    (∀ a ∈ l, a ∈ s.active) → Answers n s (l.foldl (proposeCompletion epoch) s)
  | [], s, _ => .refl s
  | a :: l, s, h => by
    have hstep := proposeCompletion_answers (n := n) epoch s (h a mem_cons_self)
    have hactive : (proposeCompletion epoch s a).active = s.active := by
      obtain ⟨_, _, _, _, heq, _⟩ := hstep
      rw [heq]
    refine hstep.trans (foldl_proposeCompletion epoch l _ fun b hb => ?_)
    rw [hactive]
    exact h b (mem_cons_of_mem _ hb)

end work

end NpuExecutionPipeline

end AgenticCircuit.Npu
