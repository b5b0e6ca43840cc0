import AgenticCircuit.Npu.PipelineRun

/-! # The end of an epoch of the pipeline

`doArbitrate` hands the requests of the proposed executions to the protocol and to the controller,
which accept them all (`Asking.run`).  Every loop of `doXfer` keeps `Moving`: one lemma for a step
(`Moving.admission`, `Moving.execution`, `Moving.delivery`, `Moving.completion`,
`Moving.retirement`) and one for the loop, and `Run.invariant` puts them together. -/

namespace AgenticCircuit.Npu

open List
open Bindings Trace Gfsim

namespace NpuExecutionPipeline

variable {id : ObjectId} {config : NpuExecutionConfig} {log : Log} {s : NpuExecutionPipeline}
  {A R : List NpuInstruction} {C : List (ℕ × ℕ)}
variable {a : ActiveExecution} {l : List ActiveExecution}

/-! ### Arbitration -/

/-- The requests of a list of executions. -/
def requested (l : List ActiveExecution) : List (Envelope NpuMemoryRequest) :=
  l.filterMap fun a => a.memoryRequest.map fun request => ⟨request, a.sequenceId⟩

theorem mem_requested {x : ℕ} :
    x ∈ correlations (requested l) ↔ ∃ a ∈ l, a.sequenceId = x ∧ a.memoryRequest.isSome := by
  simp only [correlations, requested, mem_map, mem_filterMap, Option.map_eq_some_iff]
  constructor
  · rintro ⟨_, ⟨a, ha, request, hrequest, rfl⟩, rfl⟩
    exact ⟨a, ha, rfl, by rw [hrequest]; rfl⟩
  · rintro ⟨a, ha, rfl, hsome⟩
    obtain ⟨request, hrequest⟩ := Option.isSome_iff_exists.mp hsome
    exact ⟨_, ⟨a, ha, request, hrequest, rfl⟩, rfl⟩

/-- The protocol and the controller have room for the requests of a list of executions. -/
structure Asking (l : List ActiveExecution) (s : NpuExecutionPipeline) : Prop where
  valid : s.id ≠ kInvalidObjectId
  ids : (l.map (·.sequenceId)).Nodup
  ready : ∀ a ∈ l, ¬a.readyEpoch < a.issueEpoch
  idle : ∀ a ∈ l, a.sequenceId ∉ s.memoryProtocol.active ∧
    a.sequenceId ∉ correlations s.memoryProtocol.requestProposals ∧
    a.sequenceId ∉ correlations s.memoryProtocol.committedResponses
  room : s.memoryProtocol.active.card + s.memoryProtocol.requestProposals.length +
    (l.filterMap (·.memoryRequest)).length ≤ s.memoryProtocol.maxInFlight
  capacity : ∀ a ∈ l, a.memoryRequest.isSome → 1 ≤ s.memoryController.totalCapacity
  unreserved : ∀ a ∈ l, (∀ e ∈ s.memoryController.reservations, e.1 ≠ a.sequenceId) ∧
    ∀ p ∈ s.memoryController.proposals, p.transactionId ≠ a.sequenceId

/-- The reservation of an execution. -/
def reservationOf (s : NpuExecutionPipeline) (a : ActiveExecution) : Reservation :=
  { ownerId := s.id
    amount := 1
    issueTime := a.issueEpoch
    readyTime := a.readyEpoch
    transactionId := a.sequenceId
    rootTransactionId := a.sequenceId }

theorem Asking.tail (h : Asking (a :: l) s) (hnone : a.memoryRequest = none) : Asking l s where
  valid := h.valid
  ids := (nodup_cons.mp h.ids).2
  ready b hb := h.ready b (mem_cons_of_mem a hb)
  idle b hb := h.idle b (mem_cons_of_mem a hb)
  room := by
    have hroom := h.room
    rwa [filterMap_cons, hnone] at hroom
  capacity b hb := h.capacity b (mem_cons_of_mem a hb)
  unreserved b hb := h.unreserved b (mem_cons_of_mem a hb)

/-- The protocol and the controller accept the request of an execution. -/
theorem Asking.request (h : Asking (a :: l) s)
    {request : NpuMemoryRequest} (hrequest : a.memoryRequest = some request) :
    (s.memoryProtocol.proposeRequest request a.sequenceId).1 = true ∧
      s.memoryController.proposeReserve (s.reservationOf a) =
        (true, { s.memoryController with
          proposals := s.memoryController.proposals ++ [s.reservationOf a] }) := by
  obtain ⟨hactive, hproposals, hresponses⟩ := h.idle a mem_cons_self
  obtain ⟨hreserved, hproposed⟩ := h.unreserved a mem_cons_self
  have hroom := h.room
  rw [filterMap_cons, hrequest, length_cons] at hroom
  have hcapacity := h.capacity a mem_cons_self (by rw [hrequest]; rfl)
  constructor
  · unfold RequestResponseLink.proposeRequest
    rw [if_neg]
    simp only [RequestResponseLink.containsCorrelation, RequestResponseLink.any_correlationId,
      Bool.or_eq_true, decide_eq_true_eq, not_or]
    exact ⟨by omega, ⟨hactive, hproposals⟩, hresponses⟩
  · have hfree : s.memoryController.hasReservation a.sequenceId = false := by
      unfold Resource.hasReservation
      cases hlookup : s.memoryController.reservations.lookup a.sequenceId with
      | none => rfl
      | some reservation => exact absurd rfl (hreserved _ (mem_of_lookup hlookup))
    have hnew : s.memoryController.proposals.any
        (fun p => decide (p.transactionId = a.sequenceId)) = false :=
      any_eq_false.mpr fun p hp => by simpa using hproposed p hp
    have hready : ¬(s.reservationOf a).readyTime < (s.reservationOf a).issueTime :=
      h.ready a mem_cons_self
    unfold Resource.proposeReserve
    rw [if_neg]
    simp only [Bool.or_eq_true, decide_eq_true_eq, not_or, Bool.not_eq_true]
    exact ⟨⟨⟨⟨⟨h.valid, Nat.one_ne_zero⟩, not_lt.mpr hcapacity⟩, hready⟩, hfree⟩, hnew⟩

/-- The state after the request of an execution. -/
def asked (s : NpuExecutionPipeline) (a : ActiveExecution) (request : NpuMemoryRequest) :
    NpuExecutionPipeline :=
  { s with
    memoryProtocol := { s.memoryProtocol with
      requestProposals := s.memoryProtocol.requestProposals ++ [⟨request, a.sequenceId⟩] }
    memoryController := { s.memoryController with
      proposals := s.memoryController.proposals ++ [s.reservationOf a] } }

theorem Asking.requestMemory (h : Asking (a :: l) s)
    {request : NpuMemoryRequest} (hrequest : a.memoryRequest = some request) :
    requestMemory s a = s.asked a request := by
  obtain ⟨hasked, hreserved⟩ := h.request hrequest
  obtain ⟨hnew, _⟩ := RequestResponseLink.proposeRequest_accepts hasked
  unfold NpuExecutionPipeline.requestMemory
  unfold reservationOf at hreserved
  simp only [hrequest, hasked, hnew, hreserved]
  rfl

theorem Asking.asked (h : Asking (a :: l) s)
    {request : NpuMemoryRequest} (hrequest : a.memoryRequest = some request) :
    Asking l (s.asked a request) := by
  obtain ⟨hnot, hids⟩ := nodup_cons.mp h.ids
  have hother : ∀ b ∈ l, a.sequenceId ≠ b.sequenceId := fun b hb heq =>
    hnot (mem_map.mpr ⟨b, hb, heq.symm⟩)
  have hroom := h.room
  rw [filterMap_cons, hrequest, length_cons] at hroom
  refine ⟨h.valid, hids, fun b hb => h.ready b (mem_cons_of_mem a hb), fun b hb => ?_, ?_,
    fun b hb => h.capacity b (mem_cons_of_mem a hb), fun b hb => ?_⟩
  · obtain ⟨hactive, hproposals, hresponses⟩ := h.idle b (mem_cons_of_mem a hb)
    refine ⟨hactive, fun hmem => ?_, hresponses⟩
    rcases mem_append.mp (correlations_append _ _ ▸ hmem) with hmem | hmem
    · exact hproposals hmem
    · exact hother b hb (mem_singleton.mp hmem).symm
  · show s.memoryProtocol.active.card + (s.memoryProtocol.requestProposals ++ [_]).length + _ ≤
      s.memoryProtocol.maxInFlight
    rw [length_append, length_singleton]
    omega
  · obtain ⟨hreserved, hproposed⟩ := h.unreserved b (mem_cons_of_mem a hb)
    refine ⟨hreserved, fun p hp => ?_⟩
    rcases mem_append.mp hp with hp | hp
    · exact hproposed p hp
    · rw [mem_singleton.mp hp]
      exact hother b hb

/-- The loop of `doArbitrate`: every request is accepted. -/
theorem Asking.run : ∀ {l : List ActiveExecution} {s : NpuExecutionPipeline}, Asking l s →
    ∃ reservations, l.foldl NpuExecutionPipeline.requestMemory s = { s with
        memoryProtocol := { s.memoryProtocol with
          requestProposals := s.memoryProtocol.requestProposals ++ requested l }
        memoryController := { s.memoryController with
          proposals := s.memoryController.proposals ++ reservations } } ∧
      (∀ p ∈ reservations, ∃ a ∈ l, p.transactionId = a.sequenceId) ∧
      ∀ n, Linked n s.memoryProtocol → Linked n { s.memoryProtocol with
        requestProposals := s.memoryProtocol.requestProposals ++ requested l }
  | [], s, _ => ⟨[], by simp [requested], by simp, fun n h => by simpa [requested] using h⟩
  | a :: l, s, h => by
    rw [foldl_cons]
    cases hrequest : a.memoryRequest with
    | none =>
      have hstep : NpuExecutionPipeline.requestMemory s a = s := by
        simp only [NpuExecutionPipeline.requestMemory, hrequest]
      have hlist : requested (a :: l) = requested l := by
        simp [requested, hrequest]
      obtain ⟨reservations, heq, hreservations, hlinked⟩ := (h.tail hrequest).run
      rw [hstep, hlist]
      refine ⟨reservations, heq, fun p hp => ?_, hlinked⟩
      obtain ⟨b, hb, hid⟩ := hreservations p hp
      exact ⟨b, mem_cons_of_mem a hb, hid⟩
    | some request =>
      have hlist : requested (a :: l) = ⟨request, a.sequenceId⟩ :: requested l := by
        simp [requested, hrequest]
      have hcall (n : ℕ) : Linked n s.memoryProtocol →
          Linked n (s.asked a request).memoryProtocol := by
        intro hrun
        have hstep := hrun.call (.proposeRequest request a.sequenceId)
        simp only [RequestResponseLink.step,
          (RequestResponseLink.proposeRequest_accepts (h.request hrequest).1).1] at hstep
        exact hstep
      obtain ⟨reservations, heq, hreservations, hlinked⟩ := (h.asked hrequest).run
      rw [h.requestMemory hrequest, heq, hlist]
      refine ⟨s.reservationOf a :: reservations, ?_, fun p hp => ?_, fun n hrun => ?_⟩
      · simp [NpuExecutionPipeline.asked]
      · rcases mem_cons.mp hp with rfl | hp
        · exact ⟨a, mem_cons_self, rfl⟩
        · obtain ⟨b, hb, hid⟩ := hreservations p hp
          exact ⟨b, mem_cons_of_mem a hb, hid⟩
      · have hend := hlinked n (hcall n hrun)
        simpa only [NpuExecutionPipeline.asked, append_assoc, singleton_append] using hend

/-! ### The controller -/

section controller

variable {c : Resource}

theorem foldl_applyAccepted : ∀ (l : List Reservation) (c : Resource),
    (l.foldl Resource.applyAccepted c).totalCapacity = c.totalCapacity ∧
      ∀ e ∈ (l.foldl Resource.applyAccepted c).reservations,
        e ∈ c.reservations ∨ ∃ p ∈ l, p.transactionId = e.1
  | [], c => ⟨rfl, fun e he => Or.inl he⟩
  | p :: l, c => by
    have hstep : (c.applyAccepted p).totalCapacity = c.totalCapacity ∧
        ∀ e ∈ (c.applyAccepted p).reservations, e ∈ c.reservations ∨ p.transactionId = e.1 := by
      simp only [Resource.applyAccepted, Resource.emplace]
      split
      · exact ⟨rfl, fun e he => Or.inl he⟩
      · refine ⟨rfl, fun e he => ?_⟩
        rcases (mem_insertKey Prod.fst).mp he with rfl | he
        · exact Or.inr rfl
        · exact Or.inl he
    obtain ⟨hcapacity, hreservations⟩ := foldl_applyAccepted l (c.applyAccepted p)
    refine ⟨hcapacity.trans hstep.1, fun e he => ?_⟩
    rcases hreservations e he with he | ⟨q, hq, hid⟩
    · exact (hstep.2 e he).imp_right fun hid => ⟨p, mem_cons_self, hid⟩
    · exact Or.inr ⟨q, mem_cons_of_mem p hq, hid⟩

theorem foldl_applyCancellation : ∀ (l : List ℕ) (c : Resource),
    (l.foldl Resource.applyCancellation c).totalCapacity = c.totalCapacity ∧
      (l.foldl Resource.applyCancellation c).reservations ⊆ c.reservations
  | [], _ => ⟨rfl, List.Subset.refl _⟩
  | x :: l, c => by
    have hstep : (c.applyCancellation x).totalCapacity = c.totalCapacity ∧
        (c.applyCancellation x).reservations ⊆ c.reservations := by
      unfold Resource.applyCancellation
      split
      · exact ⟨rfl, List.Subset.refl _⟩
      · exact ⟨rfl, filter_subset_self _⟩
    obtain ⟨hcapacity, hreservations⟩ := foldl_applyCancellation l (c.applyCancellation x)
    exact ⟨hcapacity.trans hstep.1, List.Subset.trans hreservations hstep.2⟩

theorem controller_doXfer (hreleases : c.releaseProposals = []) (epoch : Epoch) :
    (c.doXfer epoch).totalCapacity = c.totalCapacity ∧
      ∀ e ∈ (c.doXfer epoch).reservations,
        e ∈ c.reservations ∨ ∃ p ∈ c.acceptedProposals, p.transactionId = e.1 := by
  have happlied : c.applied = c.cancellationProposals.foldl Resource.applyCancellation
      (c.acceptedProposals.foldl Resource.applyAccepted c) := by
    rw [Resource.applied, hreleases, foldl_nil]
  obtain ⟨hcapacity, hreservations⟩ := foldl_applyAccepted c.acceptedProposals c
  obtain ⟨hcapacity', hsubset⟩ := foldl_applyCancellation c.cancellationProposals
    (c.acceptedProposals.foldl Resource.applyAccepted c)
  unfold Resource.doXfer
  rw [happlied]
  exact ⟨hcapacity'.trans hcapacity, fun e he => hreservations e (hsubset he)⟩

theorem arbitrate_subset : ∀ (l : List Reservation) (remaining : Word 32),
    (Resource.arbitrate l remaining).1 ⊆ l
  | [], _ => List.Subset.refl _
  | p :: l, remaining => by
    unfold Resource.arbitrate
    split
    · exact cons_subset_cons p (arbitrate_subset l _)
    · exact subset_cons_of_subset p (arbitrate_subset l remaining)

theorem controller_arbitrated : ∀ p ∈ c.arbitrated.acceptedProposals, p ∈ c.proposals := by
  intro p hp
  rcases (mem_insertAll Reservation.key).mp (arbitrate_subset _ _ hp) with hp | hp
  · exact absurd hp not_mem_nil
  · exact hp

end controller

/-! ### Transfers -/

/-- What the loops of a transfer do to the other fields: the executions `gone` leave `active`, `done`
has completed and `left` has retired. -/
structure Frame (gone : List ℕ) (done : List NpuIssueEntry) (left : List NpuInstruction)
    (s s' : NpuExecutionPipeline) : Prop where
  id : s'.id = s.id
  config : s'.config = s.config
  protocol : s'.memoryProtocol = s.memoryProtocol
  controller : s'.memoryController = s.memoryController
  executions : s'.executionProposals = s.executionProposals
  deliveries : s'.deliveryProposals = s.deliveryProposals
  completions : s'.completionProposals = s.completionProposals
  completed : s'.completed = s.completed ++ done
  retired : s'.retired = s.retired ++ left
  executed : s.executedSequences ⊆ s'.executedSequences
  active : ∀ a ∈ s.active, a.sequenceId ∉ gone → ∃ a' ∈ s'.active, a'.sequenceId = a.sequenceId ∧
    a'.memoryRequest = a.memoryRequest

theorem Frame.refl (s : NpuExecutionPipeline) : Frame [] [] [] s s where
  id := rfl
  config := rfl
  protocol := rfl
  controller := rfl
  executions := rfl
  deliveries := rfl
  completions := rfl
  completed := (append_nil _).symm
  retired := (append_nil _).symm
  executed := Finset.Subset.refl _
  active a ha _ := ⟨a, ha, rfl, rfl⟩

theorem Frame.trans {gone gone' : List ℕ} {done done' : List NpuIssueEntry}
    {left left' : List NpuInstruction} {s s' s'' : NpuExecutionPipeline}
    (h : Frame gone done left s s') (h' : Frame gone' done' left' s' s'') :
    Frame (gone ++ gone') (done ++ done') (left ++ left') s s'' where
  id := h'.id.trans h.id
  config := h'.config.trans h.config
  protocol := h'.protocol.trans h.protocol
  controller := h'.controller.trans h.controller
  executions := h'.executions.trans h.executions
  deliveries := h'.deliveries.trans h.deliveries
  completions := h'.completions.trans h.completions
  completed := by rw [h'.completed, h.completed, append_assoc]
  retired := by rw [h'.retired, h.retired, append_assoc]
  executed := h.executed.trans h'.executed
  active a ha hgone := by
    rw [mem_append, not_or] at hgone
    obtain ⟨b, hb, hid, hrequest⟩ := h.active a ha hgone.1
    obtain ⟨c, hc, hid', hrequest'⟩ := h'.active b hb (hid ▸ hgone.2)
    exact ⟨c, hc, hid'.trans hid, hrequest'.trans hrequest⟩

/-! ### Admissions -/

section

variable (h : s.Buffers A C R) {e : RobEntry} {block : ℕ}

include h

theorem Buffers.sequences (block : ℕ) :
    (ofBlock block A).map (·.sequenceId) = (ofBlock block R).map (·.sequenceId) ++ (s.rob block).map robKey := by
  have hfirst := congrArg (map Prod.fst) (h.split block)
  rw [map_append, map_map, map_map, map_map] at hfirst
  exact hfirst

theorem Buffers.ids (block : ℕ) : ((s.rob block).map robKey).Pairwise (· < ·) := by
  have hincreasing := h.increasing block
  rw [h.sequences] at hincreasing
  exact (pairwise_append.mp hincreasing).2.1

theorem Buffers.admission (he : e ∈ s.rob block) :
    ∃ i ∈ ofBlock block A, i.summary = e.instruction.summary := by
  have hmem : e.instruction.summary ∈ (ofBlock block A).map (·.summary) := by
    rw [h.split block]
    exact mem_append_right _ (mem_map_of_mem he)
  exact mem_map.mp hmem

theorem Buffers.mem_block (he : e ∈ s.rob block) : e.instruction.blockId = block := by
  obtain ⟨i, hi, hsummary⟩ := h.admission he
  have hblock : i.blockId = e.instruction.blockId := congrArg (fun p => p.2.1) hsummary
  rw [← hblock, (mem_ofBlock.mp hi).2]

theorem rob_commitAdmission {i : NpuInstruction}
    (hyounger : ∀ j ∈ A, j.blockId = i.blockId → j.sequenceId < i.sequenceId) :
    (commitAdmission s i).rob = Function.update s.rob i.blockId (s.rob i.blockId ++ [⟨i, false⟩]) := by
  have hsorted : Sorted robKey (s.rob i.blockId ++ [⟨i, false⟩]) := by
    refine pairwise_append.mpr ⟨?_, pairwise_singleton _ _, fun e he b hb => ?_⟩
    · exact (pairwise_map.mp (h.ids i.blockId)).imp le_of_lt
    · obtain ⟨j, hj, hsummary⟩ := h.admission he
      obtain ⟨hj, hblock⟩ := mem_ofBlock.mp hj
      have hid : j.sequenceId = e.instruction.sequenceId := congrArg Prod.fst hsummary
      rw [mem_singleton.mp hb]
      show e.instruction.sequenceId ≤ i.sequenceId
      rw [← hid]
      exact le_of_lt (hyounger j hj hblock)
  unfold commitAdmission
  rw [insertAll_eq_append robKey (by rwa [nil_append]), nil_append]

end

variable {i : NpuInstruction} {pending : List ActiveExecution}

theorem mem_rob_update {rob : ℕ → List RobEntry} {block block' : ℕ} {l : List RobEntry}
    {e : RobEntry} :
    e ∈ Function.update rob block (rob block ++ l) block' ↔ e ∈ rob block' ∨ block' = block ∧ e ∈ l := by
  by_cases hblock : block' = block
  · subst hblock
    simp
  · simp [hblock]

theorem Buffers.enter (h : s.Buffers A C R)
    (hyounger : ∀ j ∈ A, j.blockId = i.blockId → j.sequenceId < i.sequenceId)
    (hfresh : ∀ block, ∀ e ∈ s.rob block, e.instruction.sequenceId ≠ i.sequenceId) :
    (commitAdmission s i).Buffers (A ++ [i]) C R := by
  have hrob := rob_commitAdmission h hyounger
  have hmem : ∀ block e, e ∈ (commitAdmission s i).rob block ↔
      e ∈ s.rob block ∨ block = i.blockId ∧ e = ⟨i, false⟩ := by
    intro block e
    rw [hrob, mem_rob_update, mem_singleton]
  refine ⟨fun block => ?_, fun block => ?_, fun block => ?_, fun block hne => ?_,
    fun block block' e he e' he' heq => ?_, fun block e he hcompleted => ?_, h.done⟩
  · rw [ofBlock_append, map_append]
    refine pairwise_append.mpr ⟨h.increasing block, ?_, fun x hx y hy => ?_⟩
    · by_cases hblock : i.blockId = block
      · simp [ofBlock, hblock]
      · simp [ofBlock, hblock]
    · obtain ⟨j, hj, rfl⟩ := mem_map.mp hx
      obtain ⟨k, hk, rfl⟩ := mem_map.mp hy
      obtain ⟨hj, hjblock⟩ := mem_ofBlock.mp hj
      obtain ⟨hk, hkblock⟩ := mem_ofBlock.mp hk
      rw [mem_singleton.mp hk] at hkblock ⊢
      exact hyounger j hj (hjblock.trans hkblock.symm)
  · by_cases hblock : i.blockId = block
    · subst hblock
      simp [commitAdmission, ofBlock]
    · have hsame : ofBlock block (A ++ [i]) = ofBlock block A := by
        simp [ofBlock, hblock]
      rw [hsame, ← h.last block]
      exact Function.update_of_ne (Ne.symm hblock) _ _
  · rw [hrob, ofBlock_append, map_append, h.split block]
    by_cases hblock : i.blockId = block
    · subst hblock
      simp [ofBlock]
    · simp [ofBlock, hblock, Ne.symm hblock]
  · show block ∈ insertSet (fun n : ℕ => n) i.blockId s.blocks
    rw [mem_insertSet]
    obtain ⟨e, he⟩ := exists_mem_of_ne_nil _ hne
    rcases (hmem block e).mp he with he | ⟨hblock, _⟩
    · exact Or.inr (h.blocks block (ne_nil_of_mem he))
    · exact Or.inl hblock
  · rcases (hmem block e).mp he with he | ⟨hblock, rfl⟩
    · rcases (hmem block' e').mp he' with he' | ⟨_, rfl⟩
      · exact h.apart block block' e he e' he' heq
      · exact absurd heq (hfresh block e he)
    · rcases (hmem block' e').mp he' with he' | ⟨hblock', _⟩
      · exact absurd heq.symm (hfresh block' e' he')
      · rw [hblock, hblock']
  · rcases (hmem block e).mp he with he | ⟨_, rfl⟩
    · exact h.flagged block e he hcompleted
    · exact absurd hcompleted (by simp)

theorem Moving.admission (h : s.Moving A C R pending)
    (hyounger : ∀ j ∈ A, j.blockId = i.blockId → j.sequenceId < i.sequenceId)
    (hfresh : ∀ block, ∀ e ∈ s.rob block, e.instruction.sequenceId ≠ i.sequenceId) :
    (commitAdmission s i).Moving (A ++ [i]) C R pending := by
  refine ⟨h.buffers.enter hyounger hfresh, { h.flight with backed := fun a ha => ?_ }, h.executed,
    h.unexecuted, { h.answered with }, h.code, h.result⟩
  obtain ⟨block, e, he, hentry⟩ := h.flight.backed a ha
  refine ⟨block, e, ?_, hentry⟩
  rw [rob_commitAdmission h.buffers hyounger]
  exact mem_rob_update.mpr (Or.inl he)

theorem Moving.admissions : ∀ {l : List NpuInstruction}
    {A : List NpuInstruction} {s : NpuExecutionPipeline}, s.Moving A C R pending → s.Admissible A l →
    (l.map (·.sequenceId)).Pairwise (· < ·) →
    (l.foldl commitAdmission s).Moving (A ++ l) C R pending ∧
      Frame [] [] [] s (l.foldl commitAdmission s)
  | [], A, s, h, _, _ => ⟨by rwa [append_nil], .refl s⟩
  | i :: l, A, s, h, hl, hsorted => by
    obtain ⟨hfirst, hsorted⟩ := pairwise_cons.mp hsorted
    have hyounger := hl.younger i mem_cons_self
    have hmove := h.admission hyounger (hl.fresh i mem_cons_self)
    have hlater : ∀ p ∈ l, i.sequenceId < p.sequenceId := fun p hp => hfirst _ (mem_map_of_mem hp)
    have hrest : (commitAdmission s i).Admissible (A ++ [i]) l := by
      refine ⟨(nodup_cons.mp hl.ids).2, fun p hp j hj hblock => ?_, fun p hp block e he => ?_⟩
      · rcases mem_append.mp hj with hj | hj
        · exact hl.younger p (mem_cons_of_mem i hp) j hj hblock
        · rw [mem_singleton.mp hj]
          exact hlater p hp
      · rw [rob_commitAdmission h.buffers hyounger, mem_rob_update, mem_singleton] at he
        rcases he with he | ⟨_, rfl⟩
        · exact hl.fresh p (mem_cons_of_mem i hp) block e he
        · exact ne_of_lt (hlater p hp)
    obtain ⟨hmoving, hframe⟩ := hmove.admissions hrest hsorted
    rw [append_assoc] at hmoving
    have hstep : Frame [] [] [] s (commitAdmission s i) := { Frame.refl s with }
    exact ⟨hmoving, hstep.trans hframe⟩

end NpuExecutionPipeline

end AgenticCircuit.Npu
