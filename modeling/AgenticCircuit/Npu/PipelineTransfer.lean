import AgenticCircuit.Npu.PipelineCommit
import Mathlib.Data.List.TakeWhile

/-! # The loops of a transfer

Executions enter `active`, deliveries mark them, completions move them to their reorder buffers, and
the heads of the buffers retire.  Every loop keeps `Moving`, and with that every call keeps the
invariant (`Run.invariant`). -/

namespace AgenticCircuit.Npu

open List Function NpuExecutionPipeline NpuIssueEntry
open Prod (fst)
open Bindings Trace Gfsim

namespace NpuExecutionPipeline

variable {id : ObjectId} {config : NpuExecutionConfig} {log : Log} {s : NpuExecutionPipeline}
  {A R : List NpuInstruction} {C : List (ℕ × ℕ)}
variable {a : ActiveExecution} {l : List ActiveExecution} {x : ℕ}

/-! ### Executions -/

theorem Flight.perm {l' : List ActiveExecution} (h : Flight l s) (hperm : l.Perm l') :
    Flight l' s where
  ids := (hperm.map _).nodup_iff.mp h.ids
  units := (hperm.map _).nodup_iff.mp h.units
  bounded a ha := h.bounded a (hperm.mem_iff.mpr ha)
  memory := by
    rw [← (hperm.filterMap _).length_eq]
    exact h.memory
  correlated a ha := h.correlated a (hperm.mem_iff.mpr ha)
  ready a ha := h.ready a (hperm.mem_iff.mpr ha)
  backed a ha := h.backed a (hperm.mem_iff.mpr ha)
  tiles := h.tiles
  footprint := by
    rw [← toFinset_eq_of_perm _ _ (hperm.flatMap_right _)]
    exact h.footprint

theorem find_eq_none (h : ∀ a ∈ s.active, a.sequenceId ≠ x) : s.find x = none :=
  find?_eq_none.mpr fun a ha => by simpa using h a ha

theorem Moving.active_commitExecution (h : s.Moving A C R (a :: l)) :
    (commitExecution s a).active = insertKey ActiveExecution.sequenceId a s.active := by
  have hfresh : ∀ b ∈ s.active, b.sequenceId ≠ a.sequenceId := fun b hb heq =>
    h.unexecuted a mem_cons_self (heq ▸ h.executed b hb)
  unfold commitExecution
  rw [find_eq_none hfresh]
  rfl

theorem Answered.execute (h : s.Answered) (hnew : a.sequenceId ∉ s.executedSequences)
    (hcorrelated : ∀ request ∈ a.memoryRequest, request.correlationId = a.sequenceId)
    (hactive : (commitExecution s a).active.Perm (a :: s.active)) :
    (commitExecution s a).Answered := by
  have hrequests : (commitExecution s a).memoryRequests = s.memoryRequests ++ a.memoryRequest.toList := rfl
  have hlist := hactive.filterMap (·.memoryRequest)
  rw [filterMap_cons] at hlist
  cases hrequest : a.memoryRequest with
  | none =>
    rw [hrequest, Option.toList_none, append_nil] at hrequests
    rw [hrequest] at hlist
    refine ⟨hrequests ▸ h.once, fun r hr => Finset.mem_insert_of_mem (h.executed r (hrequests ▸ hr)), ?_⟩
    rw [hrequests]
    exact h.answered.trans ((hlist.symm.map _).append_left _)
  | some request =>
    have hid := hcorrelated request hrequest
    rw [hrequest, Option.toList_some] at hrequests
    simp only [hrequest] at hlist
    refine ⟨?_, fun r hr => ?_, ?_⟩
    · rw [hrequests, map_append]
      refine Nodup.append h.once (nodup_singleton _) fun x hx hx' => ?_
      obtain ⟨r, hr, rfl⟩ := mem_map.mp hx
      have heq : r.correlationId = a.sequenceId := (mem_singleton.mp hx').trans hid
      exact hnew (heq ▸ h.executed r hr)
    · rcases mem_append.mp (hrequests ▸ hr) with hr | hr
      · exact Finset.mem_insert_of_mem (h.executed r hr)
      · rw [mem_singleton.mp hr, hid]
        exact Finset.mem_insert_self _ _
    · rw [hrequests, map_append]
      refine (h.answered.append_right _).trans ?_
      rw [append_assoc]
      refine Perm.append_left _ ?_
      exact perm_append_comm.trans (hlist.symm.map NpuMemoryRequest.correlationId)

theorem Moving.execution (h : s.Moving A C R (a :: l)) :
    (commitExecution s a).Moving A C R l ∧ Frame [] [] [] s (commitExecution s a) ∧
      a ∈ (commitExecution s a).active := by
  have hperm : (commitExecution s a).active.Perm (a :: s.active) := by
    rw [h.active_commitExecution]
    exact insertKey_perm _ a s.active
  have hflight : Flight ((commitExecution s a).active ++ l) s := by
    refine h.flight.perm ?_
    exact perm_middle.trans (hperm.symm.append_right l)
  have hnew := h.unexecuted a mem_cons_self
  have hids := h.flight.ids
  rw [map_append, map_cons] at hids
  have hlater := (nodup_cons.mp hids.of_append_right).1
  refine ⟨⟨?_, { hflight with }, fun b hb => ?_, fun b hb hmem => ?_,
    h.answered.execute hnew (h.flight.correlated a (mem_append_right _ mem_cons_self)) hperm, h.code,
    h.result⟩,
    { Frame.refl s with
      executed := Finset.subset_insert _ _
      active := fun b hb _ => ⟨b, hperm.mem_iff.mpr (mem_cons_of_mem a hb), rfl, rfl⟩ },
    hperm.mem_iff.mpr mem_cons_self⟩
  · exact { h.buffers with
      flagged := fun block e he hcompleted =>
        ⟨(h.buffers.flagged block e he hcompleted).1,
          Finset.mem_insert_of_mem (h.buffers.flagged block e he hcompleted).2⟩ }
  · rcases mem_cons.mp (hperm.mem_iff.mp hb) with rfl | hb
    · exact Finset.mem_insert_self _ _
    · exact Finset.mem_insert_of_mem (h.executed b hb)
  · rcases Finset.mem_insert.mp hmem with heq | hmem
    · exact hlater (heq ▸ mem_map_of_mem hb)
    · exact h.unexecuted b (mem_cons_of_mem a hb) hmem

/-- The loop over the executions. -/
theorem Moving.executions :
    ∀ {l : List ActiveExecution} {s : NpuExecutionPipeline}, s.Moving A C R l →
    (l.foldl commitExecution s).Moving A C R [] ∧ Frame [] [] [] s (l.foldl commitExecution s) ∧
      ∀ a ∈ l, ∃ a' ∈ (l.foldl commitExecution s).active, a'.sequenceId = a.sequenceId ∧
        a'.memoryRequest = a.memoryRequest
  | [], s, h => ⟨h, .refl s, by simp⟩
  | a :: l, s, h => by
    obtain ⟨hstep, hframe, hentered⟩ := h.execution
    obtain ⟨hmoving, hframe', hlater⟩ := hstep.executions
    refine ⟨hmoving, hframe.trans hframe', fun b hb => ?_⟩
    rcases mem_cons.mp hb with rfl | hb
    · exact hframe'.active b hentered not_mem_nil
    · exact hlater b hb

/-! ### Deliveries -/

/-- The execution with its request delivered. -/
def deliver (x : ℕ) (a : ActiveExecution) : ActiveExecution :=
  if a.sequenceId = x then { a with memoryDelivered := true } else a

section deliver

variable (x : ℕ) (a : ActiveExecution)

@[simp] theorem deliver_entry : (deliver x a).entry = a.entry := by
  unfold deliver
  split <;> rfl

@[simp] theorem deliver_sequenceId : (deliver x a).sequenceId = a.sequenceId :=
  congrArg (·.instruction.sequenceId) (deliver_entry x a)

@[simp] theorem deliver_engine : (deliver x a).engine = a.engine :=
  congrArg (·.instruction.engine) (deliver_entry x a)

@[simp] theorem deliver_unitIndex : (deliver x a).unitIndex = a.unitIndex := by
  unfold deliver
  split <;> rfl

@[simp] theorem deliver_memoryRequest : (deliver x a).memoryRequest = a.memoryRequest := by
  unfold deliver
  split <;> rfl

@[simp] theorem deliver_issueEpoch : (deliver x a).issueEpoch = a.issueEpoch := by
  unfold deliver
  split <;> rfl

@[simp] theorem deliver_readyEpoch : (deliver x a).readyEpoch = a.readyEpoch := by
  unfold deliver
  split <;> rfl

end deliver

variable {i : NpuInstruction} {e : RobEntry} {s' : NpuExecutionPipeline} {epoch : Epoch}

theorem Flight.deliver (h : Flight l s) (x : ℕ) : Flight (l.map (deliver x)) s where
  ids := by
    simpa [comp_def] using h.ids
  units := by
    simpa [comp_def] using h.units
  bounded a ha := by
    obtain ⟨b, hb, rfl⟩ := mem_map.mp ha
    simpa using h.bounded b hb
  memory := by
    simpa using h.memory
  correlated a ha := by
    obtain ⟨b, hb, rfl⟩ := mem_map.mp ha
    simpa using h.correlated b hb
  ready a ha := by
    obtain ⟨b, hb, rfl⟩ := mem_map.mp ha
    rw [deliver_readyEpoch, deliver_issueEpoch]
    exact h.ready b hb
  backed a ha := by
    obtain ⟨b, hb, rfl⟩ := mem_map.mp ha
    rw [deliver_sequenceId, deliver_entry]
    exact h.backed b hb
  tiles := h.tiles
  footprint := by
    rw [flatMap_map]
    simpa using h.footprint

theorem Moving.delivery (h : s.Moving A C R []) (schedule : Event → Bool)
    (hx : ∃ a ∈ s.active, a.sequenceId = x) :
    (commitDelivery schedule s x).Moving A C R [] ∧ Frame [] [] [] s (commitDelivery schedule s x) := by
  have hflight := h.flight
  rw [append_nil] at hflight
  obtain ⟨active, hactive⟩ := Option.isSome_iff_exists.mp (find_isSome hx)
  obtain ⟨code, hcode, heq⟩ : ∃ code, (Fine s.runtimeFailureCode → Fine code) ∧
      commitDelivery schedule s x = { s with
        active := s.active.map (deliver x)
        runtimeFailureCode := code } := by
    unfold commitDelivery
    simp only [hactive]
    split
    · exact ⟨_, fun _ => by decide, rfl⟩
    · exact ⟨s.runtimeFailureCode, fun hfine => hfine, rfl⟩
  have hmap := hflight.deliver x
  rw [heq]
  refine ⟨⟨{ h.buffers with }, ?_, fun a ha => ?_, by simp, ⟨h.answered.once, h.answered.executed, ?_⟩,
    hcode h.code, h.result⟩,
    { Frame.refl s with
      active := fun a ha _ => ⟨deliver x a, mem_map_of_mem ha, by simp, by simp⟩ }⟩
  · show Flight (s.active.map _ ++ []) _
    rw [append_nil]
    exact { hmap with }
  · obtain ⟨b, hb, rfl⟩ := mem_map.mp ha
    rw [deliver_sequenceId]
    exact h.executed b hb
  · show Perm _ (_ ++ (filterMap _ (s.active.map _)).map _)
    simpa using h.answered.answered

theorem Moving.deliveries (schedule : Event → Bool) : ∀ {l : List ℕ} {s : NpuExecutionPipeline},
    s.Moving A C R [] → (∀ x ∈ l, ∃ a ∈ s.active, a.sequenceId = x) →
    (l.foldl (commitDelivery schedule) s).Moving A C R [] ∧
      Frame [] [] [] s (l.foldl (commitDelivery schedule) s)
  | [], s, h, _ => ⟨h, .refl s⟩
  | x :: l, s, h, hl => by
    obtain ⟨hstep, hframe⟩ := h.delivery schedule (hl x mem_cons_self)
    have hrest : ∀ y ∈ l, ∃ a ∈ (commitDelivery schedule s x).active, a.sequenceId = y := by
      intro y hy
      obtain ⟨a, ha, hid⟩ := hl y (mem_cons_of_mem x hy)
      obtain ⟨b, hb, hid', _⟩ := hframe.active a ha not_mem_nil
      exact ⟨b, hb, hid'.trans hid⟩
    obtain ⟨hmoving, hframe'⟩ := hstep.deliveries schedule hrest
    exact ⟨hmoving, hframe.trans hframe'⟩

/-! ### Completions -/

/-- The instruction of an execution that completes. -/
def finished (epoch : Epoch) (a : ActiveExecution) : NpuInstruction :=
  { a.entry.instruction with
    timestamps := { a.entry.instruction.timestamps with completed := some epoch.time } }

theorem commitCompletion_eq (schedule : Event → Bool) (epoch : Epoch) (hfind : s.find x = some a) :
    ∃ value memory code, commitCompletion schedule epoch s x = { s with
      rob := fun block => markCompleted (finished epoch a) (s.rob block)
      globalMemory := memory
      memoryResponses :=
        s.memoryResponses ++ a.memoryRequest.toList.map fun request => ⟨request.correlationId, value⟩
      runtimeFailureCode := code
      scratchpad := a.entry.instruction.written.foldl (fun entries tile => assign tile value entries) s.scratchpad
      completed := s.completed ++ [{ a.entry with instruction := finished epoch a }]
      active := s.active.filter fun b => b.sequenceId ≠ x
      totalCompletions := s.totalCompletions + 1 } ∧
    (Fine s.runtimeFailureCode → Fine code) := by
  unfold commitCompletion
  simp only [hfind]
  cases hrequest : a.memoryRequest with
  | none =>
    refine ⟨x, s.globalMemory, s.runtimeFailureCode, ?_, fun h => h⟩
    rw [Option.toList_none, map_nil, append_nil]
    rfl
  | some request =>
    simp only [Option.toList_some, foldl_cons, completeRequest]
    split
    · exact ⟨s.requestValue request x, _, "npu_completion_schedule_failed", rfl, fun _ => by decide⟩
    · exact ⟨s.requestValue request x, _, s.runtimeFailureCode, rfl, fun h => h⟩

theorem mem_keys_assign (tile : Bytes) (value : ℕ) {entries : List (Bytes × ℕ)}
    (h : (entries.map fst).Nodup) : ((assign tile value entries).map fst).Nodup ∧
      ∀ t, t ∈ (assign tile value entries).map fst ↔ t ∈ entries.map fst ∨ t = tile := by
  have hmem : ∀ t, t ∈ (entries.filter fun e => e.1 ≠ tile).map fst ↔
      t ∈ entries.map fst ∧ t ≠ tile := by
    intro t
    simp only [mem_map, mem_filter, decide_not, Bool.not_eq_true', decide_eq_false_iff_not]
    constructor
    · rintro ⟨e, ⟨he, hne⟩, rfl⟩
      exact ⟨⟨e, he, rfl⟩, hne⟩
    · rintro ⟨⟨e, he, rfl⟩, hne⟩
      exact ⟨e, ⟨he, hne⟩, rfl⟩
  unfold assign
  refine ⟨?_, fun t => ?_⟩
  · rw [map_cons]
    refine nodup_cons.mpr ⟨fun hin => ((hmem tile).mp hin).2 rfl, ?_⟩
    exact h.sublist (filter_sublist.map fst)
  · by_cases ht : t = tile
    · simp [ht]
    · simp [ht]

theorem keys_foldl_assign (value : ℕ) : ∀ (tiles : List Bytes) {entries : List (Bytes × ℕ)},
    (entries.map fst).Nodup →
    ((tiles.foldl (fun entries tile => assign tile value entries) entries).map fst).Nodup ∧
      ∀ t, t ∈ (tiles.foldl (fun entries tile => assign tile value entries) entries).map fst ↔
        t ∈ entries.map fst ∨ t ∈ tiles
  | [], entries, h => ⟨h, by simp⟩
  | tile :: tiles, entries, h => by
    obtain ⟨hnodup, hmem⟩ := mem_keys_assign tile value h
    obtain ⟨hnodup', hmem'⟩ := keys_foldl_assign value tiles hnodup
    refine ⟨hnodup', fun t => ?_⟩
    rw [foldl_cons, hmem', hmem, mem_cons, or_assoc]

theorem mem_markCompleted {l : List RobEntry} :
    e ∈ markCompleted i l ↔ (e ∈ l ∧ e.instruction.sequenceId ≠ i.sequenceId) ∨
      e = ⟨i, true⟩ ∧ ∃ e' ∈ l, e'.instruction.sequenceId = i.sequenceId := by
  simp only [markCompleted, mem_map]
  constructor
  · rintro ⟨e', he', rfl⟩
    split
    · rename_i hid
      exact Or.inr ⟨rfl, e', he', hid⟩
    · rename_i hid
      exact Or.inl ⟨he', hid⟩
  · rintro (⟨he, hid⟩ | ⟨rfl, e', he', hid⟩)
    · exact ⟨e, he, if_neg hid⟩
    · exact ⟨e', he', if_pos hid⟩

theorem Moving.summary_eq (h : s.Moving A C R []) (ha : a ∈ s.active) {block : ℕ}
    (he : e ∈ s.rob block) (hid : e.instruction.sequenceId = a.sequenceId) :
    e.instruction.summary = a.entry.instruction.summary := by
  obtain ⟨block', e', he', hid', _, hequal⟩ := h.flight.backed a (mem_append_left _ ha)
  have hblock := h.buffers.apart block block' e he e' he' (hid.trans hid'.symm)
  subst hblock
  have hnodup : ((s.rob block).map robKey).Nodup := (h.buffers.ids block).imp ne_of_lt
  have hsame := inj_on_of_nodup_map hnodup he he' (hid.trans hid'.symm)
  rw [hsame]
  exact NpuInstruction.summary_eq hequal

theorem Buffers.complete (h : s.Buffers A C R) (hexecuted : i.sequenceId ∈ s.executedSequences)
    (hsummary : ∀ block, ∀ e ∈ s.rob block, e.instruction.sequenceId = i.sequenceId →
      e.instruction.summary = i.summary) :
    { s with rob := fun block => markCompleted i (s.rob block) }.Buffers A (C ++ [i.place]) R := by
  have hold : ∀ {block e}, e ∈ markCompleted i (s.rob block) →
      ∃ e' ∈ s.rob block, e'.instruction.sequenceId = e.instruction.sequenceId := by
    intro block e he
    rcases mem_markCompleted.mp he with ⟨he, _⟩ | ⟨rfl, e', he', hid⟩
    · exact ⟨e, he, rfl⟩
    · exact ⟨e', he', hid⟩
  refine ⟨h.increasing, h.last, fun block => ?_, fun block hne => ?_, fun block block' e he e' he' heq => ?_,
    fun block e he hcompleted => ?_, fun j hj => mem_append_left _ (h.done j hj)⟩
  · have hmap : (markCompleted i (s.rob block)).map (·.instruction.summary) =
        (s.rob block).map (·.instruction.summary) := by
      rw [markCompleted, map_map]
      refine map_congr_left fun e he => ?_
      rw [comp_apply]
      split
      · rename_i hid
        exact (hsummary block e he hid).symm
      · rfl
    exact (h.split block).trans (by rw [← hmap])
  · refine h.blocks block fun hnil => hne ?_
    show markCompleted i (s.rob block) = []
    rw [hnil]
    rfl
  · obtain ⟨d, hd, hid⟩ := hold he
    obtain ⟨d', hd', hid'⟩ := hold he'
    exact h.apart block block' d hd d' hd' (hid.trans (heq.trans hid'.symm))
  · rcases mem_markCompleted.mp he with ⟨he, _⟩ | ⟨rfl, e', he', hid⟩
    · exact ⟨mem_append_left _ (h.flagged block e he hcompleted).1, (h.flagged block e he hcompleted).2⟩
    · have hblock : e'.instruction.blockId = i.blockId :=
        congrArg (fun p => p.2.1) (hsummary block e' he' hid)
      rw [h.mem_block he'] at hblock
      exact ⟨mem_append_right _ (mem_singleton.mpr (by rw [hblock]; rfl)), hexecuted⟩

theorem Flight.complete (h : Flight s.active s) (ha : a ∈ s.active) (epoch : Epoch)
    (value : ℕ) : Flight (s.active.filter fun b => b.sequenceId ≠ a.sequenceId) { s with
      rob := fun block => markCompleted (finished epoch a) (s.rob block)
      scratchpad := a.entry.instruction.written.foldl (fun entries tile => assign tile value entries)
        s.scratchpad } := by
  have hsub : (s.active.filter fun b => b.sequenceId ≠ a.sequenceId).Sublist s.active := filter_sublist
  obtain ⟨hnodup, hmem⟩ := keys_foldl_assign value a.entry.instruction.written h.tiles
  refine ⟨h.ids.sublist (hsub.map _), h.units.sublist (hsub.map _), fun b hb => h.bounded b (hsub.subset hb),
    ((hsub.filterMap _).length_le).trans h.memory, fun b hb => h.correlated b (hsub.subset hb),
    fun b hb => h.ready b (hsub.subset hb), fun b hb => ?_, hnodup, ?_⟩
  · obtain ⟨hb, hother⟩ := mem_filter.mp hb
    obtain ⟨block, e, he, hid, hrest⟩ := h.backed b hb
    refine ⟨block, e, mem_markCompleted.mpr (Or.inl ⟨he, fun heq => ?_⟩), hid, hrest⟩
    have hsame : b.sequenceId = a.sequenceId := hid.symm.trans heq
    exact absurd hother (by simpa using hsame)
  · refine (Finset.card_le_card fun tile htile => ?_).trans h.footprint
    rw [Finset.mem_union, mem_toFinset, mem_toFinset] at htile ⊢
    rcases htile with htile | htile
    · rcases (hmem tile).mp htile with htile | htile
      · exact Or.inl htile
      · exact Or.inr (mem_flatMap.mpr ⟨a, ha, htile⟩)
    · obtain ⟨b, hb, htile⟩ := mem_flatMap.mp htile
      exact Or.inr (mem_flatMap.mpr ⟨b, hsub.subset hb, htile⟩)

theorem Moving.completion (h : s.Moving A C R []) (schedule : Event → Bool) (epoch : Epoch)
    (hx : ∃ a ∈ s.active, a.sequenceId = x) : ∃ e : NpuIssueEntry,
      (commitCompletion schedule epoch s x).Moving A (C ++ [e.instruction.place]) R [] ∧
      Frame [x] [e] [] s (commitCompletion schedule epoch s x) := by
  obtain ⟨a, hfind⟩ := Option.isSome_iff_exists.mp (find_isSome hx)
  have ha : a ∈ s.active := mem_of_find?_eq_some hfind
  have hid : a.sequenceId = x := by simpa using find?_some hfind
  obtain ⟨value, memory, code, heq, hcode⟩ := commitCompletion_eq schedule epoch hfind
  have hflight := h.flight
  rw [append_nil] at hflight
  have hkeep := hflight.complete ha epoch value
  rw [hid] at hkeep
  have hbuffers := h.buffers.complete (i := finished epoch a) (h.executed a ha)
    fun block e he hsame => h.summary_eq ha he hsame
  have hperm := perm_cons_filter ActiveExecution.sequenceId hflight.ids ha
  rw [hid] at hperm
  refine ⟨{ a.entry with instruction := finished epoch a }, ?_, ?_⟩
  · rw [heq]
    refine ⟨{ hbuffers with }, ?_, fun b hb => h.executed b (mem_filter.mp hb).1, by simp,
      ⟨h.answered.once, h.answered.executed, ?_⟩, hcode h.code, h.result⟩
    · show Flight (s.active.filter _ ++ []) _
      rw [append_nil]
      exact { hkeep with }
    · have hlist := (hperm.filterMap (·.memoryRequest)).map NpuMemoryRequest.correlationId
      refine h.answered.answered.trans ((hlist.append_left _).trans ?_)
      rw [map_append, append_assoc]
      refine Perm.append_left _ ?_
      cases hrequest : a.memoryRequest with
      | none | some request => simp [hrequest]
  · rw [heq]
    exact { Frame.refl s with
      completed := rfl
      active := fun b hb hgone => ⟨b, mem_filter.mpr ⟨hb, by simpa using hgone⟩, rfl, rfl⟩ }

/-- The loop over the completions. -/
theorem Moving.completions (schedule : Event → Bool) (epoch : Epoch) :
    ∀ {l : List ℕ} {C : List (ℕ × ℕ)} {s : NpuExecutionPipeline}, s.Moving A C R [] → l.Nodup →
    (∀ x ∈ l, ∃ a ∈ s.active, a.sequenceId = x) → ∃ done : List NpuIssueEntry,
      (l.foldl (commitCompletion schedule epoch) s).Moving A (C ++ done.map (·.instruction.place)) R [] ∧
      Frame l done [] s (l.foldl (commitCompletion schedule epoch) s)
  | [], C, s, h, _, _ => ⟨[], by simpa using h, .refl s⟩
  | x :: l, C, s, h, hnodup, hl => by
    obtain ⟨hnot, hnodup⟩ := nodup_cons.mp hnodup
    obtain ⟨e, hstep, hframe⟩ := h.completion schedule epoch (hl x mem_cons_self)
    have hrest : ∀ y ∈ l, ∃ a ∈ (commitCompletion schedule epoch s x).active, a.sequenceId = y := by
      intro y hy
      obtain ⟨a, ha, hid⟩ := hl y (mem_cons_of_mem x hy)
      have hother : a.sequenceId ∉ [x] := by
        rw [hid, mem_singleton]
        rintro rfl
        exact hnot hy
      obtain ⟨b, hb, hid', _⟩ := hframe.active a ha hother
      exact ⟨b, hb, hid'.trans hid⟩
    obtain ⟨done, hmoving, hframe'⟩ := hstep.completions schedule epoch hnodup hrest
    rw [append_assoc, singleton_append] at hmoving
    exact ⟨e :: done, hmoving, hframe.trans hframe'⟩

/-! ### Retirement -/

/-- The instructions that leave the reorder buffer of a block. -/
def leaving (s : NpuExecutionPipeline) (epoch : Epoch) (block : ℕ) : List NpuInstruction :=
  ((s.rob block).takeWhile (·.completed)).map fun entry => setRetired epoch entry.instruction

theorem ofBlock_leaving (h : s.Buffers A C R) (epoch : Epoch) (block block' : ℕ) :
    ofBlock block' (s.leaving epoch block) = if block' = block then s.leaving epoch block else [] := by
  have hall : ∀ i ∈ s.leaving epoch block, i.blockId = block := by
    intro i hi
    obtain ⟨e, he, rfl⟩ := mem_map.mp hi
    exact h.mem_block (takeWhile_subset _ he)
  split
  · rename_i hblock
    subst hblock
    exact filter_eq_self.mpr fun i hi => by simpa using hall i hi
  · rename_i hblock
    refine filter_eq_nil_iff.mpr fun i hi => ?_
    rw [hall i hi]
    simpa using Ne.symm hblock

theorem Buffers.retire (h : s.Buffers A C R) (epoch : Epoch) (block : ℕ) :
    (retireBlock epoch s block).Buffers A C (R ++ s.leaving epoch block) := by
  have hmem : ∀ block' e, e ∈ (retireBlock epoch s block).rob block' → e ∈ s.rob block' := by
    intro block' e he
    change e ∈ update s.rob block _ block' at he
    by_cases hblock : block' = block
    · subst hblock
      rw [update_self] at he
      exact (dropWhile_suffix _).subset he
    · rwa [update_of_ne hblock] at he
  refine ⟨h.increasing, h.last, fun block' => ?_, fun block' hne => ?_, fun b b' e he e' he' =>
    h.apart b b' e (hmem b e he) e' (hmem b' e' he'), fun b e he => h.flagged b e (hmem b e he),
    fun i hi => ?_⟩
  · rw [ofBlock_append, map_append, h.split block', append_assoc, ofBlock_leaving h]
    show _ = _ ++ (_ ++ (update s.rob block _ block').map _)
    by_cases hblock : block' = block
    · subst hblock
      rw [if_pos rfl, update_self]
      have hsplit := congrArg (List.map (·.instruction.summary))
        (takeWhile_append_dropWhile (p := RobEntry.completed) (l := s.rob block'))
      rw [map_append] at hsplit
      rw [← hsplit, leaving, map_map]
      rfl
    · rw [if_neg hblock, update_of_ne hblock]
      rfl
  · obtain ⟨e, he⟩ := exists_mem_of_ne_nil _ hne
    exact h.blocks block' (ne_nil_of_mem (hmem block' e he))
  · rcases mem_append.mp hi with hi | hi
    · exact h.done i hi
    · obtain ⟨e, he, rfl⟩ := mem_map.mp hi
      have hrob := takeWhile_subset _ he
      have hflagged := (h.flagged block e hrob (mem_takeWhile_imp he)).1
      have hblock := h.mem_block hrob
      subst hblock
      exact hflagged

theorem Moving.retirement (h : s.Moving A C R []) (epoch : Epoch) (block : ℕ) :
    (retireBlock epoch s block).Moving A C (R ++ s.leaving epoch block) [] := by
  refine ⟨h.buffers.retire epoch block, { h.flight with backed := fun a ha => ?_ }, h.executed, h.unexecuted,
    { h.answered with }, h.code, ?_⟩
  · obtain ⟨block', e, he, hid, hcompleted, hequal⟩ := h.flight.backed a ha
    refine ⟨block', e, ?_, hid, hcompleted, hequal⟩
    show e ∈ update s.rob block _ block'
    by_cases hblock : block' = block
    · subst hblock
      rw [update_self]
      rw [← takeWhile_append_dropWhile (p := RobEntry.completed) (l := s.rob block')] at he
      rcases mem_append.mp he with he | he
      · exact absurd (mem_takeWhile_imp he) (by simp [hcompleted])
      · exact he
    · rwa [update_of_ne hblock]
  · show _ = (R ++ s.leaving epoch block).foldl retireResult {}
    rw [foldl_append, ← h.result]
    rfl

theorem Moving.retirements (epoch : Epoch) : ∀ (blocks : List ℕ) {R : List NpuInstruction}
    {s : NpuExecutionPipeline}, s.Moving A C R [] → ∃ done,
      (blocks.foldl (retireBlock epoch) s).Moving A C (R ++ done) [] ∧
      Frame [] [] done s (blocks.foldl (retireBlock epoch) s)
  | [], R, s, h => ⟨[], by simpa using h, .refl s⟩
  | block :: blocks, R, s, h => by
    obtain ⟨done, hmoving, hframe⟩ := (h.retirement epoch block).retirements epoch blocks
    have hstep : Frame [] [] (s.leaving epoch block) s (retireBlock epoch s block) :=
      { Frame.refl s with retired := rfl }
    rw [append_assoc] at hmoving
    exact ⟨s.leaving epoch block ++ done, hmoving, hstep.trans hframe⟩

/-! ### The calls -/

theorem emit_eq (s : NpuExecutionPipeline) (sink : ℕ → Bool) (events : List EventProposal) :
    ∃ code, (Fine s.runtimeFailureCode → Fine code) ∧
      s.emit sink events = { s with runtimeFailureCode := code } := by
  unfold emit
  split
  · exact ⟨s.runtimeFailureCode, fun h => h, rfl⟩
  · exact ⟨"observation_proposal_failed", fun _ => by decide, rfl⟩

/-- The state between arbitration and transfer. -/
structure Proposed (log : Log) (s : NpuExecutionPipeline) : Prop where
  moving : Moving log.admitted (log.completed.map (·.instruction.place)) log.retired s.executionProposals s
  admissible : Admissible log.admitted s.admissionProposals s
  sorted : (s.admissionProposals.map (·.sequenceId)).Pairwise (· < ·)
  linked : Linked s.config.memoryRequests s.memoryProtocol
  asked : s.memoryProtocol.requestProposals = requested s.executionProposals
  served : ∀ x ∈ s.memoryProtocol.active, ∃ a ∈ s.active, a.sequenceId = x ∧ a.memoryRequest.isSome
  responses : ∀ x ∈ correlations s.memoryProtocol.committedResponses, x ∈ s.executedSequences
  deliveries : ∀ x ∈ s.deliveryProposals, x ∈ correlations s.memoryProtocol.committedRequests
  completing : Completing s.active s.memoryProtocol s.completionProposals
  capacity : s.memoryController.totalCapacity = min s.config.memoryRequests (2 ^ 32 - 1)
  accepted : ∀ p ∈ s.memoryController.acceptedProposals, ∃ a ∈ s.executionProposals,
    p.transactionId = a.sequenceId
  releases : s.memoryController.releaseProposals = []
  executed : ∀ e ∈ s.memoryController.reservations, e.1 ∈ s.executedSequences

theorem Invariant.asking (h : Invariant id config log s) (hid : id ≠ kInvalidObjectId)
    (hl : l.Perm s.executionProposals) {admissions : List NpuInstruction} :
    Asking l { s with
      admissionProposals := admissions
      executionProposals := l } := by
  have hflight := h.moving.flight
  have hids := hflight.ids
  have hmemory := hflight.memory
  rw [map_append] at hids
  rw [filterMap_append, length_append, ← (hl.filterMap _).length_eq] at hmemory
  have hmem : ∀ a ∈ l, a ∈ s.active ++ s.executionProposals := fun a ha =>
    mem_append_right _ (hl.mem_iff.mp ha)
  obtain ⟨hdistinct, _, hmax⟩ := h.memory.linked.invariant
  refine ⟨h.id ▸ hid, (hl.map _).nodup_iff.mpr hids.of_append_right, fun a ha => hflight.ready a (hmem a ha),
    fun a ha => ⟨fun hactive => ?_, ?_, fun hresponse => ?_⟩, ?_, fun a ha hsome => ?_, fun a ha => ⟨?_, ?_⟩⟩
  · obtain ⟨b, hb, hid, _⟩ := h.memory.served _ hactive
    exact h.moving.unexecuted a (hl.mem_iff.mp ha) (hid ▸ h.moving.executed b hb)
  · rw [h.memory.asked]
    exact not_mem_nil
  · exact h.moving.unexecuted a (hl.mem_iff.mp ha) (h.memory.responses _ hresponse)
  · -- the protocol serves active executions only
    have hsub : s.memoryProtocol.active ⊆
        (((s.active.filter fun a => a.memoryRequest.isSome).map (·.sequenceId))).toFinset := by
      intro x hx
      obtain ⟨a, ha, rfl, hsome⟩ := h.memory.served x hx
      exact mem_toFinset.mpr (mem_map_of_mem (mem_filter.mpr ⟨ha, by simpa using hsome⟩))
    have hcard := (Finset.card_le_card hsub).trans (toFinset_card_le _)
    have hlength : (s.active.filter fun a => a.memoryRequest.isSome).length =
        (s.active.filterMap (·.memoryRequest)).length := by
      rw [length_filterMap_eq_countP, countP_eq_length_filter]
    rw [length_map, hlength] at hcard
    show s.memoryProtocol.active.card + s.memoryProtocol.requestProposals.length + _ ≤ _
    rw [h.memory.asked, hmax, length_nil]
    omega
  · obtain ⟨request, hrequest⟩ := Option.isSome_iff_exists.mp hsome
    have hpos : 0 < (l.filterMap (·.memoryRequest)).length :=
      length_pos_of_mem (mem_filterMap.mpr ⟨a, ha, hrequest⟩)
    show 1 ≤ s.memoryController.totalCapacity
    rw [h.controlled.capacity]
    omega
  · exact fun e he heq => h.moving.unexecuted a (hl.mem_iff.mp ha) (heq ▸ h.controlled.executed e he)
  · rw [h.controlled.proposals]
    simp

theorem Invariant.doArbitrate (h : Invariant id config log s) (hid : id ≠ kInvalidObjectId)
    (sink : ℕ → Bool) : (s.doArbitrate sink).1.id = id ∧ (s.doArbitrate sink).1.config = config ∧
      (s.doArbitrate sink).1.Proposed log := by
  have hadmissions := insertAll_perm admissionKey [] s.admissionProposals
  have hexecutions := insertAll_perm (fun a : ActiveExecution => a.entry.key) [] s.executionProposals
  rw [nil_append] at hadmissions hexecutions
  obtain ⟨reservations, heq, hreservations, hlinked⟩ := (h.asking hid hexecutions).run
  have hsorted : ((insertAll admissionKey [] s.admissionProposals).map (·.sequenceId)).Pairwise (· < ·) := by
    have hids := (hadmissions.map (·.sequenceId)).nodup_iff.mpr h.admissible.ids
    have hle := Sorted.insertAll admissionKey (Sorted.nil admissionKey) s.admissionProposals
    refine pairwise_map.mpr ((hle.and (pairwise_map.mp hids)).imp fun {i j} hij => ?_)
    rcases Prod.Lex.toLex_le_toLex.mp hij.1 with hlt | ⟨heq, _⟩
    · exact hlt
    · exact absurd heq hij.2
  have hproposed : Proposed log s.arbitrated := by
    unfold arbitrated
    dsimp only
    rw [heq]
    refine ⟨{ h.moving with
        buffers := { h.moving.buffers with }
        flight := { h.moving.flight.perm (hexecutions.symm.append_left _) with }
        unexecuted := fun a ha => h.moving.unexecuted a (hexecutions.mem_iff.mp ha)
        answered := { h.moving.answered with } },
      ⟨(hadmissions.map _).nodup_iff.mpr h.admissible.ids,
        fun p hp => h.admissible.younger p (hadmissions.mem_iff.mp hp),
        fun p hp => h.admissible.fresh p (hadmissions.mem_iff.mp hp)⟩, hsorted,
      hlinked _ h.memory.linked, ?_, h.memory.served, h.memory.responses, fun x hx => ?_,
      h.memory.completing.mono fun y hy => hy, h.controlled.capacity, fun p hp => ?_, h.controlled.releases,
      h.controlled.executed⟩
    · show s.memoryProtocol.requestProposals ++ _ = _
      rw [h.memory.asked, nil_append]
    · rw [show x ∈ _ ↔ x ∈ s.deliveryProposals from Iff.rfl, h.memory.deliveries] at hx
      rw [RequestResponseLink.correlations_take_drop _ s.memoryProtocol.requestPopCount]
      exact mem_append_left _ hx
    · have hp := controller_arbitrated p hp
      rw [h.controlled.proposals, nil_append] at hp
      exact hreservations p hp
  unfold NpuExecutionPipeline.doArbitrate
  dsimp only
  have hid' : s.arbitrated.id = id ∧ s.arbitrated.config = config := by
    unfold arbitrated
    dsimp only
    rw [heq]
    exact ⟨h.id, h.config⟩
  obtain ⟨code, hcode, hemit⟩ := emit_eq s.arbitrated sink s.arbitrated.observations
  rw [hemit]
  exact ⟨hid'.1, hid'.2, { hproposed with
    moving := { hproposed.moving with
      buffers := { hproposed.moving.buffers with }
      flight := { hproposed.moving.flight with }
      answered := { hproposed.moving.answered with }
      code := hcode hproposed.moving.code }
    admissible := { hproposed.admissible with } }⟩

theorem Moving.mono {C' : List (ℕ × ℕ)} {pending : List ActiveExecution}
    (h : s.Moving A C R pending) (hsub : ∀ x ∈ C, x ∈ C') : s.Moving A C' R pending :=
  { h with
    buffers := { h.buffers with
      flagged := fun block e he hcompleted =>
        ⟨hsub _ (h.buffers.flagged block e he hcompleted).1, (h.buffers.flagged block e he hcompleted).2⟩
      done := fun i hi => hsub _ (h.buffers.done i hi) } }

/-- What a transfer leaves. -/
structure Transferred (log : Log) (epoch : Epoch) (s s' : NpuExecutionPipeline) : Prop where
  moving : s'.Moving (log.admitted ++ s.admissionProposals)
    ((log.completed ++ s'.completed).map (·.instruction.place)) (log.retired ++ s'.retired) []
  id : s'.id = s.id
  config : s'.config = s.config
  protocol : s'.memoryProtocol = s.memoryProtocol.doXfer epoch
  controller : s'.memoryController = s.memoryController.doXfer epoch
  executed : s.executedSequences ⊆ s'.executedSequences
  entered : ∀ a ∈ s.executionProposals, a.sequenceId ∈ s'.executedSequences
  active : ∀ a ∈ s.active ++ s.executionProposals, a.sequenceId ∉ s.completionProposals →
    ∃ a' ∈ s'.active, a'.sequenceId = a.sequenceId ∧ a'.memoryRequest = a.memoryRequest

theorem Transferred.retire (h : Transferred log epoch s s') (hretired : s'.retired = []) :
    Transferred log epoch s (s'.blocks.foldl (retireBlock epoch)
      { s' with completed := insertAll key [] s'.completed }) := by
  have hlist := insertAll_perm key [] s'.completed
  rw [nil_append] at hlist
  have hmono := h.moving.mono fun x hx =>
    (((hlist.append_left log.completed).map fun e : NpuIssueEntry => e.instruction.place).mem_iff).mpr hx
  rw [hretired, append_nil] at hmono
  have hsorted : { s' with completed := insertAll key [] s'.completed }.Moving
      (log.admitted ++ s.admissionProposals)
      ((log.completed ++ insertAll key [] s'.completed).map
        fun e : NpuIssueEntry => e.instruction.place)
      log.retired [] :=
    { hmono with
      buffers := { hmono.buffers with }
      flight := { hmono.flight with }
      answered := { hmono.answered with } }
  obtain ⟨left, hmoving, hframe⟩ := hsorted.retirements epoch s'.blocks
  refine ⟨?_, hframe.id.trans h.id, hframe.config.trans h.config, hframe.protocol.trans h.protocol,
    hframe.controller.trans h.controller, h.executed.trans hframe.executed,
    fun a ha => hframe.executed (h.entered a ha), fun a ha hgone => ?_⟩
  · have hleft : s'.retired ++ left = left := by rw [hretired, nil_append]
    rw [hframe.completed, hframe.retired, append_nil]
    show Moving _ _ (log.retired ++ (s'.retired ++ left)) [] _
    rw [hleft]
    exact hmoving
  · obtain ⟨b, hb, hid, hrequest⟩ := h.active a ha hgone
    obtain ⟨c, hc, hid', hrequest'⟩ := hframe.active b hb not_mem_nil
    exact ⟨c, hc, hid'.trans hid, hrequest'.trans hrequest⟩

theorem Proposed.loops (h : s.Proposed log) (schedule : Event → Bool) (epoch : Epoch) :
    ∃ s', Transferred log epoch s s' ∧ s'.retired = [] ∧
      s.transferred schedule epoch = s'.blocks.foldl (retireBlock epoch)
        { s' with completed := insertAll key [] s'.completed } := by
  -- the state before the loops
  obtain ⟨s₁, hs₁⟩ : ∃ s₁ : NpuExecutionPipeline, s₁ = { s with
    completed := []
    retired := []
    memoryProtocol := s.memoryProtocol.doXfer epoch
    memoryController := s.memoryController.doXfer epoch } := ⟨_, rfl⟩
  have hempty : s₁.completed = [] ∧ s₁.retired = [] := by
    rw [hs₁]
    exact ⟨rfl, rfl⟩
  have hsame : s₁.executedSequences = s.executedSequences := by rw [hs₁]
  have hstart : s₁.Moving log.admitted (log.completed.map (·.instruction.place)) log.retired
      s.executionProposals := by
    rw [hs₁]
    exact { h.moving with
      buffers := { h.moving.buffers with }
      flight := { h.moving.flight with }
      answered := { h.moving.answered with } }
  have hadmissible : s₁.Admissible log.admitted s.admissionProposals := by
    rw [hs₁]
    exact { h.admissible with }
  obtain ⟨hadmitted, hframe₂⟩ := hstart.admissions hadmissible h.sorted
  obtain ⟨hexecuted, hframe₃, hentered⟩ := hadmitted.executions
  have hframe := hframe₂.trans hframe₃
  have hactive : ∀ x, (∃ a ∈ s.active, a.sequenceId = x) →
      ∃ a ∈ (s.executionProposals.foldl commitExecution
        (s.admissionProposals.foldl commitAdmission s₁)).active, a.sequenceId = x := by
    rintro x ⟨a, ha, rfl⟩
    obtain ⟨b, hb, hid, _⟩ := hframe.active a (hs₁ ▸ ha) not_mem_nil
    exact ⟨b, hb, hid⟩
  obtain ⟨hdelivered, hframe₄⟩ := hexecuted.deliveries schedule fun x hx => by
    obtain ⟨a, ha, hid, _⟩ := h.served x (h.linked.invariant.1.mem_active.mpr (Or.inl (h.deliveries x hx)))
    exact hactive x ⟨a, ha, hid⟩
  have hsorted := insertAll_perm (fun n : ℕ => n) [] s.completionProposals
  rw [nil_append] at hsorted
  obtain ⟨done, hcompleted, hframe₅⟩ := hdelivered.completions schedule epoch
    (hsorted.nodup_iff.mpr h.completing.1) fun x hx => by
      obtain ⟨a, ha, hid, _⟩ := h.completing.2 x (hsorted.mem_iff.mp hx)
      obtain ⟨b, hb, hid'⟩ := hactive x ⟨a, ha, hid⟩
      obtain ⟨c, hc, hid'', _⟩ := hframe₄.active b hb not_mem_nil
      exact ⟨c, hc, hid''.trans hid'⟩
  have hlast := hframe₄.trans hframe₅
  have hall := hframe.trans hlast
  have hexecutions : (s.admissionProposals.foldl commitAdmission s₁).executionProposals =
      s.executionProposals := by
    rw [hframe₂.executions, hs₁]
  have hdeliveries : (s.executionProposals.foldl commitExecution
      (s.admissionProposals.foldl commitAdmission s₁)).deliveryProposals = s.deliveryProposals := by
    rw [hframe.deliveries, hs₁]
  have hcompletions : (s.deliveryProposals.foldl (commitDelivery schedule) (s.executionProposals.foldl
      commitExecution (s.admissionProposals.foldl commitAdmission s₁))).completionProposals =
        s.completionProposals := by
    rw [(hframe.trans hframe₄).completions, hs₁]
  refine ⟨(insertAll (fun n : ℕ => n) [] s.completionProposals).foldl (commitCompletion schedule epoch)
    (s.deliveryProposals.foldl (commitDelivery schedule) (s.executionProposals.foldl commitExecution
      (s.admissionProposals.foldl commitAdmission s₁))),
    ⟨?_, ?_, ?_, ?_, ?_, ?_, fun a ha => ?_, fun a ha hgone => ?_⟩, ?_, ?_⟩
  · rw [hall.completed, hall.retired, hempty.1, hempty.2, map_append]
    simpa using hcompleted
  · rw [hall.id, hs₁]
  · rw [hall.config, hs₁]
  · rw [hall.protocol, hs₁]
  · rw [hall.controller, hs₁]
  · rw [← hsame]
    exact hall.executed
  · obtain ⟨b, hb, hid, _⟩ := hentered a ha
    exact hlast.executed (hid ▸ hexecuted.executed b hb)
  · have hgone' : a.sequenceId ∉ insertAll (fun n : ℕ => n) [] s.completionProposals := by
      rwa [hsorted.mem_iff]
    rcases mem_append.mp ha with ha | ha
    · exact hall.active a (hs₁ ▸ ha) hgone'
    · obtain ⟨b, hb, hid, hrequest⟩ := hentered a ha
      obtain ⟨c, hc, hid', hrequest'⟩ := hlast.active b hb (hid ▸ hgone')
      exact ⟨c, hc, hid'.trans hid, hrequest'.trans hrequest⟩
  · rw [hall.retired, hempty.2]
    rfl
  · unfold transferred
    dsimp only
    rw [← hs₁, hexecutions, hdeliveries, hcompletions]

theorem Proposed.transferred (h : s.Proposed log) (schedule : Event → Bool) (epoch : Epoch) :
    Transferred log epoch s (s.transferred schedule epoch) := by
  obtain ⟨s', htransferred, hretired, heq⟩ := h.loops schedule epoch
  rw [heq]
  exact htransferred.retire hretired

/-- After a transfer the protocol still serves active executions only. -/
theorem Transferred.memory (h : Transferred log epoch s s') (hs : s.Proposed log) : { s' with
      deliveryProposals := []
      completionProposals := [] }.Memory := by
  have hdistinct := hs.linked.invariant.1
  refine ⟨?_, ?_, fun x hx => ?_, fun x hx => ?_, ?_, nodup_nil, by simp⟩
  · show Linked s'.config.memoryRequests s'.memoryProtocol
    rw [h.config, h.protocol]
    exact hs.linked.call (.doXfer epoch)
  · show s'.memoryProtocol.requestProposals = []
    rw [h.protocol]
    rfl
  · change x ∈ s'.memoryProtocol.active at hx
    rw [h.protocol] at hx
    simp only [RequestResponseLink.doXfer, Finset.mem_sdiff, Finset.mem_union, mem_toFinset] at hx
    obtain ⟨hx, hresponse⟩ := hx
    obtain ⟨a, ha, hid, hsome⟩ : ∃ a ∈ s.active ++ s.executionProposals, a.sequenceId = x ∧
        a.memoryRequest.isSome := by
      rcases hx with hx | hx
      · obtain ⟨a, ha, hrest⟩ := hs.served x hx
        exact ⟨a, mem_append_left _ ha, hrest⟩
      · rw [hs.asked, mem_requested] at hx
        obtain ⟨a, ha, hrest⟩ := hx
        exact ⟨a, mem_append_right _ ha, hrest⟩
    have hgone : a.sequenceId ∉ s.completionProposals := by
      intro hmem
      obtain ⟨b, hb, hid', hmemory⟩ := hs.completing.2 _ hmem
      have hsame : b = a := inj_on_of_nodup_map hs.moving.flight.ids (mem_append_left _ hb) ha hid'
      rcases hmemory with hnone | ⟨_, hanswered⟩
      · rw [hsame] at hnone
        rw [hnone] at hsome
        exact absurd hsome (by simp)
      · exact hresponse (hid ▸ hanswered)
    obtain ⟨b, hb, hid', hrequest⟩ := h.active a ha hgone
    exact ⟨b, hb, hid'.trans hid, hrequest ▸ hsome⟩
  · change x ∈ correlations s'.memoryProtocol.committedResponses at hx
    rw [h.protocol] at hx
    simp only [RequestResponseLink.doXfer, correlations_append, mem_append] at hx
    rcases hx with hx | hx
    · exact h.executed (hs.responses x (RequestResponseLink.mem_correlations_of_drop hx))
    · obtain ⟨a, ha, hid, _⟩ := hs.served x (hdistinct.mem_active.mpr (Or.inr (hdistinct.live x hx)))
      exact h.executed (hid ▸ hs.moving.executed a ha)
  · show [] = correlations (s'.memoryProtocol.committedRequests.take s'.memoryProtocol.requestPopCount)
    rw [h.protocol]
    rfl

theorem Transferred.controlled (h : Transferred log epoch s s') (hs : s.Proposed log) :
    s'.Controlled := by
  obtain ⟨hcapacity, hreservations⟩ := controller_doXfer hs.releases epoch
  refine ⟨?_, ?_, ?_, ?_, fun e he => ?_⟩
  · rw [h.controller, h.config, hcapacity, hs.capacity]
  · rw [h.controller]
    rfl
  · rw [h.controller]
    rfl
  · rw [h.controller]
    rfl
  · rw [h.controller] at he
    rcases hreservations e he with he | ⟨p, hp, hid⟩
    · exact h.executed (hs.executed e he)
    · obtain ⟨a, ha, hid'⟩ := hs.accepted p hp
      rw [← hid, hid']
      exact h.entered a ha

theorem Invariant.commit (h : Invariant id config log s) (hid : id ≠ kInvalidObjectId)
    (schedule : Event → Bool) (sink sink' : ℕ → Bool) (epoch : Epoch) :
    Invariant id config (log.record s (.commit schedule sink sink' epoch))
      (s.commit schedule sink sink' epoch) := by
  obtain ⟨hidt, hconfigt, hproposed⟩ := h.doArbitrate hid sink
  have htransferred := hproposed.transferred schedule epoch
  obtain ⟨t, ht⟩ : ∃ t, t = (s.doArbitrate sink).1 := ⟨_, rfl⟩
  have hrecord : log.record s (.commit schedule sink sink' epoch) =
      { admitted := log.admitted ++ t.admissionProposals
        completed := log.completed ++ (s.commit schedule sink sink' epoch).completed
        retired := log.retired ++ (t.transferred schedule epoch).retired } := by
    rw [ht]
    rfl
  rw [← ht] at hidt hconfigt hproposed htransferred
  rw [hrecord]
  unfold NpuExecutionPipeline.commit doXfer
  dsimp only
  rw [← ht]
  obtain ⟨code, hcode, hemit⟩ := emit_eq (t.transferred schedule epoch) sink'
    ((t.transferred schedule epoch).retired.map fun i => stageEvent "retire" i.sequenceId)
  rw [hemit]
  have hmoving := htransferred.moving
  refine ⟨htransferred.id.trans hidt, htransferred.config.trans hconfigt,
    { hmoving with
      buffers := { hmoving.buffers with }
      flight := { hmoving.flight with }
      answered := { hmoving.answered with }
      code := hcode hmoving.code },
    ⟨by simp, by simp, by simp⟩, { htransferred.memory hproposed with },
    { htransferred.controlled hproposed with }⟩

theorem Invariant.step (h : Invariant id config log s) (hid : id ≠ kInvalidObjectId) (call : Call) :
    Invariant id config (log.record s call) (s.step call) := by
  cases call with
  | proposeAdmit instruction => exact h.proposeAdmit instruction
  | proposeExecute schedule entry issueEpoch => exact h.proposeExecute schedule entry issueEpoch
  | proposeTraceExhausted => exact h.proposeTraceExhausted
  | doWork epoch => exact h.doWork epoch
  | commit schedule sink sink' epoch => exact h.commit hid schedule sink sink' epoch
  | reset =>
    have hreset := Invariant.constructed s.id s.config s.system (show Fine "" by decide)
    rw [h.id, h.config] at hreset
    simp only [NpuExecutionPipeline.step, reset, h.id, h.config]
    exact hreset

theorem Run.invariant {system : Bool} (h : Run id config system log s)
    (hid : id ≠ kInvalidObjectId) : Invariant id config log s := by
  induction h with
  | start =>
    refine Invariant.constructed id config system ?_
    split
    · decide
    · decide
  | call call _ ih => exact ih.step hid call

end NpuExecutionPipeline

end AgenticCircuit.Npu
