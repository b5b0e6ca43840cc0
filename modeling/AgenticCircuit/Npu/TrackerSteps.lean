import AgenticCircuit.Npu.DependencyTracker

/-! # What an epoch of the dependency tracker does

One lemma for each loop of `doArbitrate` and `doXfer`.

* **`Derived`** says what the dependencies of a dispatch are: one for each input tile with a
  producer in the committed rename table, with flow identities that are new.
* **`Arbitrated`** is the invariant of the dispatch loop: the accepted dispatches are the first
  ones, each with the dependencies it derives, and they fit the room of their queues.
* **`foldl_commitDispatch`**, **`foldl_commitIssue`** and **`foldl_commitCompletion`** give the
  state after the three loops of `doXfer` as one record update. -/

namespace AgenticCircuit.Npu

open List Function UInt64
open Bindings Trace Gfsim

/-- The flow identities of the dependencies of a list of entries. -/
def flowIds (entries : List NpuIssueEntry) : List ℕ :=
  entries.flatMap fun e => e.derivedDependencies.map (·.flowId)

@[simp] theorem flowIds_nil : flowIds [] = [] := rfl

@[simp] theorem flowIds_append (l m : List NpuIssueEntry) :
    flowIds (l ++ m) = flowIds l ++ flowIds m :=
  flatMap_append

variable {entries : List NpuIssueEntry}

theorem mem_flowIds {flow : ℕ} :
    flow ∈ flowIds entries ↔ ∃ e ∈ entries, ∃ d ∈ e.derivedDependencies, d.flowId = flow := by
  simp [flowIds]

/-- The sequence identities of a list of entries. -/
def sequences (entries : List NpuIssueEntry) : List ℕ := entries.map (·.instruction.sequenceId)

@[simp] theorem sequences_nil : sequences [] = [] := rfl

@[simp] theorem sequences_append (l m : List NpuIssueEntry) :
    sequences (l ++ m) = sequences l ++ sequences m := map_append

theorem mem_sequences {sequenceId : ℕ} :
    sequenceId ∈ sequences entries ↔ ∃ e ∈ entries, e.instruction.sequenceId = sequenceId :=
  mem_map

/-- The entries of an engine. -/
def ofEngine (engine : NpuEngineClass) (entries : List NpuIssueEntry) : List NpuIssueEntry :=
  entries.filter fun e => e.instruction.engine = engine

@[simp] theorem ofEngine_append (engine : NpuEngineClass) (l m : List NpuIssueEntry) :
    ofEngine engine (l ++ m) = ofEngine engine l ++ ofEngine engine m := filter_append ..

theorem getLast?_of_pairwise_lt {l : List ℕ} (h : l.Pairwise (· < ·)) {last : ℕ}
    (hlast : l.getLast? = some last) : ∀ x ∈ l, x ≤ last := by
  obtain ⟨front, rfl⟩ := getLast?_eq_some_iff.mp hlast
  intro x hx
  rcases mem_append.mp hx with hx | hx
  · exact le_of_lt ((pairwise_append.mp h).2.2 x hx last mem_cons_self)
  · exact le_of_eq (mem_singleton.mp hx)

/-- The proposal an accepted dispatch comes from. -/
def NpuIssueEntry.proposal (e : NpuIssueEntry) : DispatchProposal := ⟨e.instruction, e.stableObjectId⟩

namespace NpuDependencyTracker

variable {s : NpuDependencyTracker}

/-! ### Dependencies -/

theorem probeFlowId_not_mem {shadowFlowIds : Finset ℕ} {flow : ℕ} : ∀ {attempts first : ℕ},
    probeFlowId shadowFlowIds attempts first = some flow → flow ∉ shadowFlowIds := by
  intro attempts
  induction attempts with
  | zero =>
    intro first h
    unfold probeFlowId at h
    split at h
    · exact absurd h (by simp)
    · rename_i hnot
      rwa [← Option.some.inj h]
  | succ attempts ih =>
    intro first h
    unfold probeFlowId at h
    split at h
    · exact ih h
    · rename_i hnot
      rwa [← Option.some.inj h]

/-- The dependencies of an instruction on the producers of some of its input tiles. -/
structure Derived (s : NpuDependencyTracker) (i : NpuInstruction) (tiles : List Bytes) (shadow shadow' : Finset ℕ)
    (dependencies : List NpuDependency) : Prop where
  complete : ∀ tile ∈ tiles, ∀ producer, s.producers (i.blockId, tile) = some producer →
    ∃ d ∈ dependencies, d.producerSequenceId = producer
  sound : ∀ d ∈ dependencies, d.tileIdentity ∈ tiles ∧
    s.producers (i.blockId, d.tileIdentity) = some d.producerSequenceId
  grown : shadow' = shadow ∪ (dependencies.map (·.flowId)).toFinset
  fresh : ∀ d ∈ dependencies, d.flowId ∉ shadow
  nodup : (dependencies.map (·.flowId)).Nodup

variable {i : NpuInstruction} {tile : Bytes} {tiles : List Bytes} {shadow shadow' : Finset ℕ}
    {dependencies : List NpuDependency}

theorem Derived.nil (i : NpuInstruction) (shadow : Finset ℕ) : s.Derived i [] shadow shadow [] where
  complete := by simp
  sound := by simp
  grown := by simp
  fresh := by simp
  nodup := nodup_nil

theorem Derived.skip (hnone : s.producers (i.blockId, tile) = none)
    (h : s.Derived i tiles shadow shadow' dependencies) :
    s.Derived i (tile :: tiles) shadow shadow' dependencies where
  complete t ht producer hp := by
    rcases mem_cons.mp ht with rfl | ht
    · rw [hnone] at hp
      exact absurd hp (by simp)
    · exact h.complete t ht producer hp
  sound d hd := ⟨mem_cons_of_mem _ (h.sound d hd).1, (h.sound d hd).2⟩
  grown := h.grown
  fresh := h.fresh
  nodup := h.nodup

theorem Derived.cons {producer flow : ℕ} (hsome : s.producers (i.blockId, tile) = some producer)
    (hflow : flow ∉ shadow) (h : s.Derived i tiles (insert flow shadow) shadow' dependencies) :
    s.Derived i (tile :: tiles) shadow shadow' (⟨producer, tile, flow⟩ :: dependencies) where
  complete t ht q hq := by
    rcases mem_cons.mp ht with rfl | ht
    · rw [hsome] at hq
      exact ⟨_, mem_cons_self, Option.some.inj hq⟩
    · obtain ⟨d, hd, h'⟩ := h.complete t ht q hq
      exact ⟨d, mem_cons_of_mem _ hd, h'⟩
  sound d hd := by
    rcases mem_cons.mp hd with rfl | hd
    · exact ⟨mem_cons_self, hsome⟩
    · exact ⟨mem_cons_of_mem _ (h.sound d hd).1, (h.sound d hd).2⟩
  grown := by
    rw [h.grown]
    ext x
    simp only [Finset.mem_union, Finset.mem_insert, mem_toFinset, map_cons, mem_cons]
    tauto
  fresh d hd := by
    rcases mem_cons.mp hd with rfl | hd
    · exact hflow
    · exact fun hmem => h.fresh d hd (Finset.mem_insert_of_mem hmem)
  nodup := by
    refine nodup_cons.mpr ⟨fun hmem => ?_, h.nodup⟩
    obtain ⟨d, hd, heq⟩ := mem_map.mp hmem
    exact h.fresh d hd (by rw [heq]; exact Finset.mem_insert_self _ _)

theorem deriveDependencies_ok (i : NpuInstruction) : ∀ (tiles : List Bytes) (shadow : Finset ℕ)
    (code : String), (s.deriveDependencies i tiles shadow code).2.2 = "" →
    code = "" ∧ s.Derived i tiles shadow (s.deriveDependencies i tiles shadow code).2.1
      (s.deriveDependencies i tiles shadow code).1
  | [], shadow, code, h => ⟨h, .nil i shadow⟩
  | tile :: tiles, shadow, code, h => by
    unfold deriveDependencies at h ⊢
    cases hp : s.producers (i.blockId, tile) with
    | none =>
      simp only [hp] at h ⊢
      obtain ⟨hcode, hrest⟩ := deriveDependencies_ok i tiles shadow code h
      exact ⟨hcode, hrest.skip hp⟩
    | some producer =>
      simp only [hp] at h ⊢
      cases hprobe : probeFlowId shadow shadow.card
          (dependencyFlowId i.blockId producer i.sequenceId tile) with
      | none =>
        rw [hprobe] at h
        exact absurd (show "npu_dependency_flow_id_exhausted" = "" from h) (by decide)
      | some flow =>
        simp only [hprobe] at h ⊢
        split at h
        · exact absurd h ‹_›
        · rename_i hcode
          rw [if_neg hcode]
          obtain ⟨_, hrest⟩ := deriveDependencies_ok i tiles (insert flow shadow) code h
          exact ⟨not_not.mp hcode, hrest.cons hp (probeFlowId_not_mem hprobe)⟩

/-! ### The dispatch loop -/

/-- The invariant of the dispatch loop after the proposals `done`. -/
structure Arbitrated (s : NpuDependencyTracker) (a : Arbitration) (done : List DispatchProposal) : Prop where
  first : a.accepted.map (·.proposal) <+: done
  all : a.dispatchBlocked = false → a.accepted.map (·.proposal) = done
  room : ∀ engine, a.remaining engine + (ofEngine engine a.accepted).length = s.room engine
  derived : ∀ e ∈ a.accepted, ∃ shadow shadow', s.Derived e.instruction e.instruction.inputTiles
    shadow shadow' e.derivedDependencies
  grown : s.usedFlowIds ∪ (flowIds a.accepted).toFinset ⊆ a.shadowFlowIds
  fresh : ∀ flow ∈ flowIds a.accepted, flow ∉ s.usedFlowIds
  nodup : (flowIds a.accepted).Nodup
  code : a.accepted ≠ [] → s.runtimeFailureCode = ""
  named : a.runtimeFailureCode = s.runtimeFailureCode ∨
    a.runtimeFailureCode = "npu_dependency_flow_id_exhausted"

variable {a : Arbitration} {done : List DispatchProposal} {shadow : Finset ℕ}

theorem Arbitrated.reject (h : s.Arbitrated a done) (proposal : DispatchProposal)
    (rejected : List ℕ) (hshadow : a.shadowFlowIds ⊆ shadow) {code : String}
    (hcode : code = a.runtimeFailureCode ∨ code = "npu_dependency_flow_id_exhausted") :
    s.Arbitrated { a with
      rejected := rejected
      dispatchBlocked := true
      shadowFlowIds := shadow
      runtimeFailureCode := code } (done ++ [proposal]) where
  first := h.first.trans (prefix_append _ _)
  all hblocked := absurd hblocked (by simp)
  room := h.room
  derived := h.derived
  grown := h.grown.trans hshadow
  fresh := h.fresh
  nodup := h.nodup
  code := h.code
  named := by
    rcases hcode with rfl | rfl
    · exact h.named
    · exact Or.inr rfl

theorem Arbitrated.accept (h : s.Arbitrated a done) (hblocked : a.dispatchBlocked = false)
    {proposal : DispatchProposal} (hroom : a.remaining proposal.instruction.engine ≠ 0)
    {dependencies : List NpuDependency} (hcode : a.runtimeFailureCode = "")
    (hderived :
      s.Derived proposal.instruction proposal.instruction.inputTiles a.shadowFlowIds shadow dependencies) :
    s.Arbitrated { a with
      remaining := update a.remaining proposal.instruction.engine
        (a.remaining proposal.instruction.engine - 1)
      shadowFlowIds := shadow
      accepted := a.accepted ++ [⟨proposal.instruction, proposal.stableObjectId, dependencies⟩] }
      (done ++ [proposal]) := by
  let entry : NpuIssueEntry := ⟨proposal.instruction, proposal.stableObjectId, dependencies⟩
  have hnew : flowIds [entry] = dependencies.map (·.flowId) := by
    simp [flowIds, entry]
  have hlist : (a.accepted ++ [entry]).map (·.proposal) = done ++ [proposal] := by
    rw [map_append, h.all hblocked]
    rfl
  have hused : s.usedFlowIds ⊆ a.shadowFlowIds := Finset.union_subset_left h.grown
  have hold : (flowIds a.accepted).toFinset ⊆ a.shadowFlowIds := Finset.union_subset_right h.grown
  refine ⟨hlist ▸ prefix_rfl, fun _ => hlist, fun engine => ?_, fun e he => ?_, ?_, fun flow hflow => ?_,
    ?_, fun _ => ?_, h.named⟩
  · have hbefore := h.room engine
    simp only [ofEngine_append, length_append]
    by_cases hengine : engine = proposal.instruction.engine
    · subst hengine
      simp only [update_self, ofEngine, filter_cons, filter_nil, decide_true,
        if_true, length_cons, length_nil] at hbefore ⊢
      omega
    · have hother : ofEngine engine [entry] = [] := by
        simp [ofEngine, entry, Ne.symm hengine]
      rw [hother, update_of_ne hengine, length_nil]
      omega
  · rcases mem_append.mp he with he | he
    · exact h.derived e he
    · rw [mem_singleton.mp he]
      exact ⟨_, _, hderived⟩
  · rw [hderived.grown, flowIds_append, hnew, toFinset_append, ← Finset.union_assoc]
    exact Finset.union_subset_union_left h.grown
  · rw [flowIds_append, hnew, mem_append] at hflow
    rcases hflow with hflow | hflow
    · exact h.fresh flow hflow
    · obtain ⟨d, hd, rfl⟩ := mem_map.mp hflow
      exact fun hmem => hderived.fresh d hd (hused hmem)
  · rw [flowIds_append, hnew]
    refine List.Nodup.append h.nodup hderived.nodup fun flow hflow hflow' => ?_
    obtain ⟨d, hd, rfl⟩ := mem_map.mp hflow'
    exact hderived.fresh d hd (hold (mem_toFinset.mpr hflow))
  · rcases h.named with hnamed | hnamed
    · exact hnamed ▸ hcode
    · exact absurd (hnamed.symm.trans hcode) (by decide)

/-- The shadow only grows, and a loop that fails names the failure. -/
theorem deriveDependencies_failed (i : NpuInstruction) : ∀ (tiles : List Bytes) (shadow : Finset ℕ)
    (code : String), shadow ⊆ (s.deriveDependencies i tiles shadow code).2.1 ∧
      ((s.deriveDependencies i tiles shadow code).2.2 = code ∨
        (s.deriveDependencies i tiles shadow code).2.2 = "npu_dependency_flow_id_exhausted")
  | [], shadow, code => ⟨subset_rfl, Or.inl rfl⟩
  | tile :: tiles, shadow, code => by
    unfold deriveDependencies
    split
    · exact deriveDependencies_failed i tiles shadow code
    · simp only
      split
      · exact ⟨subset_rfl, Or.inr rfl⟩
      · rename_i flow _
        split_ifs
        · exact ⟨subset_rfl, Or.inl rfl⟩
        · obtain ⟨hgrown, hcode⟩ := deriveDependencies_failed i tiles (insert flow shadow) code
          exact ⟨(Finset.subset_insert _ _).trans hgrown, hcode⟩

theorem Arbitrated.step (h : s.Arbitrated a done) (proposal : DispatchProposal) :
    s.Arbitrated (s.arbitrateDispatch a proposal) (done ++ [proposal]) := by
  unfold arbitrateDispatch
  simp only
  split
  · exact h.reject proposal _ subset_rfl (Or.inl rfl)
  · rename_i hfree
    simp only [Bool.or_eq_true, decide_eq_true_eq, not_or, Bool.not_eq_true] at hfree
    split
    · obtain ⟨hgrown, hcode⟩ := deriveDependencies_failed (s := s) proposal.instruction
        proposal.instruction.inputTiles a.shadowFlowIds a.runtimeFailureCode
      exact h.reject proposal _ hgrown hcode
    · rename_i hok
      obtain ⟨hcode, hderived⟩ := deriveDependencies_ok _ _ _ _ (not_not.mp hok)
      exact h.accept hfree.1 hfree.2 hcode hderived

variable (s)

theorem arbitration_arbitrated : s.Arbitrated s.arbitration s.sortedProposals := by
  have hstart : s.Arbitrated
      { remaining := s.room, shadowFlowIds := s.usedFlowIds, runtimeFailureCode := s.runtimeFailureCode }
      [] :=
    ⟨prefix_rfl, fun _ => rfl, fun _ => by simp [ofEngine], by simp, by simp, by simp, nodup_nil,
      fun h => absurd rfl h, Or.inl rfl⟩
  have hrun : ∀ (rest : List DispatchProposal) (a : Arbitration) (done : List DispatchProposal),
      s.Arbitrated a done → s.Arbitrated (rest.foldl s.arbitrateDispatch a) (done ++ rest) := by
    intro rest
    induction rest with
    | nil =>
      intro a done h
      rwa [List.append_nil]
    | cons proposal rest ih =>
      intro a done h
      have hstep := ih _ _ (h.step proposal)
      rwa [List.append_assoc] at hstep
  exact hrun s.sortedProposals _ [] hstart

/-! ### The loops of the transfer -/

theorem foldl_commitDispatch (epoch : Epoch) :
    ∀ (l : List NpuIssueEntry) (s : NpuDependencyTracker),
    l.foldl (commitDispatch epoch) s = { s with
      producers := l.foldl (fun producers e => rename producers e.instruction) s.producers
      usedFlowIds := s.usedFlowIds ∪ (flowIds l).toFinset
      acceptedDispatchSequences := s.acceptedDispatchSequences ∪ (sequences l).toFinset
      lastDispatchedSequence := (sequences l).getLast?.or s.lastDispatchedSequence
      queues := fun engine => s.queues engine ++ (ofEngine engine l).map (setDispatched epoch)
      totalDispatches := s.totalDispatches + ofNat l.length }
  | [], s => by simp [ofEngine]
  | e :: l, s => by
    have hqueues : ∀ engine, (commitDispatch epoch s e).queues engine =
        s.queues engine ++ (ofEngine engine [e]).map (setDispatched epoch) := by
      intro engine
      by_cases hengine : engine = e.instruction.engine
      · subst hengine
        simp [commitDispatch, ofEngine]
      · simp [commitDispatch, ofEngine, update_of_ne hengine, Ne.symm hengine]
    have hlast : (sequences (e :: l)).getLast? =
        (sequences l).getLast?.or (some e.instruction.sequenceId) := by
      rw [show sequences (e :: l) = e.instruction.sequenceId :: sequences l from rfl, getLast?_cons]
      cases (sequences l).getLast? <;> rfl
    have htotal : s.totalDispatches + 1 + ofNat l.length =
        s.totalDispatches + ofNat (e :: l).length := by
      rw [length_cons, Nat.add_comm, ofNat_add]
      exact UInt64.add_assoc _ _ _
    rw [foldl_cons, foldl_commitDispatch epoch l]
    simp only [hqueues]
    simp only [commitDispatch, mk.injEq, true_and, and_true]
    refine ⟨?_, ?_, rfl, ?_, ?_, htotal⟩
    · funext engine
      rw [List.append_assoc, ← map_append, ← ofEngine_append, singleton_append]
    · ext x
      simp [sequences]
    · ext x
      simp [flowIds]
    · rw [hlast, Option.or_assoc, Option.some_or]

/-- What is left of a queue after the issue of a proposal. -/
def afterIssue : Option NpuIssueEntry → List NpuIssueEntry → List NpuIssueEntry
  | none, queue => queue
  | some proposal, queue => queue.eraseP (named proposal)

theorem foldl_commitIssue (epoch : Epoch) :
    ∀ (engines : List NpuEngineClass) (s : NpuDependencyTracker),
    engines.Nodup →
    (∀ engine ∈ engines, ∀ proposal, s.issueProposals engine = some proposal →
      (s.queues engine).find? (named proposal) = some proposal) →
    engines.foldl (commitIssue epoch) s = { s with
      outstandingSequences :=
        s.outstandingSequences ∪ (sequences (engines.filterMap s.issueProposals)).toFinset
      issued := s.issued ++ (engines.filterMap s.issueProposals).map (setIssued epoch)
      queues := fun engine =>
        if engine ∈ engines then afterIssue (s.issueProposals engine) (s.queues engine)
        else s.queues engine
      totalIssues := s.totalIssues + ofNat (engines.filterMap s.issueProposals).length }
  | [], s, _, _ => by simp
  | engine :: engines, s, hnodup, hfound => by
    obtain ⟨hnot, hnodup⟩ := nodup_cons.mp hnodup
    cases hproposal : s.issueProposals engine with
    | none =>
      have hstep : commitIssue epoch s engine = s := by
        simp only [commitIssue, hproposal]
      rw [foldl_cons, hstep, foldl_commitIssue epoch engines s hnodup
        fun c hc => hfound c (mem_cons_of_mem _ hc)]
      simp only [filterMap_cons, hproposal, mk.injEq, true_and, and_true]
      funext c
      by_cases hc : c = engine
      · subst hc
        simp [hproposal, afterIssue]
      · simp [hc]
    | some proposal =>
      have hfind := hfound engine mem_cons_self proposal hproposal
      have hstep : commitIssue epoch s engine = { s with
          outstandingSequences := insert proposal.instruction.sequenceId s.outstandingSequences
          issued := s.issued ++ [setIssued epoch proposal]
          queues := update s.queues engine ((s.queues engine).eraseP (named proposal))
          totalIssues := s.totalIssues + 1 } := by
        simp only [commitIssue, hproposal, hfind]
      have hothers : ∀ c ∈ engines, update s.queues engine
          ((s.queues engine).eraseP (named proposal)) c = s.queues c := by
        intro c hc
        refine update_of_ne ?_ _ _
        rintro rfl
        exact hnot hc
      rw [foldl_cons, hstep, foldl_commitIssue epoch engines _ hnodup]
      swap
      · exact fun c hc p hp => (congrArg (List.find? (named p)) (hothers c hc)).trans
          (hfound c (mem_cons_of_mem _ hc) p hp)
      have htotal (n : ℕ) : s.totalIssues + 1 + ofNat n = s.totalIssues + ofNat (n + 1) := by
        rw [Nat.add_comm, ofNat_add]
        exact UInt64.add_assoc _ _ _
      simp only [filterMap_cons, hproposal, mk.injEq, true_and, and_true]
      refine ⟨?_, ?_, ?_, ?_⟩
      · funext c
        by_cases hc : c = engine
        · subst hc
          simp [hnot, hproposal, afterIssue]
        · simp [hc]
      · rw [List.append_assoc, map_cons, singleton_append]
      · ext x
        simp [sequences]
      · exact htotal _

theorem foldl_commitCompletion : ∀ (l : List ℕ) (s : NpuDependencyTracker),
    l.foldl commitCompletion s = { s with
      totalDependencyWakeups := s.totalDependencyWakeups + ofNat (l.map s.wakeups).sum
      completedSequences := s.completedSequences ∪ l.toFinset
      outstandingSequences := s.outstandingSequences \ l.toFinset }
  | [], s => by simp
  | sequenceId :: l, s => by
    have hwakeups : (commitCompletion s sequenceId).wakeups = s.wakeups := rfl
    rw [foldl_cons, foldl_commitCompletion l, hwakeups]
    simp only [commitCompletion, mk.injEq, true_and, and_true]
    refine ⟨?_, ?_, ?_⟩
    · ext x
      simp
      tauto
    · ext x
      simp
    · rw [map_cons, sum_cons, ofNat_add]
      exact UInt64.add_assoc _ _ _

end NpuDependencyTracker

end AgenticCircuit.Npu
