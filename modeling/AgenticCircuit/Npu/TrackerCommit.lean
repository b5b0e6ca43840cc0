import AgenticCircuit.Npu.TrackerRun

/-! # The end of an epoch

`doArbitrate` and `doXfer` keep the invariant of the dependency tracker, so it holds in every state
of a run (`Run.invariant`). -/

namespace AgenticCircuit.Npu

open List NpuIssueEntry NpuEngineClass
open Bindings Trace Gfsim

namespace NpuDependencyTracker

variable {capacities : NpuEngineClass → ℕ} {log : Log} {s : NpuDependencyTracker}

/-- The entries an arbitration accepts, as they enter their queues. -/
def entering (s : NpuDependencyTracker) (epoch : Epoch) : List NpuIssueEntry :=
  s.arbitration.accepted.map (setDispatched epoch)

/-- The entries the epoch issues. -/
def leaving (s : NpuDependencyTracker) : List NpuIssueEntry :=
  NpuEngineClass.all.filterMap s.issueProposals

@[simp] theorem sequences_setDispatched (epoch : Epoch) (l : List NpuIssueEntry) :
    sequences (l.map (setDispatched epoch)) = sequences l := by
  simp [sequences, setDispatched]

@[simp] theorem sequences_setIssued (epoch : Epoch) (l : List NpuIssueEntry) :
    sequences (l.map (setIssued epoch)) = sequences l := by
  simp [sequences, setIssued]

@[simp] theorem flowIds_setDispatched (epoch : Epoch) (l : List NpuIssueEntry) :
    flowIds (l.map (setDispatched epoch)) = flowIds l := by
  simp [flowIds, setDispatched, flatMap_map]

theorem ofEngine_setDispatched (epoch : Epoch) (engine : NpuEngineClass) (l : List NpuIssueEntry) :
    (ofEngine engine l).map (setDispatched epoch) = ofEngine engine (l.map (setDispatched epoch)) := by
  rw [ofEngine, ofEngine, filter_map]
  rfl

theorem commit_eq (haccepted : s.acceptedDispatches = [])
    (hrejected : s.proposedRejectedDispatches = [])
    (hfound : ∀ engine proposal, s.issueProposals engine = some proposal →
      (s.queues engine).find? (named proposal) = some proposal) (epoch : Epoch) (sink : ℕ → Bool) :
    s.commit epoch sink =
      { s with
        queues := fun engine => insertAll key []
          (afterIssue (s.issueProposals engine) (s.queues engine ++ ofEngine engine (s.entering epoch)))
        dispatchProposals := []
        acceptedDispatches := []
        proposedRejectedDispatches := []
        rejectedDispatches := s.arbitration.rejected
        acceptedDispatchSequences := (sequences s.arbitration.accepted).toFinset
        issueProposals := fun _ => none
        issued := insertAll key [] (s.leaving.map (setIssued epoch))
        completionProposals := []
        outstandingSequences := (s.outstandingSequences ∪ (sequences s.leaving).toFinset) \
          s.sortedCompletions.toFinset
        completedSequences := s.completedSequences ∪ s.sortedCompletions.toFinset
        producers := s.arbitration.accepted.foldl (fun producers e => rename producers e.instruction)
          s.producers
        usedFlowIds := s.usedFlowIds ∪ (flowIds s.arbitration.accepted).toFinset
        lastDispatchedSequence :=
          (sequences s.arbitration.accepted).getLast?.or s.lastDispatchedSequence
        highWatermarks := (s.commit epoch sink).highWatermarks
        totalDispatches := s.totalDispatches + UInt64.ofNat s.arbitration.accepted.length
        totalDispatchStalls := (s.commit epoch sink).totalDispatchStalls
        totalIssues := s.totalIssues + UInt64.ofNat s.leaving.length
        totalDependencyWakeups := (s.commit epoch sink).totalDependencyWakeups
        lastUpdate := (s.commit epoch sink).lastUpdate
        runtimeFailureCode := (s.doArbitrate sink).1.runtimeFailureCode } := by
  have hnodup : all.Nodup := by decide
  unfold commit doXfer
  simp only [foldl_commitCompletion, foldl_commitDispatch]
  rw [foldl_commitIssue epoch _ _ hnodup]
  · simp [doArbitrate, arbitrated, haccepted, hrejected, entering, leaving, mem_all,
      ofEngine_setDispatched]
  · intro engine _ proposal hproposal
    have hhead : (s.queues engine).find? (named proposal) = some proposal := hfound engine proposal hproposal
    show find? (named proposal) (s.queues engine ++ _) = some proposal
    rw [find?_append, hhead]
    rfl

/-! ### Entries with increasing sequences -/

section increasing

variable {l : List NpuIssueEntry} {proposal : NpuIssueEntry}

theorem find?_named (hl : (sequences l).Pairwise (· < ·)) (hmem : proposal ∈ l) :
    l.find? (named proposal) = some proposal := by
  induction l with
  | nil => exact absurd hmem not_mem_nil
  | cons e l ih =>
    obtain ⟨hhead, htail⟩ := pairwise_cons.mp hl
    rcases mem_cons.mp hmem with rfl | hmem
    · exact find?_cons_of_pos (by simp [named])
    · have hlt := hhead _ (mem_sequences.mpr ⟨proposal, hmem, rfl⟩)
      have hother : named proposal e = false := by
        simp [named, ne_of_lt hlt]
      rw [find?_cons_of_neg (by simp [hother])]
      exact ih htail hmem

theorem eraseP_named (hl : (sequences l).Pairwise (· < ·)) (hmem : proposal ∈ l) :
    l.eraseP (named proposal) =
      l.filter fun e => e.instruction.sequenceId ≠ proposal.instruction.sequenceId := by
  induction l with
  | nil => rfl
  | cons e l ih =>
    obtain ⟨hhead, htail⟩ := pairwise_cons.mp hl
    rcases mem_cons.mp hmem with rfl | hmem
    · rw [eraseP_cons_of_pos (by simp [named]), filter_cons_of_neg (by simp)]
      refine (filter_eq_self.mpr fun e he => ?_).symm
      have hlt := hhead _ (mem_sequences.mpr ⟨e, he, rfl⟩)
      exact decide_eq_true (ne_of_gt hlt)
    · have hlt := hhead _ (mem_sequences.mpr ⟨proposal, hmem, rfl⟩)
      rw [eraseP_cons_of_neg (by simp [named, ne_of_lt hlt]),
        filter_cons_of_pos (by simp [ne_of_lt hlt]), ih htail hmem]

theorem sorted_of_increasing (hl : (sequences l).Pairwise (· < ·)) : Sorted key l :=
  (pairwise_map.mp hl).imp fun h => le_of_lt (key_lt h)

theorem eq_of_sequenceId (hl : (sequences l).Nodup) {a b : NpuIssueEntry} (ha : a ∈ l) (hb : b ∈ l)
    (heq : a.instruction.sequenceId = b.instruction.sequenceId) : a = b :=
  inj_on_of_nodup_map hl ha hb heq

theorem nodup_of_increasing {l : List ℕ} (hl : l.Pairwise (· < ·)) : l.Nodup :=
  hl.imp fun h => ne_of_lt h

theorem increasing_filter (hl : (sequences l).Pairwise (· < ·)) (p : NpuIssueEntry → Bool) :
    (sequences (l.filter p)).Pairwise (· < ·) :=
  hl.sublist (filter_sublist.map _)

end increasing

/-! ### The accepted dispatches -/

section accepted

theorem sortedProposals_increasing (h : s.Pending log) :
    (s.sortedProposals.map (·.instruction.sequenceId)).Pairwise (· < ·) := by
  have hperm : s.sortedProposals.Perm s.dispatchProposals := insertAll_perm _ [] _
  have hsorted : s.sortedProposals.Pairwise fun a b => a.key ≤ b.key :=
    (Sorted.nil DispatchProposal.key).insertAll _ s.dispatchProposals
  have hnodup : (s.sortedProposals.map (·.instruction.sequenceId)).Nodup :=
    (hperm.map _).nodup_iff.mpr h.dispatches
  rw [pairwise_map]
  refine (hsorted.and (pairwise_map.mp hnodup)).imp fun {a b} hab => ?_
  rcases Prod.Lex.toLex_le_toLex.mp hab.1 with hlt | ⟨heq, _⟩
  · exact hlt
  · exact absurd heq hab.2

theorem accepted_sublist (s : NpuDependencyTracker) :
    (sequences s.arbitration.accepted).Sublist (s.sortedProposals.map (·.instruction.sequenceId)) := by
  have hmap : sequences s.arbitration.accepted =
      (s.arbitration.accepted.map (·.proposal)).map (·.instruction.sequenceId) := by
    rw [map_map]
    rfl
  rw [hmap]
  exact s.arbitration_arbitrated.first.sublist.map _

theorem accepted_increasing (h : s.Pending log) :
    (sequences s.arbitration.accepted).Pairwise (· < ·) :=
  (sortedProposals_increasing h).sublist (accepted_sublist s)

theorem accepted_younger (h : s.Pending log) {x : ℕ} (hx : x ∈ sequences s.arbitration.accepted) :
    ∀ y ∈ sequences log.accepted, y < x := by
  obtain ⟨p, hp, rfl⟩ := mem_map.mp ((accepted_sublist s).subset hx)
  exact h.younger p ((insertAll_perm _ [] _).mem_iff.mp hp)

theorem entering_increasing (h : Invariant capacities log s) (epoch : Epoch) :
    (sequences (log.accepted ++ s.entering epoch)).Pairwise (· < ·) := by
  rw [sequences_append, entering, sequences_setDispatched]
  exact pairwise_append.mpr ⟨h.committed.increasing, accepted_increasing h.pending,
    fun y hy x hx => accepted_younger h.pending hx y hy⟩

end accepted

/-! ### The issued entries -/

section issued

theorem mem_leaving {e : NpuIssueEntry} :
    e ∈ s.leaving ↔ ∃ engine, s.issueProposals engine = some e := by
  simp [leaving, mem_all]

theorem Committed.mem_queue (h : s.Committed log) {engine : NpuEngineClass} {e : NpuIssueEntry} :
    e ∈ s.queues engine ↔ e ∈ log.accepted ∧ e.instruction.engine = engine ∧
      e.instruction.sequenceId ∉ sequences log.issued := by
  rw [h.queues, mem_filter, ofEngine, mem_filter, decide_eq_true_eq, decide_eq_true_eq, and_assoc]

theorem Committed.queue_increasing (h : s.Committed log) (engine : NpuEngineClass) :
    (sequences (s.queues engine)).Pairwise (· < ·) := by
  rw [h.queues]
  exact increasing_filter (increasing_filter h.increasing _) _

section

variable (h : Invariant capacities log s) {e : NpuIssueEntry}

include h

theorem Invariant.proposal_mem {engine : NpuEngineClass} (he : s.issueProposals engine = some e) :
    e ∈ log.accepted ∧ e.instruction.engine = engine ∧ e.instruction.sequenceId ∉ sequences log.issued :=
  h.committed.mem_queue.mp (h.pending.issues engine e he).1

theorem Invariant.find?_proposal (engine : NpuEngineClass) (proposal : NpuIssueEntry)
    (hproposal : s.issueProposals engine = some proposal) :
    (s.queues engine).find? (named proposal) = some proposal :=
  find?_named (h.committed.queue_increasing engine) (h.pending.issues engine proposal hproposal).1

theorem Invariant.mem_leaving (he : e ∈ s.leaving) :
    e ∈ log.accepted ∧ s.issueProposals e.instruction.engine = some e ∧
      e.instruction.sequenceId ∉ sequences log.issued := by
  obtain ⟨engine, hproposal⟩ := NpuDependencyTracker.mem_leaving.mp he
  obtain ⟨haccepted, rfl, hnot⟩ := h.proposal_mem hproposal
  exact ⟨haccepted, hproposal, hnot⟩

theorem Invariant.leaving_nodup : (sequences s.leaving).Nodup := by
  have hengines : all.Nodup := by decide
  have hleaving : s.leaving.Nodup := hengines.filterMap fun a a' e ha ha' =>
    (h.proposal_mem ha).2.1.symm.trans (h.proposal_mem ha').2.1
  refine List.Nodup.map_on (fun a ha b hb heq => ?_) hleaving
  exact eq_of_sequenceId (nodup_of_increasing h.committed.increasing) (h.mem_leaving ha).1
    (h.mem_leaving hb).1 heq

theorem Invariant.afterIssue_eq (epoch : Epoch) (engine : NpuEngineClass) :
    afterIssue (s.issueProposals engine) (s.queues engine ++ ofEngine engine (s.entering epoch)) =
      (s.queues engine ++ ofEngine engine (s.entering epoch)).filter fun e =>
        e.instruction.sequenceId ∉ sequences s.leaving := by
  have hsub : (s.queues engine ++ ofEngine engine (s.entering epoch)).Sublist
      (log.accepted ++ s.entering epoch) := by
    rw [h.committed.queues]
    exact (filter_sublist.trans filter_sublist).append filter_sublist
  have hincreasing := entering_increasing h epoch
  have hengine : ∀ e ∈ s.queues engine ++ ofEngine engine (s.entering epoch),
      e.instruction.engine = engine := by
    intro e he
    rcases mem_append.mp he with he | he
    · exact (h.committed.mem_queue.mp he).2.1
    · exact of_decide_eq_true (mem_filter.mp he).2
  -- among the entries of one engine, only the one that issues has its sequence
  have hleaves : ∀ e ∈ s.queues engine ++ ofEngine engine (s.entering epoch),
      e.instruction.sequenceId ∈ sequences s.leaving →
      ∃ proposal, s.issueProposals engine = some proposal ∧
        e.instruction.sequenceId = proposal.instruction.sequenceId := by
    intro e he hmem
    obtain ⟨proposal, hproposal, heq⟩ := mem_sequences.mp hmem
    obtain ⟨haccepted, hissue, _⟩ := h.mem_leaving hproposal
    have hsame : e = proposal := eq_of_sequenceId (nodup_of_increasing hincreasing) (hsub.subset he)
      (mem_append_left _ haccepted) heq.symm
    rw [← hsame, hengine e he] at hissue
    exact ⟨e, hissue, rfl⟩
  cases hproposal : s.issueProposals engine with
  | none =>
    refine (filter_eq_self.mpr fun e he => ?_).symm
    refine decide_eq_true fun hmem => ?_
    obtain ⟨proposal, hsome, _⟩ := hleaves e he hmem
    exact absurd (hproposal.symm.trans hsome) (by simp)
  | some proposal =>
    have hqueue : proposal ∈ s.queues engine := (h.pending.issues engine proposal hproposal).1
    rw [afterIssue, eraseP_named (hincreasing.sublist (hsub.map _)) (mem_append_left _ hqueue)]
    refine filter_congr fun e he => ?_
    rw [decide_eq_decide, not_iff_not]
    constructor
    · intro heq
      rw [heq]
      exact mem_sequences.mpr ⟨proposal, NpuDependencyTracker.mem_leaving.mpr ⟨engine, hproposal⟩, rfl⟩
    · intro hmem
      obtain ⟨proposal', hsome, heq⟩ := hleaves e he hmem
      rw [Option.some.inj (hproposal.symm.trans hsome)]
      exact heq

end

end issued

/-! ### The rename table -/

section producers

variable (producers : TileKey → Option ℕ)

theorem foldl_update (blockId sequenceId : ℕ) (key : TileKey) :
    ∀ tiles : List Bytes, tiles.foldl (fun producers tile =>
        Function.update producers (blockId, tile) (some sequenceId)) producers key =
      if blockId = key.1 ∧ key.2 ∈ tiles then some sequenceId else producers key := by
  intro tiles
  induction tiles generalizing producers with
  | nil => simp
  | cons tile tiles ih =>
    rw [foldl_cons, ih]
    by_cases hkey : key = (blockId, tile)
    · subst hkey
      simp
    · rw [Function.update_of_ne hkey]
      have hiff : (blockId = key.1 ∧ key.2 ∈ tile :: tiles) ↔ (blockId = key.1 ∧ key.2 ∈ tiles) := by
        refine and_congr_right fun hblock => ?_
        rw [mem_cons, or_iff_right]
        exact fun htile => hkey (Prod.ext hblock.symm htile)
      simp only [hiff]

theorem rename_apply (i : NpuInstruction) (key : TileKey) :
    rename producers i key = if i.Outputs key then some i.sequenceId else producers key :=
  foldl_update producers i.blockId i.sequenceId key i.outputTiles

theorem foldl_rename (key : TileKey) : ∀ (l : List NpuIssueEntry) (producers : TileKey → Option ℕ),
    l.foldl (fun producers e => rename producers e.instruction) producers key =
      (sequences (l.filter fun e => e.instruction.Outputs key)).getLast?.or (producers key)
  | [], producers => rfl
  | e :: l, producers => by
    rw [foldl_cons, foldl_rename key l, rename_apply, filter_cons]
    by_cases houtputs : e.instruction.Outputs key
    · rw [if_pos houtputs, if_pos (decide_eq_true houtputs)]
      have hcons (m : List NpuIssueEntry) : (sequences (e :: m)).getLast? =
          (sequences m).getLast?.or (some e.instruction.sequenceId) := by
        rw [show sequences (e :: m) = e.instruction.sequenceId :: sequences m from rfl, getLast?_cons]
        cases (sequences m).getLast? <;> rfl
      rw [hcons, Option.or_assoc, Option.some_or]
    · rw [if_neg houtputs, if_neg (by simp [houtputs])]

theorem outputs_setDispatched (epoch : Epoch) (key : TileKey) (l : List NpuIssueEntry) :
    sequences ((l.map (setDispatched epoch)).filter fun e => e.instruction.Outputs key) =
      sequences (l.filter fun e => e.instruction.Outputs key) := by
  rw [filter_map, sequences_setDispatched]
  rfl

end producers

/-! ### The observations -/

section events

theorem flowEvents_append (l m : List EventProposal) (flow : ℕ) :
    flowEvents (l ++ m) flow = flowEvents l flow ++ flowEvents m flow := filter_append ..

variable (phase : TraceEventPhase)

@[simp] theorem flowsOf_append (l m : List NpuIssueEntry) (flow : ℕ) :
    flowsOf phase (l ++ m) flow = flowsOf phase l flow ++ flowsOf phase m flow := flatMap_append

theorem flowEvents_entryEvents (name : String) (phase : TraceEventPhase)
    (entries : List NpuIssueEntry) (flow : ℕ) :
    flowEvents (entries.flatMap (entryEvents name phase)) flow = flowsOf phase entries flow := by
  induction entries with
  | nil => rfl
  | cons e entries ih =>
    have hentry : flowEvents (entryEvents name phase e) flow =
        (e.derivedDependencies.filter fun d => d.flowId = flow).map (flowEvent phase e) := by
      rw [entryEvents, flowEvents, filter_cons_of_neg (by simp [instructionEvent]), filter_map]
      congr 2
      funext d
      simp [flowEvent]
    rw [flatMap_cons, flowEvents_append, hentry, ih]
    rfl

theorem flowEvents_eq_nil {events : List EventProposal} (h : ∀ p ∈ events, p.flowId = none)
    (flow : ℕ) : flowEvents events flow = [] :=
  filter_eq_nil_iff.mpr fun p hp => by simp [h p hp]

theorem flowEvents_observations (s : NpuDependencyTracker) (flow : ℕ) :
    flowEvents s.observations flow =
      flowsOf .flowStart s.acceptedDispatches flow ++ flowsOf .flowEnd s.proposedIssues flow := by
  have hstalls : flowEvents (s.proposedRejectedDispatches.map stallEvent) flow = [] := by
    refine flowEvents_eq_nil (fun p hp => ?_) flow
    obtain ⟨x, _, rfl⟩ := mem_map.mp hp
    rfl
  have hready : flowEvents (s.sortedCompletions.flatMap fun producer =>
      (s.waiting producer).map (readyEvent producer)) flow = [] := by
    refine flowEvents_eq_nil (fun p hp => ?_) flow
    obtain ⟨producer, _, hp⟩ := mem_flatMap.mp hp
    obtain ⟨e, _, rfl⟩ := mem_map.mp hp
    rfl
  rw [observations, flowEvents_append, flowEvents_append, flowEvents_append, flowEvents_entryEvents,
    flowEvents_entryEvents, hstalls, hready, append_nil, append_nil]

theorem observations_instant (s : NpuDependencyTracker) :
    ∀ p ∈ s.observations, p.flowId = none → p.phase = .instant := by
  have hentry (name : String) (phase : TraceEventPhase) (entries : List NpuIssueEntry) :
      ∀ p ∈ entries.flatMap (entryEvents name phase), p.flowId = none → p.phase = .instant := by
    intro p hp hflow
    obtain ⟨e, _, hp⟩ := mem_flatMap.mp hp
    rcases mem_cons.mp hp with rfl | hp
    · rfl
    · obtain ⟨d, _, rfl⟩ := mem_map.mp hp
      exact absurd hflow (by simp [flowEvent])
  intro p hp
  simp only [observations, mem_append] at hp
  rcases hp with ((hp | hp) | hp) | hp
  · exact hentry _ _ _ p hp
  · obtain ⟨x, _, rfl⟩ := mem_map.mp hp
    exact fun _ => rfl
  · exact hentry _ _ _ p hp
  · obtain ⟨producer, _, hp⟩ := mem_flatMap.mp hp
    obtain ⟨e, _, rfl⟩ := mem_map.mp hp
    exact fun _ => rfl

theorem flowsOf_setDispatched (epoch : Epoch) (l : List NpuIssueEntry) (flow : ℕ) :
    flowsOf phase (l.map (setDispatched epoch)) flow = flowsOf phase l flow := by
  rw [flowsOf, flatMap_map]
  rfl

theorem flowsOf_setIssued (epoch : Epoch) (l : List NpuIssueEntry) (flow : ℕ) :
    flowsOf phase (l.map (setIssued epoch)) flow = flowsOf phase l flow := by
  rw [flowsOf, flatMap_map]
  rfl

theorem flowsOf_eq_nil {phase : TraceEventPhase} {entries : List NpuIssueEntry} {flow : ℕ}
    (h : flow ∉ flowIds entries) : flowsOf phase entries flow = [] := by
  refine flatMap_eq_nil_iff.mpr fun e he => ?_
  rw [map_eq_nil_iff, filter_eq_nil_iff]
  exact fun d hd heq => h (mem_flowIds.mpr ⟨e, he, d, hd, of_decide_eq_true heq⟩)

end events

/-! ### The invariant -/

variable {x : ℕ}

theorem mem_proposedIssues : x ∈ sequences s.proposedIssues ↔ x ∈ sequences s.leaving :=
  ((insertAll_perm key [] s.leaving).map _).mem_iff

theorem mem_sortedCompletions : x ∈ s.sortedCompletions ↔ x ∈ s.completionProposals :=
  (insertAll_perm id [] s.completionProposals).mem_iff

section commit

variable (h : Invariant capacities log s) (epoch : Epoch) (sink : ℕ → Bool)
include h

theorem Invariant.record_eq : log.record s (.commit epoch sink) =
    { accepted := log.accepted ++ s.entering epoch
      issued := log.issued ++ s.proposedIssues.map (setIssued epoch)
      completed := log.completed ++ s.sortedCompletions
      events := log.events ++ s.arbitrated.observations } := by
  have hissued : (s.commit epoch sink).issued = s.proposedIssues.map (setIssued epoch) := by
    rw [commit_eq h.pending.accepted h.pending.rejected h.find?_proposal]
    exact insertAll_map key (f := setIssued epoch) (fun _ => rfl) s.leaving []
  have haccepted : (s.doArbitrate sink).1.acceptedDispatches = s.arbitration.accepted := by
    show s.acceptedDispatches ++ s.arbitration.accepted = _
    rw [h.pending.accepted, nil_append]
  rw [Log.record, hissued, haccepted]
  rfl

variable (engine : NpuEngineClass)

theorem Invariant.commit_queues : (s.commit epoch sink).queues engine =
      (ofEngine engine (log.accepted ++ s.entering epoch)).filter fun e =>
        e.instruction.sequenceId ∉ sequences (log.issued ++ s.proposedIssues.map (setIssued epoch)) := by
  have hnew : ofEngine engine (s.entering epoch) = (ofEngine engine (s.entering epoch)).filter
      fun e => e.instruction.sequenceId ∉ sequences log.issued := by
    refine (filter_eq_self.mpr fun e he => ?_).symm
    refine decide_eq_true fun hissued => ?_
    have hmem : e.instruction.sequenceId ∈ sequences s.arbitration.accepted := by
      rw [← sequences_setDispatched epoch]
      exact mem_sequences.mpr ⟨e, mem_of_mem_filter he, rfl⟩
    obtain ⟨e', he', heq⟩ := mem_sequences.mp hissued
    obtain ⟨a, ha, _, rfl⟩ := h.committed.issued e' he'
    have hlt := accepted_younger h.pending hmem _ (mem_sequences.mpr ⟨a, ha, rfl⟩)
    exact absurd heq (ne_of_lt hlt)
  have hqueue : s.queues engine ++ ofEngine engine (s.entering epoch) =
      (ofEngine engine (log.accepted ++ s.entering epoch)).filter
        fun e => e.instruction.sequenceId ∉ sequences log.issued := by
    rw [ofEngine_append, filter_append, ← hnew, h.committed.queues]
  have hsorted : Sorted key
      ((s.queues engine ++ ofEngine engine (s.entering epoch)).filter fun e =>
        e.instruction.sequenceId ∉ sequences s.leaving) := by
    rw [hqueue]
    exact sorted_of_increasing
      (increasing_filter (increasing_filter (increasing_filter (entering_increasing h epoch) _) _) _)
  rw [commit_eq h.pending.accepted h.pending.rejected h.find?_proposal]
  show insertAll key [] (afterIssue _ _) = _
  rw [h.afterIssue_eq, insertAll_eq_append _ (by rwa [nil_append]), nil_append, hqueue,
    filter_filter]
  refine filter_congr fun e _ => ?_
  rw [sequences_append, sequences_setIssued, ← Bool.decide_and, decide_eq_decide, mem_append, not_or,
    mem_proposedIssues, and_comm]

theorem Invariant.commit_room :
    ((s.commit epoch sink).queues engine).length ≤ s.capacities engine := by
  have hroom := s.arbitration_arbitrated.room engine
  have hbefore := h.committed.room engine
  have hentering : (ofEngine engine (s.entering epoch)).length =
      (ofEngine engine s.arbitration.accepted).length := by
    rw [entering, ← ofEngine_setDispatched, length_map]
  have hlength : ((s.commit epoch sink).queues engine).length =
      (afterIssue (s.issueProposals engine)
        (s.queues engine ++ ofEngine engine (s.entering epoch))).length := by
    rw [commit_eq h.pending.accepted h.pending.rejected h.find?_proposal]
    exact (insertAll_perm key [] _).length_eq
  rw [hlength]
  unfold room at hroom
  cases hproposal : s.issueProposals engine with
  | none =>
    simp only [hproposal, Option.isSome_none, Bool.false_eq_true, if_false] at hroom
    rw [afterIssue, length_append, hentering]
    omega
  | some proposal =>
    have hmem : proposal ∈ s.queues engine := (h.pending.issues engine proposal hproposal).1
    have hpos : 0 < (s.queues engine).length := length_pos_of_mem hmem
    simp only [hproposal, Option.isSome_some, if_true] at hroom
    rw [afterIssue, length_eraseP_of_mem (mem_append_left _ hmem) (by simp [named]),
      length_append, hentering]
    omega

theorem Invariant.commit_events (flow : ℕ) :
    flowEvents (log.events ++ s.arbitrated.observations) flow =
      flowsOf .flowStart (log.accepted ++ s.entering epoch) flow ++
        flowsOf .flowEnd (log.issued ++ s.proposedIssues.map (setIssued epoch)) flow := by
  have haccepted : s.arbitrated.acceptedDispatches = s.arbitration.accepted := by
    show s.acceptedDispatches ++ s.arbitration.accepted = _
    rw [h.pending.accepted, nil_append]
  have hissues : s.arbitrated.proposedIssues = s.proposedIssues := rfl
  rw [flowEvents_append, h.committed.events, flowEvents_observations, haccepted, hissues, flowsOf_append,
    flowsOf_append, entering, flowsOf_setDispatched, flowsOf_setIssued]
  -- a new flow has not ended before
  by_cases hnew : flow ∈ flowIds s.arbitration.accepted
  · have hunused : flow ∉ s.usedFlowIds := s.arbitration_arbitrated.fresh flow hnew
    have hend : flowsOf .flowEnd log.issued flow = [] := by
      refine flowsOf_eq_nil fun hissued => hunused ?_
      obtain ⟨e, he, d, hd, hflow⟩ := mem_flowIds.mp hissued
      obtain ⟨a, ha, _, rfl⟩ := h.committed.issued e he
      rw [h.committed.usedFlowIds, mem_toFinset]
      exact mem_flowIds.mpr ⟨a, ha, d, hd, hflow⟩
    rw [hend, append_nil, nil_append, append_assoc]
  · rw [flowsOf_eq_nil hnew, nil_append, append_nil, append_assoc]

theorem Invariant.commit_code :
    (s.doArbitrate sink).1.runtimeFailureCode ≠ "npu_issue_entry_missing" := by
  unfold doArbitrate
  dsimp only
  split
  · rcases s.arbitration_arbitrated.named with hnamed | hnamed
    · exact fun heq => h.code (hnamed.symm.trans heq)
    · exact fun heq => absurd (hnamed.symm.trans heq) (by decide)
  · decide

theorem Invariant.commit_issued : ∀ e ∈ log.issued ++ s.proposedIssues.map (setIssued epoch),
    ∃ a ∈ log.accepted ++ s.entering epoch, ∃ epoch, e = setIssued epoch a := by
  intro e he
  rcases mem_append.mp he with he | he
  · obtain ⟨a, ha, hissued⟩ := h.committed.issued e he
    exact ⟨a, mem_append_left _ ha, hissued⟩
  · obtain ⟨a, ha, rfl⟩ := mem_map.mp he
    have hleaving : a ∈ s.leaving := (insertAll_perm key [] s.leaving).mem_iff.mp ha
    exact ⟨a, mem_append_left _ (h.mem_leaving hleaving).1, epoch, rfl⟩

theorem Invariant.leaving_not_issued (hx : x ∈ sequences s.leaving) : x ∉ sequences log.issued := by
  obtain ⟨e, he, rfl⟩ := mem_sequences.mp hx
  exact (h.mem_leaving he).2.2

theorem Invariant.commit_issuedOnce :
    (sequences (log.issued ++ s.proposedIssues.map (setIssued epoch))).Nodup := by
  have hperm : (sequences s.proposedIssues).Perm (sequences s.leaving) :=
    (insertAll_perm key [] s.leaving).map _
  rw [sequences_append, sequences_setIssued]
  exact List.Nodup.append h.committed.issuedOnce (hperm.nodup_iff.mpr h.leaving_nodup)
    fun x hx hx' => h.leaving_not_issued (hperm.mem_iff.mp hx') hx

theorem Invariant.commit_outstanding :
    (s.outstandingSequences ∪ (sequences s.leaving).toFinset) \ s.sortedCompletions.toFinset =
      (sequences (log.issued ++ s.proposedIssues.map (setIssued epoch))).toFinset \
        (log.completed ++ s.sortedCompletions).toFinset := by
  ext x
  rw [h.committed.outstanding, sequences_append, sequences_setIssued]
  simp only [Finset.mem_sdiff, Finset.mem_union, mem_toFinset, mem_append, mem_proposedIssues]
  constructor
  · rintro ⟨⟨hissued, hopen⟩ | hleaving, hnow⟩
    · exact ⟨Or.inl hissued, not_or.mpr ⟨hopen, hnow⟩⟩
    · refine ⟨Or.inr hleaving, not_or.mpr ⟨fun hcompleted => ?_, hnow⟩⟩
      exact h.leaving_not_issued hleaving (h.committed.completedIssued x hcompleted)
  · rintro ⟨hissued | hleaving, hopen⟩
    · exact ⟨Or.inl ⟨hissued, fun hc => hopen (Or.inl hc)⟩, fun hc => hopen (Or.inr hc)⟩
    · exact ⟨Or.inr hleaving, fun hc => hopen (Or.inr hc)⟩

theorem Invariant.completing (hx : x ∈ s.sortedCompletions) :
    x ∈ sequences log.issued ∧ x ∉ log.completed := by
  have hmem := h.pending.outstanding x (mem_sortedCompletions.mp hx)
  rw [h.committed.outstanding, Finset.mem_sdiff, mem_toFinset, mem_toFinset] at hmem
  exact hmem

theorem Invariant.commit_producers (key : TileKey) :
    s.arbitration.accepted.foldl (fun producers e => rename producers e.instruction) s.producers key =
      (sequences ((log.accepted ++ s.entering epoch).filter
        fun e => e.instruction.Outputs key)).getLast? := by
  rw [foldl_rename, h.committed.producers, filter_append, sequences_append, entering,
    outputs_setDispatched, getLast?_append]

theorem Invariant.commit_flows : (flowIds (log.accepted ++ s.entering epoch)).Nodup := by
  rw [flowIds_append, entering, flowIds_setDispatched]
  refine List.Nodup.append h.committed.flows s.arbitration_arbitrated.nodup fun flow hold hnew => ?_
  refine s.arbitration_arbitrated.fresh flow hnew ?_
  rw [h.committed.usedFlowIds, mem_toFinset]
  exact hold

theorem Invariant.commit :
    Invariant capacities (log.record s (.commit epoch sink)) (s.commit epoch sink) := by
  rw [h.record_eq epoch sink]
  have hstate := commit_eq h.pending.accepted h.pending.rejected h.find?_proposal epoch sink
  refine ⟨?_, ?_, ?_, ?_⟩
  · rw [hstate]
    exact h.capacities
  · refine ⟨entering_increasing h epoch, ?_, h.commit_queues epoch sink, h.commit_issued epoch,
      h.commit_issuedOnce epoch, ?_, ?_, ?_, ?_, ?_, ?_, h.commit_flows epoch, ?_, ?_, ?_,
      h.commit_events epoch, ?_⟩
    · rw [hstate]
      show (sequences s.arbitration.accepted).getLast?.or s.lastDispatchedSequence = _
      rw [h.committed.last, sequences_append, entering, sequences_setDispatched, getLast?_append]
    · rw [hstate]
      exact h.commit_outstanding epoch
    · rw [hstate]
      show s.completedSequences ∪ _ = _
      rw [h.committed.completed, toFinset_append]
    · intro x hx
      rw [sequences_append]
      rcases mem_append.mp hx with hx | hx
      · exact mem_append_left _ (h.committed.completedIssued x hx)
      · exact mem_append_left _ (h.completing hx).1
    · exact List.Nodup.append h.committed.completedOnce
        ((insertAll_perm id [] s.completionProposals).nodup_iff.mpr h.pending.completions)
        fun x hx hx' => (h.completing hx').2 hx
    · rw [hstate]
      exact h.commit_producers epoch
    · rw [hstate]
      show s.usedFlowIds ∪ _ = _
      rw [h.committed.usedFlowIds, flowIds_append, toFinset_append, entering, flowIds_setDispatched]
    · intro engine
      have hroom := h.commit_room epoch sink engine
      rw [hstate] at hroom ⊢
      exact hroom
    · rw [hstate]
      show s.totalDispatches + _ = _
      rw [h.committed.dispatches, length_append, UInt64.ofNat_add, entering, length_map]
    · have hlength : s.proposedIssues.length = s.leaving.length :=
        (insertAll_perm key [] s.leaving).length_eq
      rw [hstate]
      show s.totalIssues + _ = _
      rw [h.committed.issues, length_append, UInt64.ofNat_add, length_map, hlength]
    · intro p hp
      rcases mem_append.mp hp with hp | hp
      · exact h.committed.instants p hp
      · exact observations_instant _ p hp
  · rw [hstate]
    constructor <;> simp
  · rw [hstate]
    exact h.commit_code sink

end commit

theorem Run.invariant (h : Run capacities log s) : Invariant capacities log s := by
  induction h with
  | start => exact .start capacities
  | call call _ ih =>
    cases call with
    | proposeDispatch i stableObjectId => exact ih.proposeDispatch i stableObjectId
    | proposeIssue engine => exact ih.proposeIssue engine
    | proposeComplete sequenceId => exact ih.proposeComplete sequenceId
    | commit epoch sink => exact ih.commit epoch sink
    | reset => exact ih.capacities ▸ .start _

end NpuDependencyTracker

end AgenticCircuit.Npu
