import AgenticCircuit.Npu.TrackerCommit

/-! # Conservation in the dependency tracker

What the tracker keeps over a whole run (`Run.tracker_conserves`): the places of the accepted instructions,
the room of the queues, the totals, and the flows of the dependencies, each of which starts when its
consumer is accepted and ends when its consumer issues. -/

namespace AgenticCircuit.Npu

open List
open Bindings Trace Gfsim

namespace NpuDependencyTracker

variable {capacities : NpuEngineClass → ℕ} {log : Log} {s : NpuDependencyTracker}
  {e : NpuIssueEntry}

/-- The queued entries of all engines. -/
def queuedEntries (s : NpuDependencyTracker) : ℕ :=
  (NpuEngineClass.all.map fun engine => (s.queues engine).length).sum

/-- An instruction is in the queue of its engine, outstanding or completed. -/
def Placed (s : NpuDependencyTracker) (e : NpuIssueEntry) : Prop :=
  let x := e.instruction.sequenceId
  let queued := e ∈ s.queues e.instruction.engine
  (queued ∧ x ∉ s.outstandingSequences ∧ x ∉ s.completedSequences) ∨
    (¬queued ∧ x ∈ s.outstandingSequences ∧ x ∉ s.completedSequences) ∨
    (¬queued ∧ x ∉ s.outstandingSequences ∧ x ∈ s.completedSequences)

structure Conserved (log : Log) (s : NpuDependencyTracker) : Prop where
  increasing : (sequences log.accepted).Pairwise (· < ·)
  placed : ∀ e ∈ log.accepted, s.Placed e
  queued : ∀ engine, ∀ e ∈ s.queues engine, e ∈ log.accepted ∧ e.instruction.engine = engine
  queuedOnce : ∀ engine, (sequences (s.queues engine)).Nodup
  issued : ∀ x, x ∈ s.outstandingSequences ∨ x ∈ s.completedSequences → x ∈ sequences log.accepted
  room : ∀ engine, (s.queues engine).length ≤ s.capacities engine
  code : s.runtimeFailureCode ≠ "npu_issue_entry_missing"
  totals : s.totalDispatches = s.totalIssues + UInt64.ofNat s.queuedEntries
  flows : (flowIds log.accepted).Nodup
  /-- The start of a flow is followed by its end once the consumer has issued. -/
  flow : ∀ e ∈ log.accepted, ∀ d ∈ e.derivedDependencies, flowEvents log.events d.flowId =
    flowEvent .flowStart e d ::
      if e.instruction.sequenceId ∈ sequences log.issued then [flowEvent .flowEnd e d] else []
  /-- Every flow observation belongs to a dependency of an accepted dispatch. -/
  known : ∀ p ∈ log.events, p.phase ≠ .instant →
    ∃ e ∈ log.accepted, ∃ d ∈ e.derivedDependencies, p.flowId = some d.flowId

/-- What the end of an epoch issues: for an engine the least ready entry of its queue, and with it
the ends of its flows. -/
structure Issues (s s' : NpuDependencyTracker) (epoch : Epoch) (emitted : List EventProposal) : Prop where
  oldest : ∀ e ∈ s'.issued, ∃ e', s.Oldest e'.instruction.engine e' ∧ e = setIssued epoch e'
  once : (s'.issued.map (·.instruction.engine)).Nodup
  ends : ∀ flow, (flowEvents emitted flow).filter (fun p => p.phase = .flowEnd) =
    flowsOf .flowEnd s'.issued flow

theorem Invariant.placed (h : Invariant capacities log s) (he : e ∈ log.accepted) : s.Placed e := by
  have hqueued : e ∈ s.queues e.instruction.engine ↔ e.instruction.sequenceId ∉ sequences log.issued := by
    rw [h.committed.mem_queue]
    simp [he]
  simp only [Placed, hqueued, h.committed.outstanding, h.committed.completed, Finset.mem_sdiff,
    mem_toFinset]
  by_cases hcompleted : e.instruction.sequenceId ∈ log.completed
  · have hissued := h.committed.completedIssued _ hcompleted
    exact Or.inr (Or.inr ⟨not_not.mpr hissued, fun hout => hout.2 hcompleted, hcompleted⟩)
  · by_cases hissued : e.instruction.sequenceId ∈ sequences log.issued
    · exact Or.inr (Or.inl ⟨not_not.mpr hissued, ⟨hissued, hcompleted⟩, hcompleted⟩)
    · exact Or.inl ⟨hissued, fun hout => hissued hout.1, hcompleted⟩

theorem length_ofEngine (l : List NpuIssueEntry) :
    (NpuEngineClass.all.map fun engine => (ofEngine engine l).length).sum = l.length := by
  induction l with
  | nil => rfl
  | cons e l ih =>
    have hcons (engine : NpuEngineClass) : (ofEngine engine (e :: l)).length =
        (if e.instruction.engine = engine then 1 else 0) + (ofEngine engine l).length := by
      by_cases hengine : e.instruction.engine = engine <;> simp [ofEngine, hengine, Nat.add_comm]
    have hone : (NpuEngineClass.all.map fun engine =>
        if e.instruction.engine = engine then 1 else 0).sum = 1 := by
      cases e.instruction.engine <;> rfl
    simp only [hcons, sum_map_add]
    rw [hone, ih, length_cons, Nat.add_comm]

theorem Invariant.queuedEntries (h : Invariant capacities log s) :
    log.accepted.length = log.issued.length + s.queuedEntries := by
  have hwaiting : s.queuedEntries =
      (log.accepted.filter fun e => e.instruction.sequenceId ∉ sequences log.issued).length := by
    rw [← length_ofEngine]
    refine congrArg List.sum (map_congr_left fun engine _ => congrArg List.length ?_)
    rw [h.committed.queues, ofEngine, ofEngine, filter_filter, filter_filter]
    exact filter_congr fun e _ => Bool.and_comm _ _
  have hissued : (log.accepted.filter fun e => e.instruction.sequenceId ∈ sequences log.issued).length =
      log.issued.length := by
    have hnodup := nodup_of_increasing h.committed.increasing
    have hperm : (sequences (log.accepted.filter fun e =>
        e.instruction.sequenceId ∈ sequences log.issued)).Perm (sequences log.issued) := by
      refine (perm_ext_iff_of_nodup (hnodup.sublist (filter_sublist.map _))
        h.committed.issuedOnce).mpr fun x => ?_
      constructor
      · intro hx
        obtain ⟨e, he, rfl⟩ := mem_sequences.mp hx
        exact of_decide_eq_true (mem_filter.mp he).2
      · intro hx
        obtain ⟨e, he, rfl⟩ := mem_sequences.mp hx
        obtain ⟨a, ha, _, rfl⟩ := h.committed.issued e he
        exact mem_sequences.mpr ⟨a, mem_filter.mpr ⟨ha, decide_eq_true hx⟩, rfl⟩
    have hlength := hperm.length_eq
    rwa [sequences, sequences, length_map, length_map] at hlength
  rw [hwaiting, ← hissued]
  have hsplit := length_eq_length_filter_add
    (l := log.accepted) (fun e => decide (e.instruction.sequenceId ∈ sequences log.issued))
  simp only [decide_not]
  exact hsplit

theorem flowsOf_eq_singleton {phase : TraceEventPhase} {d : NpuDependency} :
    ∀ {entries : List NpuIssueEntry}, (flowIds entries).Nodup → e ∈ entries → d ∈ e.derivedDependencies →
      flowsOf phase entries d.flowId = [flowEvent phase e d]
  | [], _, he, _ => absurd he not_mem_nil
  | e' :: entries, hnodup, he, hd => by
    have hcons : flowIds (e' :: entries) = e'.derivedDependencies.map (·.flowId) ++ flowIds entries := rfl
    rw [hcons] at hnodup
    obtain ⟨hfirst, hrest, hdisjoint⟩ := nodup_append.mp hnodup
    have hsplit : flowsOf phase (e' :: entries) d.flowId =
        (e'.derivedDependencies.filter fun d' => d'.flowId = d.flowId).map (flowEvent phase e') ++
          flowsOf phase entries d.flowId := rfl
    rcases mem_cons.mp he with rfl | he
    · have hone : (e.derivedDependencies.filter fun d' => d'.flowId = d.flowId) = [d] := by
        have hinj := inj_on_of_nodup_map hfirst
        have hperm : (e.derivedDependencies.filter fun d' => d'.flowId = d.flowId).Perm [d] := by
          refine (perm_ext_iff_of_nodup ((List.Nodup.of_map _ hfirst).filter _)
            (nodup_singleton d)).mpr fun d' => ?_
          rw [mem_filter, decide_eq_true_eq, mem_singleton]
          constructor
          · exact fun hd' => hinj hd'.1 hd hd'.2
          · rintro rfl
            exact ⟨hd, rfl⟩
        exact perm_singleton.mp hperm
      have hnil : flowsOf phase entries d.flowId = [] := by
        refine flowsOf_eq_nil fun hmem => ?_
        exact hdisjoint _ (mem_map.mpr ⟨d, hd, rfl⟩) _ hmem rfl
      rw [hsplit, hone, hnil]
      rfl
    · have hnil : (e'.derivedDependencies.filter fun d' => d'.flowId = d.flowId) = [] := by
        refine filter_eq_nil_iff.mpr fun d' hd' heq => ?_
        exact hdisjoint _ (mem_map.mpr ⟨d', hd', rfl⟩) _ (mem_flowIds.mpr ⟨e, he, d, hd, rfl⟩)
          (of_decide_eq_true heq)
      rw [hsplit, hnil, flowsOf_eq_singleton hrest he hd]
      rfl

theorem owner_unique {entries : List NpuIssueEntry} (hnodup : (flowIds entries).Nodup)
    {a b : NpuIssueEntry} (ha : a ∈ entries) (hb : b ∈ entries) {d d' : NpuDependency}
    (hd : d ∈ a.derivedDependencies) (hd' : d' ∈ b.derivedDependencies)
    (heq : d.flowId = d'.flowId) : a = b := by
  have hsymm : Std.Symm (Function.onFun List.Disjoint
      fun e : NpuIssueEntry => e.derivedDependencies.map (·.flowId)) := ⟨fun _ _ h => h.symm⟩
  by_contra hne
  exact (nodup_flatMap.mp hnodup).2.forall ha hb hne (mem_map.mpr ⟨d, hd, rfl⟩)
    (mem_map.mpr ⟨d', hd', heq.symm⟩)

section

variable (h : Invariant capacities log s)

include h

theorem Invariant.issued_flows : (flowIds log.issued).Nodup := by
  refine nodup_flatMap.mpr ⟨fun e he => ?_, ?_⟩
  · obtain ⟨a, ha, _, rfl⟩ := h.committed.issued e he
    exact (nodup_flatMap.mp h.committed.flows).1 a ha
  · refine (pairwise_map.mp h.committed.issuedOnce).imp_of_mem fun {e e'} he he' hne => ?_
    intro flow hflow hflow'
    obtain ⟨d, hd, rfl⟩ := mem_map.mp hflow
    obtain ⟨d', hd', heq⟩ := mem_map.mp hflow'
    obtain ⟨a, ha, _, rfl⟩ := h.committed.issued e he
    obtain ⟨a', ha', _, rfl⟩ := h.committed.issued e' he'
    have hsame := owner_unique h.committed.flows ha ha' hd hd' heq.symm
    exact hne (congrArg (·.instruction.sequenceId) hsame)

theorem Invariant.ends {e : NpuIssueEntry} (he : e ∈ log.accepted) {d : NpuDependency}
    (hd : d ∈ e.derivedDependencies) : flowsOf .flowEnd log.issued d.flowId =
      if e.instruction.sequenceId ∈ sequences log.issued then [flowEvent .flowEnd e d] else [] := by
  split
  · rename_i hissued
    obtain ⟨e', he', heq⟩ := mem_sequences.mp hissued
    obtain ⟨a, ha, epoch, rfl⟩ := h.committed.issued e' he'
    have hsame : a = e := eq_of_sequenceId (nodup_of_increasing h.committed.increasing) ha he heq
    subst hsame
    exact flowsOf_eq_singleton (e := setIssued epoch a) h.issued_flows he' hd
  · rename_i hnot
    refine flowsOf_eq_nil fun hmem => hnot ?_
    obtain ⟨e', he', d', hd', heq⟩ := mem_flowIds.mp hmem
    obtain ⟨a, ha, _, rfl⟩ := h.committed.issued e' he'
    have hsame : a = e := owner_unique h.committed.flows ha he hd' hd heq
    subst hsame
    exact mem_sequences.mpr ⟨_, he', rfl⟩

theorem Invariant.known : ∀ p ∈ log.events, p.phase ≠ .instant →
    ∃ e ∈ log.accepted, ∃ d ∈ e.derivedDependencies, p.flowId = some d.flowId := by
  intro p hp hphase
  cases hflow : p.flowId with
  | none => exact absurd (h.committed.instants p hp hflow) hphase
  | some flow =>
    have hmem : p ∈ flowEvents log.events flow := mem_filter.mpr ⟨hp, decide_eq_true hflow⟩
    have hknown : flow ∈ flowIds log.accepted := by
      by_contra hunknown
      have hissued : flow ∉ flowIds log.issued := by
        intro hissued
        obtain ⟨e, he, d, hd, heq⟩ := mem_flowIds.mp hissued
        obtain ⟨a, ha, _, rfl⟩ := h.committed.issued e he
        exact hunknown (mem_flowIds.mpr ⟨a, ha, d, hd, heq⟩)
      rw [h.committed.events, flowsOf_eq_nil hunknown, flowsOf_eq_nil hissued] at hmem
      exact absurd hmem not_mem_nil
    obtain ⟨e, he, d, hd, rfl⟩ := mem_flowIds.mp hknown
    exact ⟨e, he, d, hd, rfl⟩

theorem Invariant.conserved : s.Conserved log where
  increasing := h.committed.increasing
  placed _ he := h.placed he
  queued _ _ he := ⟨(h.committed.mem_queue.mp he).1, (h.committed.mem_queue.mp he).2.1⟩
  queuedOnce engine := nodup_of_increasing (h.committed.queue_increasing engine)
  issued x hx := by
    have hissued : x ∈ sequences log.issued := by
      rw [h.committed.outstanding, h.committed.completed, Finset.mem_sdiff, mem_toFinset,
        mem_toFinset] at hx
      rcases hx with hx | hx
      · exact hx.1
      · exact h.committed.completedIssued x hx
    obtain ⟨e, he, rfl⟩ := mem_sequences.mp hissued
    obtain ⟨a, ha, _, rfl⟩ := h.committed.issued e he
    exact mem_sequences.mpr ⟨a, ha, rfl⟩
  room := h.committed.room
  code := h.code
  totals := by
    rw [h.committed.dispatches, h.committed.issues, h.queuedEntries, UInt64.ofNat_add]
  flows := h.committed.flows
  flow e he d hd := by
    rw [h.committed.events, flowsOf_eq_singleton h.committed.flows he hd, h.ends he hd]
    rfl
  known := h.known

/-! ### The issues of an epoch -/

theorem Invariant.epoch (epoch : Epoch) (sink : ℕ → Bool) :
    Issues s (s.commit epoch sink) epoch (s.doArbitrate sink).2 := by
  have hissued : (s.commit epoch sink).issued = s.proposedIssues.map (setIssued epoch) := by
    have hrecord := congrArg Log.issued (h.record_eq epoch sink)
    exact append_cancel_left hrecord
  have hperm : s.proposedIssues.Perm s.leaving := insertAll_perm NpuIssueEntry.key [] s.leaving
  constructor
  · intro e he
    rw [hissued] at he
    obtain ⟨e', he', rfl⟩ := mem_map.mp he
    have hproposal := (h.mem_leaving (hperm.mem_iff.mp he')).2.1
    exact ⟨e', h.pending.issues _ e' hproposal, rfl⟩
  · have hengines : (s.leaving.map (·.instruction.engine)).Nodup := by
      refine List.Nodup.map_on (fun a ha b hb heq => ?_) (List.Nodup.of_map _ h.leaving_nodup)
      have hproposal := (h.mem_leaving ha).2.1
      rw [heq, (h.mem_leaving hb).2.1] at hproposal
      exact (Option.some.inj hproposal).symm
    rw [hissued, map_map]
    exact (hperm.map _).nodup_iff.mpr hengines
  · intro flow
    have hphase (phase : TraceEventPhase) (entries : List NpuIssueEntry) :
        ∀ p ∈ flowsOf phase entries flow, p.phase = phase := by
      intro p hp
      obtain ⟨e, _, hp⟩ := mem_flatMap.mp hp
      obtain ⟨d, _, rfl⟩ := mem_map.mp hp
      rfl
    have hevents : flowEvents (s.doArbitrate sink).2 flow =
        flowsOf .flowStart s.arbitrated.acceptedDispatches flow ++ flowsOf .flowEnd s.proposedIssues flow :=
      flowEvents_observations s.arbitrated flow
    rw [hevents, filter_append, hissued, flowsOf_setIssued]
    rw [filter_eq_nil_iff.mpr fun p hp => by simp [hphase _ _ p hp],
      filter_eq_self.mpr fun p hp => by simp [hphase _ _ p hp], nil_append]

end

/-- Over every run of the tracker, and at the end of every epoch. -/
theorem Run.tracker_conserves (h : Run capacities log s) : s.Conserved log ∧
    ∀ epoch sink, Issues s (s.commit epoch sink) epoch (s.doArbitrate sink).2 :=
  ⟨h.invariant.conserved, fun epoch sink => h.invariant.epoch epoch sink⟩

/-! ### Calls in any order -/

/-- The calls one by one. -/
inductive FreeCall where
  | call (call : Call)
  | doArbitrate (sink : ℕ → Bool)
  | doXfer (epoch : Epoch)

def freeStep (s : NpuDependencyTracker) : FreeCall → NpuDependencyTracker
  | .call call => s.step call
  | .doArbitrate sink => (s.doArbitrate sink).1
  | .doXfer epoch => s.doXfer epoch

/-- The state after a list of calls, the first one first. -/
def afterFree (capacities : NpuEngineClass → ℕ) (calls : List FreeCall) : NpuDependencyTracker :=
  calls.foldl freeStep { capacities := capacities }

/-- A dispatch is proposed, arbitrated twice and transferred. -/
def arbitratedTwice : List FreeCall :=
  [.call (.proposeDispatch {} 7), .doArbitrate fun _ => true, .doArbitrate fun _ => true,
    .doXfer ⟨0, 0⟩]

/-- A dispatch that is arbitrated twice is queued twice, and a queue with room for one entry holds
two. -/
theorem arbitration_queues_twice :
    (¬∀ capacities calls engine, (sequences ((afterFree capacities calls).queues engine)).Nodup) ∧
    ¬∀ capacities calls engine,
      ((afterFree capacities calls).queues engine).length ≤ capacities engine := by
  have hqueue : sequences ((afterFree (fun _ => 1) arbitratedTwice).queues .scalar) = [0, 0] := by
    decide +kernel
  refine ⟨fun h => ?_, fun h => ?_⟩
  · have hnodup := h (fun _ => 1) arbitratedTwice .scalar
    rw [hqueue] at hnodup
    exact absurd hnodup (by decide)
  · have hroom := h (fun _ => 1) arbitratedTwice .scalar
    rw [← length_map (·.instruction.sequenceId)] at hroom
    exact absurd (hqueue ▸ hroom : [0, 0].length ≤ 1) (by decide)

end NpuDependencyTracker

end AgenticCircuit.Npu
