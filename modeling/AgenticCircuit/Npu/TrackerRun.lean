import AgenticCircuit.Npu.TrackerSteps

/-! # Runs of the dependency tracker

A run is a sequence of proposals and of epoch ends; an epoch end arbitrates and transfers.  `Log` is
what the run has shown since the last reset: the accepted dispatches, the issued entries, the
completions and the observations.

* **`Invariant`** gives the committed state as a function of the log: a queue holds the accepted
  entries of its engine that were not issued, the outstanding ones are issued and not completed, the
  rename table names the last accepted producer of each tile.
* **`Pending`** says what the proposals of the epoch are; every proposal keeps it. -/

namespace AgenticCircuit.Npu

open List
open Bindings Trace Gfsim

namespace NpuDependencyTracker

/-- `doArbitrate` and `doXfer` of an epoch. -/
def commit (s : NpuDependencyTracker) (epoch : Epoch) (sink : ℕ → Bool) : NpuDependencyTracker :=
  (s.doArbitrate sink).1.doXfer epoch

inductive Call where
  | proposeDispatch (instruction : NpuInstruction) (stableObjectId : ObjectId)
  | proposeIssue (engine : NpuEngineClass)
  | proposeComplete (sequenceId : ℕ)
  | commit (epoch : Epoch) (sink : ℕ → Bool)
  | reset

def step (s : NpuDependencyTracker) : Call → NpuDependencyTracker
  | .proposeDispatch instruction stableObjectId => (s.proposeDispatch instruction stableObjectId).2
  | .proposeIssue engine => (s.proposeIssue engine).2
  | .proposeComplete sequenceId => (s.proposeComplete sequenceId).2
  | .commit epoch sink => s.commit epoch sink
  | .reset => s.reset

/-- What the calls since the last reset have shown. -/
structure Log where
  /-- The dispatches that were accepted, as they entered their queues. -/
  accepted : List NpuIssueEntry := []
  issued : List NpuIssueEntry := []
  completed : List ℕ := []
  events : List EventProposal := []

/-- The log after a call in the state `s`. -/
def Log.record (log : Log) (s : NpuDependencyTracker) : Call → Log
  | .commit epoch sink =>
    { accepted := log.accepted ++ (s.doArbitrate sink).1.acceptedDispatches.map (setDispatched epoch)
      issued := log.issued ++ (s.commit epoch sink).issued
      completed := log.completed ++ (s.doArbitrate sink).1.completionProposals
      events := log.events ++ (s.doArbitrate sink).2 }
  | .reset => {}
  | _ => log

/-- A run of calls from the constructed object. -/
inductive Run (capacities : NpuEngineClass → ℕ) : Log → NpuDependencyTracker → Prop
  | start : Run capacities {} { capacities := capacities }
  | call {log s} (call : Call) : Run capacities log s → Run capacities (log.record s call) (s.step call)

/-! ### The invariant -/

/-- The flow observations with an identity. -/
def flowEvents (events : List EventProposal) (flow : ℕ) : List EventProposal :=
  events.filter fun p => p.flowId = some flow

/-- The flow observations of a phase that a list of entries gives to an identity. -/
def flowsOf (phase : TraceEventPhase) (entries : List NpuIssueEntry) (flow : ℕ) : List EventProposal :=
  entries.flatMap fun e =>
    (e.derivedDependencies.filter fun d => d.flowId = flow).map (flowEvent phase e)

/-- An entry of the queue may be issued before every other ready one. -/
def Oldest (s : NpuDependencyTracker) (engine : NpuEngineClass) (e : NpuIssueEntry) : Prop :=
  e ∈ s.queues engine ∧ s.ready e ∧ ∀ e' ∈ s.queues engine, s.ready e' → e.key ≤ e'.key

/-- The committed state, from the log. -/
structure Committed (log : Log) (s : NpuDependencyTracker) : Prop where
  increasing : (sequences log.accepted).Pairwise (· < ·)
  last : s.lastDispatchedSequence = (sequences log.accepted).getLast?
  queues : ∀ engine, s.queues engine =
    (ofEngine engine log.accepted).filter fun e => e.instruction.sequenceId ∉ sequences log.issued
  issued : ∀ e ∈ log.issued, ∃ a ∈ log.accepted, ∃ epoch, e = setIssued epoch a
  issuedOnce : (sequences log.issued).Nodup
  outstanding : s.outstandingSequences = (sequences log.issued).toFinset \ log.completed.toFinset
  completed : s.completedSequences = log.completed.toFinset
  completedIssued : ∀ x ∈ log.completed, x ∈ sequences log.issued
  completedOnce : log.completed.Nodup
  producers : ∀ key, s.producers key =
    (sequences (log.accepted.filter fun e => e.instruction.Outputs key)).getLast?
  usedFlowIds : s.usedFlowIds = (flowIds log.accepted).toFinset
  flows : (flowIds log.accepted).Nodup
  room : ∀ engine, (s.queues engine).length ≤ s.capacities engine
  dispatches : s.totalDispatches = UInt64.ofNat log.accepted.length
  issues : s.totalIssues = UInt64.ofNat log.issued.length
  events : ∀ flow, flowEvents log.events flow =
    flowsOf .flowStart log.accepted flow ++ flowsOf .flowEnd log.issued flow
  instants : ∀ p ∈ log.events, p.flowId = none → p.phase = .instant

/-- The proposals of the epoch. -/
structure Pending (log : Log) (s : NpuDependencyTracker) : Prop where
  accepted : s.acceptedDispatches = []
  rejected : s.proposedRejectedDispatches = []
  dispatches : (s.dispatchProposals.map (·.instruction.sequenceId)).Nodup
  younger : ∀ p ∈ s.dispatchProposals, ∀ x ∈ sequences log.accepted, x < p.instruction.sequenceId
  issues : ∀ engine e, s.issueProposals engine = some e → s.Oldest engine e
  completions : s.completionProposals.Nodup
  outstanding : ∀ x ∈ s.completionProposals, x ∈ s.outstandingSequences

structure Invariant (capacities : NpuEngineClass → ℕ) (log : Log) (s : NpuDependencyTracker) :
    Prop where
  capacities : s.capacities = capacities
  committed : s.Committed log
  pending : s.Pending log
  code : s.runtimeFailureCode ≠ "npu_issue_entry_missing"

/-! ### Proposals -/

variable {capacities : NpuEngineClass → ℕ} {log : Log} {s : NpuDependencyTracker}

theorem Invariant.start (capacities : NpuEngineClass → ℕ) :
    Invariant capacities {} { capacities := capacities } where
  capacities := rfl
  committed := by constructor <;> simp [ofEngine, flowEvents, flowsOf]
  pending := by constructor <;> simp
  code := by
    show "" ≠ "npu_issue_entry_missing"
    decide

theorem proposeDispatch_cases (s : NpuDependencyTracker) (i : NpuInstruction)
    (stableObjectId : ObjectId) : (s.proposeDispatch i stableObjectId).2 = s ∨
      (s.proposeDispatch i stableObjectId).2 =
          { s with dispatchProposals := s.dispatchProposals ++ [⟨i, stableObjectId⟩] } ∧
        (∀ last ∈ s.lastDispatchedSequence, last < i.sequenceId) ∧
        ∀ p ∈ s.dispatchProposals, p.instruction.sequenceId ≠ i.sequenceId := by
  unfold proposeDispatch
  split
  · exact Or.inl rfl
  · rename_i hfree
    simp only [Bool.or_eq_true, not_or, Bool.not_eq_true, knownSequence] at hfree
    obtain ⟨⟨_, hlast⟩, ⟨⟨_, hproposals⟩, _⟩, _⟩ := hfree
    refine Or.inr ⟨rfl, fun last hmem => ?_, fun p hp heq => ?_⟩
    · rw [Option.mem_def] at hmem
      simpa [hmem] using hlast
    · exact any_eq_false.mp hproposals p hp (by simp [heq])

/-- The candidate of the scan for an issue is the first least ready entry. -/
theorem foldl_selectIssue (s : NpuDependencyTracker) : ∀ (queue : List NpuIssueEntry)
    (candidate : Option NpuIssueEntry) (e : NpuIssueEntry),
    queue.foldl s.selectIssue candidate = some e →
    (candidate = some e ∨ e ∈ queue ∧ s.ready e) ∧ (∀ c ∈ candidate, e.key ≤ c.key) ∧
      ∀ e' ∈ queue, s.ready e' → e.key ≤ e'.key
  | [], candidate, e, h => by
    subst h
    simp
  | e' :: queue, candidate, e, h => by
    rw [foldl_cons] at h
    obtain ⟨hfrom, hcandidate, hrest⟩ := foldl_selectIssue s queue _ e h
    unfold selectIssue at hfrom hcandidate
    split at hfrom
    · rename_i hselect
      rw [if_pos hselect] at hcandidate
      simp only [Bool.and_eq_true, Option.all_eq_true, decide_eq_true_eq] at hselect
      have hle : e.key ≤ e'.key := hcandidate e' rfl
      refine ⟨Or.inr ?_, fun c hc => hle.trans (le_of_lt (hselect.2 c hc)), ?_⟩
      · rcases hfrom with hfrom | hfrom
        · rw [← Option.some.inj hfrom]
          exact ⟨mem_cons_self, hselect.1⟩
        · exact ⟨mem_cons_of_mem _ hfrom.1, hfrom.2⟩
      · exact forall_mem_cons.mpr ⟨fun _ => hle, hrest⟩
    · rename_i hselect
      rw [if_neg hselect] at hcandidate
      refine ⟨?_, hcandidate, forall_mem_cons.mpr ⟨fun hready => ?_, hrest⟩⟩
      · rcases hfrom with hfrom | hfrom
        · exact Or.inl hfrom
        · exact Or.inr ⟨mem_cons_of_mem _ hfrom.1, hfrom.2⟩
      · -- a ready entry that was not selected met a candidate that is no younger
        simp only [hready, Bool.true_and, Option.all_eq_true, decide_eq_true_eq, not_forall, not_lt] at hselect
        obtain ⟨c, hc, hle⟩ := hselect
        exact (hcandidate c hc).trans hle

theorem proposeIssue_cases (s : NpuDependencyTracker) (engine : NpuEngineClass) :
    (s.proposeIssue engine).2 = s ∨
      ∃ e, s.Oldest engine e ∧ (s.proposeIssue engine).2 =
        { s with issueProposals := Function.update s.issueProposals engine (some e) } := by
  unfold proposeIssue
  split
  · exact Or.inl rfl
  · split
    · exact Or.inl rfl
    · rename_i e hselect
      obtain ⟨hfrom, _, hleast⟩ := foldl_selectIssue s (s.queues engine) none e hselect
      rcases hfrom with hfrom | ⟨hmem, hready⟩
      · exact absurd hfrom (by simp)
      · exact Or.inr ⟨e, ⟨hmem, hready, hleast⟩, rfl⟩

theorem proposeComplete_cases (s : NpuDependencyTracker) (sequenceId : ℕ) :
    (s.proposeComplete sequenceId).2 = s ∨
      (s.proposeComplete sequenceId).2 =
          { s with completionProposals := s.completionProposals ++ [sequenceId] } ∧
        sequenceId ∈ s.outstandingSequences ∧ sequenceId ∉ s.completionProposals := by
  unfold proposeComplete
  split
  · exact Or.inl rfl
  · rename_i hfree
    simp only [Bool.or_eq_true, decide_eq_true_eq, not_or, not_not, contains_iff_mem] at hfree
    exact Or.inr ⟨rfl, hfree⟩

theorem Committed.lt_of_last (h : s.Committed log) {sequenceId : ℕ}
    (hlast : ∀ last ∈ s.lastDispatchedSequence, last < sequenceId) :
    ∀ x ∈ sequences log.accepted, x < sequenceId := by
  intro x hx
  cases hx' : (sequences log.accepted).getLast? with
  | none =>
    rw [getLast?_eq_none_iff.mp hx'] at hx
    exact absurd hx not_mem_nil
  | some last =>
    have hle := getLast?_of_pairwise_lt h.increasing hx' x hx
    exact lt_of_le_of_lt hle (hlast last (h.last.trans hx'))

theorem Invariant.proposeDispatch (h : Invariant capacities log s) (i : NpuInstruction)
    (stableObjectId : ObjectId) :
    Invariant capacities log (s.proposeDispatch i stableObjectId).2 := by
  rcases proposeDispatch_cases s i stableObjectId with hsame | ⟨hnew, hlast, hproposals⟩
  · rwa [hsame]
  have hyounger := h.committed.lt_of_last hlast
  rw [hnew]
  refine ⟨h.capacities, { h.committed with }, { h.pending with dispatches := ?_, younger := ?_ }, h.code⟩
  · rw [map_append]
    refine List.Nodup.append h.pending.dispatches (nodup_singleton _) ?_
    intro x hx hx'
    obtain ⟨p, hp, rfl⟩ := mem_map.mp hx
    exact hproposals p hp (mem_singleton.mp hx')
  · intro p hp
    rcases mem_append.mp hp with hp | hp
    · exact h.pending.younger p hp
    · rw [mem_singleton.mp hp]
      exact hyounger

theorem Invariant.proposeIssue (h : Invariant capacities log s) (engine : NpuEngineClass) :
    Invariant capacities log (s.proposeIssue engine).2 := by
  rcases proposeIssue_cases s engine with hsame | ⟨e, holdest, hnew⟩
  · rwa [hsame]
  rw [hnew]
  refine ⟨h.capacities, { h.committed with }, { h.pending with issues := ?_ }, h.code⟩
  intro c e' he'
  change Function.update s.issueProposals engine (some e) c = some e' at he'
  by_cases hc : c = engine
  · subst hc
    rw [Function.update_self] at he'
    rw [← Option.some.inj he']
    exact holdest
  · rw [Function.update_of_ne hc] at he'
    exact h.pending.issues c e' he'

theorem Invariant.proposeComplete (h : Invariant capacities log s) (sequenceId : ℕ) :
    Invariant capacities log (s.proposeComplete sequenceId).2 := by
  rcases proposeComplete_cases s sequenceId with hsame | ⟨hnew, hmem, hfresh⟩
  · rwa [hsame]
  rw [hnew]
  refine ⟨h.capacities, { h.committed with }, { h.pending with completions := ?_, outstanding := ?_ }, h.code⟩
  · exact List.Nodup.append h.pending.completions (nodup_singleton _)
      fun x hx hx' => hfresh (mem_singleton.mp hx' ▸ hx)
  · intro x hx
    rcases mem_append.mp hx with hx | hx
    · exact h.pending.outstanding x hx
    · exact mem_singleton.mp hx ▸ hmem

end NpuDependencyTracker

end AgenticCircuit.Npu
