import AgenticCircuit.Npu.Conservation

/-! # Read after write

An instruction should issue only when the latest producer of each of its input tiles has completed.
The dependencies of a dispatch come from the rename table of earlier transfers, so a producer that is
accepted in the same epoch is not among them.

* **`SameEpochPair`** is the defect in a state: two dispatches that find room in this epoch, the
  younger of which reads what the older writes.
* **`SeparateRun.reads_after_write`**: in a run without such an epoch the order is kept. -/

namespace AgenticCircuit.Npu

open List
open Bindings Trace Gfsim

namespace NpuDependencyTracker

variable {capacities : NpuEngineClass → ℕ} {log : Log} {s : NpuDependencyTracker}

/-- `p` is the youngest accepted instruction older than `i` that writes the tile. -/
structure LatestProducer (accepted : List NpuIssueEntry) (i : NpuInstruction) (tile : Bytes)
    (p : NpuIssueEntry) : Prop where
  mem : p ∈ accepted
  outputs : p.instruction.Outputs (i.blockId, tile)
  older : p.instruction.sequenceId < i.sequenceId
  latest : ∀ q ∈ accepted, q.instruction.Outputs (i.blockId, tile) →
    q.instruction.sequenceId < i.sequenceId → q.instruction.sequenceId ≤ p.instruction.sequenceId

/-- What issues at the end of this epoch reads tiles whose latest producers completed before. -/
def ReadsAfterWrite (log : Log) (s : NpuDependencyTracker) (epoch : Epoch) (sink : ℕ → Bool) : Prop :=
  ∀ e ∈ (s.commit epoch sink).issued, ∀ tile ∈ e.instruction.inputTiles, ∀ p,
    LatestProducer (log.record s (.commit epoch sink)).accepted e.instruction tile p →
    p.instruction.sequenceId ∈ log.completed

/-- The dispatches that find room, up to the first that does not. -/
def fitting : List DispatchProposal → (NpuEngineClass → ℕ) → List DispatchProposal
  | [], _ => []
  | p :: proposals, remaining =>
    let engine := p.instruction.engine
    if remaining engine = 0 then []
    else p :: fitting proposals (Function.update remaining engine (remaining engine - 1))

/-- Two dispatches find room in this epoch, and the younger reads a tile that the older writes. -/
def SameEpochPair (s : NpuDependencyTracker) : Prop :=
  ∃ p ∈ fitting s.sortedProposals s.room, ∃ q ∈ fitting s.sortedProposals s.room,
    p.instruction.sequenceId < q.instruction.sequenceId ∧
      ∃ tile ∈ q.instruction.inputTiles, p.instruction.Outputs (q.instruction.blockId, tile)

/-- A run in which no epoch ends with such a pair. -/
inductive SeparateRun (capacities : NpuEngineClass → ℕ) : Log → NpuDependencyTracker → Prop
  | start : SeparateRun capacities {} { capacities := capacities }
  | call {log : Log} {s : NpuDependencyTracker} (call : Call) : SeparateRun capacities log s →
      (∀ epoch sink, call = .commit epoch sink → ¬s.SameEpochPair) →
      SeparateRun capacities (log.record s call) (s.step call)

theorem SeparateRun.run (h : SeparateRun capacities log s) : Run capacities log s := by
  induction h with
  | start => exact .start
  | call call _ _ ih => exact .call call ih

/-! ### What is accepted finds room -/

theorem blocked_foldl (s : NpuDependencyTracker) :
    ∀ (proposals : List DispatchProposal) (a : Arbitration),
    a.dispatchBlocked = true → (proposals.foldl s.arbitrateDispatch a).accepted = a.accepted
  | [], _, _ => rfl
  | p :: proposals, a, h => by
    have hstep : s.arbitrateDispatch a p =
        { a with
          rejected := a.rejected ++ [p.instruction.sequenceId]
          dispatchBlocked := true } := by
      unfold arbitrateDispatch
      simp [h]
    rw [foldl_cons, hstep]
    exact blocked_foldl s proposals _ rfl

theorem accepted_fitting (s : NpuDependencyTracker) :
    ∀ (proposals : List DispatchProposal) (a : Arbitration),
    ∃ new, (proposals.foldl s.arbitrateDispatch a).accepted = a.accepted ++ new ∧
      new.map (·.proposal) <+: fitting proposals a.remaining
  | [], a => ⟨[], by simp, nil_prefix⟩
  | p :: proposals, a => by
    rw [foldl_cons]
    by_cases hblocked : (s.arbitrateDispatch a p).dispatchBlocked = true
    · have hsame : (s.arbitrateDispatch a p).accepted = a.accepted := by
        unfold arbitrateDispatch at hblocked ⊢
        simp only at hblocked ⊢
        split at hblocked
        · rw [if_pos ‹_›]
        · rename_i hfree
          rw [if_neg hfree]
          split at hblocked
          · rw [if_pos ‹_›]
          · simp only [Bool.or_eq_true, not_or] at hfree
            exact absurd hblocked hfree.1
      exact ⟨[], by rw [blocked_foldl s proposals _ hblocked, hsame, List.append_nil], nil_prefix⟩
    · obtain ⟨new, hnew, hprefix⟩ := accepted_fitting s proposals (s.arbitrateDispatch a p)
      have haccept : ∃ dependencies, a.remaining p.instruction.engine ≠ 0 ∧
          (s.arbitrateDispatch a p).accepted =
            a.accepted ++ [⟨p.instruction, p.stableObjectId, dependencies⟩] ∧
          (s.arbitrateDispatch a p).remaining = Function.update a.remaining p.instruction.engine
            (a.remaining p.instruction.engine - 1) := by
        unfold arbitrateDispatch at hblocked ⊢
        simp only at hblocked ⊢
        split at hblocked
        · exact absurd rfl hblocked
        · rename_i hfree
          rw [if_neg hfree]
          simp only [Bool.or_eq_true, decide_eq_true_eq, not_or] at hfree
          split at hblocked
          · exact absurd rfl hblocked
          · rw [if_neg ‹_›]
            exact ⟨_, hfree.2, rfl, rfl⟩
      obtain ⟨dependencies, hroom, haccepted, hremaining⟩ := haccept
      refine ⟨⟨p.instruction, p.stableObjectId, dependencies⟩ :: new, ?_, ?_⟩
      · rw [hnew, haccepted, List.append_assoc, singleton_append]
      · rw [fitting, if_neg hroom, map_cons]
        exact prefix_cons_inj _ |>.mpr (hremaining ▸ hprefix)

theorem accepted_fits (s : NpuDependencyTracker) :
    s.arbitration.accepted.map (·.proposal) <+: fitting s.sortedProposals s.room := by
  obtain ⟨new, hnew, hprefix⟩ := accepted_fitting s s.sortedProposals
    { remaining := s.room, shadowFlowIds := s.usedFlowIds, runtimeFailureCode := s.runtimeFailureCode }
  have haccepted : s.arbitration.accepted = new := hnew
  rw [haccepted]
  exact hprefix

/-! ### The latest producer is a dependency -/

/-- Every accepted dispatch depends on the latest producer of each tile it reads. -/
def Depends (log : Log) : Prop :=
  ∀ e ∈ log.accepted, ∀ tile ∈ e.instruction.inputTiles, ∀ p,
    LatestProducer log.accepted e.instruction tile p →
    ∃ d ∈ e.derivedDependencies, d.producerSequenceId = p.instruction.sequenceId

variable {p : NpuIssueEntry}

theorem Committed.producer_eq (h : s.Committed log) {key : TileKey} (hp : p ∈ log.accepted)
    (houtputs : p.instruction.Outputs key)
    (hlatest : ∀ q ∈ log.accepted, q.instruction.Outputs key → q.instruction.sequenceId ≤
      p.instruction.sequenceId) : s.producers key = some p.instruction.sequenceId := by
  have hmem : p.instruction.sequenceId ∈
      sequences (log.accepted.filter fun e => e.instruction.Outputs key) :=
    mem_sequences.mpr ⟨p, mem_filter.mpr ⟨hp, decide_eq_true houtputs⟩, rfl⟩
  rw [h.producers]
  cases hlast : (sequences (log.accepted.filter fun e => e.instruction.Outputs key)).getLast? with
  | none =>
    rw [getLast?_eq_none_iff.mp hlast] at hmem
    exact absurd hmem not_mem_nil
  | some last =>
    have hge := getLast?_of_pairwise_lt (increasing_filter h.increasing _) hlast _ hmem
    obtain ⟨q, hq, rfl⟩ := mem_sequences.mp (mem_of_getLast? hlast)
    obtain ⟨hq, hqoutputs⟩ := mem_filter.mp hq
    exact congrArg some (le_antisymm (hlatest q hq (of_decide_eq_true hqoutputs)) hge)

theorem LatestProducer.of_append {accepted entering : List NpuIssueEntry} {i : NpuInstruction}
    {tile : Bytes} (h : LatestProducer (accepted ++ entering) i tile p) (hp : p ∈ accepted) :
    LatestProducer accepted i tile p :=
  ⟨hp, h.outputs, h.older, fun q hq => h.latest q (mem_append_left _ hq)⟩

theorem Invariant.entering_younger (h : Invariant capacities log s) (epoch : Epoch)
    {e : NpuIssueEntry} (hp : p ∈ log.accepted) (he : e ∈ s.entering epoch) :
    p.instruction.sequenceId < e.instruction.sequenceId := by
  have hincreasing := entering_increasing h epoch
  rw [sequences_append] at hincreasing
  exact (pairwise_append.mp hincreasing).2.2 _ (mem_sequences.mpr ⟨p, hp, rfl⟩) _
    (mem_sequences.mpr ⟨e, he, rfl⟩)

theorem Depends.commit (hd : Depends log) (h : Invariant capacities log s) (epoch : Epoch)
    (hapart : ¬s.SameEpochPair) (sink : ℕ → Bool) :
    Depends (log.record s (.commit epoch sink)) := by
  rw [h.record_eq epoch sink]
  intro e he tile htile p hp
  rcases mem_append.mp he with he | he
  · -- an older producer of an accepted dispatch was accepted before it
    have holder : p ∈ log.accepted := by
      rcases mem_append.mp hp.mem with hmem | hmem
      · exact hmem
      · exact absurd (h.entering_younger epoch he hmem) (not_lt.mpr (le_of_lt hp.older))
    exact hd e he tile htile p (hp.of_append holder)
  · obtain ⟨a, ha, rfl⟩ := mem_map.mp he
    have hfits {b : NpuIssueEntry} (hb : b ∈ s.arbitration.accepted) :
        b.proposal ∈ fitting s.sortedProposals s.room :=
      (accepted_fits s).subset (mem_map_of_mem hb)
    have holder : p ∈ log.accepted := by
      rcases mem_append.mp hp.mem with hmem | hmem
      · exact hmem
      · obtain ⟨b, hb, rfl⟩ := mem_map.mp hmem
        exact absurd ⟨_, hfits hb, _, hfits ha, hp.older, tile, htile, hp.outputs⟩ hapart
    have hproducer : s.producers (a.instruction.blockId, tile) = some p.instruction.sequenceId := by
      refine h.committed.producer_eq holder hp.outputs fun q hq houtputs => ?_
      exact hp.latest q (mem_append_left _ hq) houtputs (h.entering_younger epoch hq he)
    obtain ⟨_, _, hderived⟩ := s.arbitration_arbitrated.derived a ha
    exact hderived.complete tile htile _ hproducer

theorem SeparateRun.depends (h : SeparateRun capacities log s) : Depends log := by
  induction h with
  | start => exact fun e he => absurd he not_mem_nil
  | call call hrun hapart ih =>
    cases call with
    | commit epoch sink => exact ih.commit hrun.run.invariant epoch (hapart epoch sink rfl) sink
    | reset => exact fun e he => absurd he not_mem_nil
    | _ => exact ih

/-- In a run without a pair in one epoch, whatever issues reads after the latest write. -/
theorem SeparateRun.reads_after_write (h : SeparateRun capacities log s) (epoch : Epoch)
    (sink : ℕ → Bool) :
    ReadsAfterWrite log s epoch sink := by
  have hinv := h.run.invariant
  intro e he tile htile p hp
  obtain ⟨e, ⟨hqueue, hready, _⟩, rfl⟩ := (hinv.epoch epoch sink).oldest e he
  have hmem : e ∈ log.accepted := (hinv.committed.mem_queue.mp hqueue).1
  have hlt : p.instruction.sequenceId < e.instruction.sequenceId := hp.older
  rw [hinv.record_eq epoch sink] at hp
  have holder : p ∈ log.accepted := by
    rcases mem_append.mp hp.mem with hp' | hp'
    · exact hp'
    · exact absurd (hinv.entering_younger epoch hmem hp') (not_lt.mpr (le_of_lt hlt))
  have hlatest : LatestProducer log.accepted e.instruction tile p :=
    ⟨holder, hp.outputs, hlt, fun q hq => hp.latest q (mem_append_left _ hq)⟩
  obtain ⟨d, hd, hproducer⟩ := h.depends e hmem tile htile p hlatest
  have hcompleted := of_decide_eq_true (all_eq_true.mp hready d hd)
  rw [hproducer, hinv.committed.completed, mem_toFinset] at hcompleted
  exact hcompleted

/-! ### One epoch -/

/-- An instruction that writes a tile, and one that reads it. -/
def writer : NpuInstruction := { sequenceId := 0, outputTiles := [[49]], engine := .scalar }
def reader : NpuInstruction := { sequenceId := 1, inputTiles := [[49]], engine := .vector }

def afterCalls : List Call → Log × NpuDependencyTracker
  | [] => ({}, { capacities := fun _ => 2 })
  | call :: calls => ((afterCalls calls).1.record (afterCalls calls).2 call, (afterCalls calls).2.step call)

theorem run_afterCalls : ∀ calls : List Call,
    Run (fun _ => 2) (afterCalls calls).1 (afterCalls calls).2
  | [] => .start
  | call :: calls => .call call (run_afterCalls calls)

/-- Both dispatches in one epoch, then the issue of the reader; the last call first. -/
def oneEpoch : List Call :=
  [.proposeIssue .vector, .commit ⟨0, 0⟩ fun _ => true, .proposeDispatch reader 8, .proposeDispatch writer 7]

/-- The reader issues although the writer has not even issued. -/
theorem reader_overtakes :
    ¬∀ (capacities : NpuEngineClass → ℕ) (log : Log) (s : NpuDependencyTracker),
    Run capacities log s → ∀ epoch sink, ReadsAfterWrite log s epoch sink := by
  intro h
  let written : NpuIssueEntry := ⟨{ writer with timestamps := { dispatched := some 0 } }, 7, []⟩
  let read : NpuIssueEntry := ⟨{ reader with timestamps := { dispatched := some 0 } }, 8, []⟩
  have hissued : ((afterCalls oneEpoch).2.commit ⟨1, 0⟩ fun _ => true).issued = [setIssued ⟨1, 0⟩ read] := rfl
  have haccepted : ((afterCalls oneEpoch).1.record (afterCalls oneEpoch).2
      (.commit ⟨1, 0⟩ fun _ => true)).accepted = [written, read] := rfl
  have hlatest : LatestProducer [written, read] (setIssued ⟨1, 0⟩ read).instruction [49] written := by
    refine ⟨mem_cons_self, by decide, by decide, fun q hq houtputs _ => ?_⟩
    rcases mem_cons.mp hq with rfl | hq
    · exact le_rfl
    · rw [mem_singleton.mp hq] at houtputs
      exact absurd houtputs (by decide)
  have hread := h _ _ _ (run_afterCalls oneEpoch) ⟨1, 0⟩ (fun _ => true) _
    (hissued ▸ mem_cons_self) [49] (mem_cons_self) written (haccepted ▸ hlatest)
  exact absurd hread not_mem_nil

instance (s : NpuDependencyTracker) : Decidable s.SameEpochPair :=
  inferInstanceAs (Decidable (∃ p ∈ _, ∃ q ∈ _, _ ∧ ∃ tile ∈ _, _))

/-- No epoch of the calls ends with a pair. -/
def apart : List Call → Bool
  | [] => true
  | .commit _ _ :: calls => apart calls && !decide (afterCalls calls).2.SameEpochPair
  | _ :: calls => apart calls

theorem separateRun_afterCalls : ∀ calls : List Call, apart calls = true →
    SeparateRun (fun _ => 2) (afterCalls calls).1 (afterCalls calls).2
  | [], _ => .start
  | call :: calls, h => by
    have hbefore : apart calls = true := by
      cases call <;> simp_all [apart]
    refine .call call (separateRun_afterCalls calls hbefore) ?_
    rintro epoch sink rfl
    simp only [apart, Bool.and_eq_true, Bool.not_eq_true', decide_eq_false_iff_not] at h
    exact h.2

/-- The reader is dispatched an epoch later and issues when the writer has completed. -/
def twoEpochs : List Call :=
  [.proposeIssue .vector, .commit ⟨3, 0⟩ fun _ => true, .proposeComplete 0,
    .commit ⟨2, 0⟩ fun _ => true, .proposeIssue .scalar, .commit ⟨1, 0⟩ fun _ => true,
    .proposeDispatch reader 8, .commit ⟨0, 0⟩ fun _ => true, .proposeDispatch writer 7]

theorem reader_waits :
    (sequences ((afterCalls twoEpochs).2.commit ⟨4, 0⟩ fun _ => true).issued = [1] ∧
      (afterCalls twoEpochs).1.completed = [0]) ∧
      ReadsAfterWrite (afterCalls twoEpochs).1 (afterCalls twoEpochs).2 ⟨4, 0⟩ fun _ => true :=
  ⟨by decide +kernel, (separateRun_afterCalls twoEpochs (by decide +kernel)).reads_after_write ⟨4, 0⟩ _⟩

/-- The conservation of the run that ends before the reader issues. -/
theorem tracker_conserves_twoEpochs : (afterCalls twoEpochs).2.Conserved (afterCalls twoEpochs).1 :=
  (run_afterCalls twoEpochs).tracker_conserves.1

end NpuDependencyTracker

end AgenticCircuit.Npu
