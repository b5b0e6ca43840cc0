import AgenticCircuit.Gfsim.EventLog

/-! # The order of the observation log

Runs of the recorder whose commits come as the steps of the system issue them: by epoch, and by
owner within an epoch.

* **Journal.**  What the recorder is for: proposals wait with their owner, a commit publishes
  them and a rejection drops them.
* **The log** is the journal in order, with owner-local indices, and every flow starts and ends in
  turn (`log_ordered`).  A commit that fails changes nothing of it. -/

namespace AgenticCircuit.Gfsim

open List Function ObservationRecorder

namespace ObservationRecorder

inductive Call where
  | propose (proposal : EventProposal)
  | commitOwner (owner : ObjectId) (epoch : Epoch)
  | rejectOwner (owner : ObjectId)

namespace Call

/-- The recorder after the call, and the answer. -/
def run (r : ObservationRecorder) : Call → ObservationRecorder × Bool
  | propose proposal => r.propose proposal
  | commitOwner owner epoch => r.commitOwner owner epoch
  | rejectOwner owner => (r.rejectOwner owner, true)

/-- The epoch and the owner of a commit. -/
def commit : Call → Option (Epoch × ObjectId)
  | commitOwner owner epoch => some (epoch, owner)
  | _ => none

end Call

/-- Commits by epoch, and by owner within an epoch. -/
def Ordered (calls : List Call) : Prop :=
  (calls.filterMap Call.commit).Pairwise fun a b => a.1 < b.1 ∨ a.1 = b.1 ∧ a.2 ≤ b.2

instance (calls : List Call) : Decidable (Ordered calls) :=
  inferInstanceAs (Decidable (Pairwise _ _))

/-! ### The journal -/

/-- The proposals that wait, and those published with their epochs. -/
structure Journal where
  waiting : ObjectId → List EventProposal := fun _ => []
  published : List (Epoch × EventProposal) := []

/-- A call that is answered with success takes effect. -/
def Journal.record (j : Journal) : Call → Bool → Journal
  | .propose proposal, true =>
      let proposals := j.waiting proposal.ownerId ++ [proposal]
      { j with waiting := update j.waiting proposal.ownerId proposals }
  | .commitOwner owner epoch, true =>
      { waiting := update j.waiting owner []
        published := j.published ++ (j.waiting owner).map fun p => (epoch, p) }
  | .rejectOwner owner, _ => { j with waiting := update j.waiting owner [] }
  | _, false => j

/-- The recorder after the calls, and the journal of its answers. -/
def replay (calls : List Call) : ObservationRecorder × Journal :=
  calls.foldl (fun state call =>
    ((call.run state.1).1, state.2.record call (call.run state.1).2)) ({}, {})

def after (calls : List Call) : ObservationRecorder := (replay calls).1

def journal (calls : List Call) : Journal := (replay calls).2

/-- The proposal that an event publishes. -/
def proposalOf (e : CommittedEvent) : Epoch × EventProposal :=
  (e.epoch, {
    ownerId := e.ownerId, category := e.category, name := e.name, phase := e.phase
    rootSequenceId := e.rootSequenceId, duration := e.duration, flowId := e.flowId
    arguments := e.arguments })

/-- The starts and ends of a flow along the log. -/
def flowPhases (flow : ℕ) (log : List CommittedEvent) : List TraceEventPhase :=
  (log.filter fun e => isFlow e.phase && e.flowId == some flow).map (·.phase)

/-- Start, end, start, ... -/
def alternating (count : ℕ) : List TraceEventPhase :=
  (range count).map fun i => if i % 2 = 0 then .flowStart else .flowEnd

def indicesOf (owner : ObjectId) (log : List CommittedEvent) : List ℕ :=
  (log.filter (·.ownerId == owner)).map (·.localCommittedIndex)

variable {r : ObservationRecorder} {owner : ObjectId} {epoch : Epoch}
  {log : List CommittedEvent} {proposals : List EventProposal} {calls : List Call}

/-! ### A commit -/

theorem lessEvent_iff {a b : CommittedEvent} : a.lessEvent b = true ↔
    a.epoch < b.epoch ∨ a.epoch = b.epoch ∧ (a.ownerId < b.ownerId ∨
      a.ownerId = b.ownerId ∧ a.localCommittedIndex < b.localCommittedIndex) := by
  simp [CommittedEvent.lessEvent]

variable {e : CommittedEvent}

theorem insertLower_append (h : ∀ d ∈ log, d.lessEvent e = true) :
    insertLower e log = log ++ [e] := by
  induction log with
  | nil => rfl
  | cons d log ih =>
    rw [insertLower, if_pos (h d mem_cons_self), ih fun d hd => h d (mem_cons_of_mem _ hd)]
    rfl

theorem foldl_insertLower {additions : List CommittedEvent}
    (h : (log ++ additions).Pairwise fun a b => a.lessEvent b = true) :
    additions.foldl (fun log e => insertLower e log) log = log ++ additions := by
  induction additions generalizing log with
  | nil => simp
  | cons e additions ih =>
    have hlast := (pairwise_append.mp h).2.2
    rw [append_cons] at h ⊢
    rw [foldl_cons, insertLower_append fun d hd => hlast d hd e mem_cons_self]
    exact ih h

variable (next : ℕ)

theorem stamp_spec (h : e ∈ stamp owner epoch next proposals) :
    e.epoch = epoch ∧ e.ownerId = owner ∧ next ≤ e.localCommittedIndex := by
  induction proposals generalizing next with
  | nil => cases h
  | cons p proposals ih =>
    rcases mem_cons.mp h with rfl | h
    · exact ⟨rfl, rfl, le_rfl⟩
    · have := ih (next + 1) h
      exact ⟨this.1, this.2.1, by omega⟩

theorem pairwise_stamp :
    (stamp owner epoch next proposals).Pairwise fun a b => a.lessEvent b = true := by
  induction proposals generalizing next with
  | nil => exact .nil
  | cons p proposals ih =>
    refine .cons (fun e he => ?_) (ih (next + 1))
    obtain ⟨hepoch, howner, hindex⟩ := stamp_spec (next + 1) he
    exact lessEvent_iff.mpr (.inr ⟨hepoch.symm, .inr ⟨howner.symm, hindex⟩⟩)

theorem proposalOf_stamp (h : ∀ p ∈ proposals, p.ownerId = owner) :
    (stamp owner epoch next proposals).map proposalOf = proposals.map (epoch, ·) := by
  induction proposals generalizing next with
  | nil => rfl
  | cons p proposals ih =>
    obtain ⟨rfl, hrest⟩ := forall_mem_cons.mp h
    exact congrArg₂ cons rfl (ih (next + 1) hrest)

theorem indicesOf_stamp (owner' : ObjectId) : indicesOf owner' (stamp owner epoch next proposals) =
      if owner = owner' then range' next proposals.length else [] := by
  unfold indicesOf
  induction proposals generalizing next with
  | nil => split_ifs <;> rfl
  | cons p proposals ih =>
    rw [stamp, filter_cons]
    split_ifs with hmatch howner howner
    · rw [map_cons, ih, if_pos howner]
      rfl
    · exact absurd (by simpa using hmatch) howner
    · exact absurd (by simpa using howner) hmatch
    · rw [ih, if_neg howner]

/-- Along the log every flow alternates, and is active after an odd number of phases. -/
def FlowsFit (log : List CommittedEvent) (flows : ℕ → Bool) : Prop :=
  ∀ flow, ∃ count, flowPhases flow log = alternating count ∧ flows flow = decide (count % 2 = 1)

theorem alternating_succ (count : ℕ) : alternating (count + 1) =
    alternating count ++ [if count % 2 = 0 then .flowStart else .flowEnd] := by
  simp [alternating, range_succ]

theorem FlowsFit.append {flows : ℕ → Bool} (h : FlowsFit log flows) :
    (isFlow e.phase = false → FlowsFit (log ++ [e]) flows) ∧
    ∀ f, e.flowId = some f → e.phase = (if flows f then .flowEnd else .flowStart) →
      FlowsFit (log ++ [e]) (update flows f !flows f) := by
  have happend : ∀ flow, flowPhases flow (log ++ [e]) = flowPhases flow log ++
      if isFlow e.phase && e.flowId == some flow then [e.phase] else [] := by
    intro flow
    simp only [flowPhases, filter_append, map_append, filter_cons]
    split_ifs <;> rfl
  refine ⟨fun hphase flow => ?_, fun f hf hphase flow => ?_⟩
  · obtain ⟨count, hphases, hactive⟩ := h flow
    exact ⟨count, by simp [happend, hphase, hphases], hactive⟩
  · obtain ⟨count, hphases, hactive⟩ := h flow
    by_cases hflow : flow = f
    · subst hflow
      refine ⟨count + 1, ?_, ?_⟩
      · rw [happend, hphases, alternating_succ, hf, hphase, hactive]
        rcases Nat.mod_two_eq_zero_or_one count with hmod | hmod <;> simp [hmod, isFlow]
      · rw [update_self, hactive, ← decide_not]
        exact decide_eq_decide.mpr (by omega)
    · refine ⟨count, ?_, by rw [update_of_ne hflow, hactive]⟩
      rw [happend, hf, hphases]
      simp [Ne.symm hflow]

theorem FlowsFit.stamp {flows flows' : ℕ → Bool} (hwell : ∀ p ∈ proposals, p.WellFormed)
    (next : ℕ) (h : FlowsFit log flows) (hstep : stepFlows proposals flows = .ok flows') :
    FlowsFit (log ++ stamp owner epoch next proposals) flows' := by
  induction proposals generalizing log next flows with
  | nil =>
    cases hstep
    simpa [stamp] using h
  | cons p proposals ih =>
    obtain ⟨hp, hrest⟩ := forall_mem_cons.mp hwell
    obtain ⟨e, he, hephase, heflow⟩ : ∃ e, stamp owner epoch next (p :: proposals) =
        e :: stamp owner epoch (next + 1) proposals ∧
        e.phase = p.phase ∧ e.flowId = p.flowId := ⟨_, rfl, rfl, rfl⟩
    rw [he, append_cons]
    have hid := hp.flowId
    cases hphase : p.phase with
    | flowStart =>
      rw [hphase] at hid
      obtain ⟨f, hf⟩ := Option.isSome_iff_exists.mp hid
      simp only [stepFlows, hphase, hf, Option.getD_some] at hstep
      split at hstep
      · cases hstep
      · next hactive =>
        rw [Bool.not_eq_true] at hactive
        have hnext := h.append.2 f (heflow.trans hf) (by rw [hephase, hphase, hactive]; rfl)
        exact ih hrest (next + 1) hnext (by rwa [hactive])
    | flowEnd =>
      rw [hphase] at hid
      obtain ⟨f, hf⟩ := Option.isSome_iff_exists.mp hid
      simp only [stepFlows, hphase, hf, Option.getD_some] at hstep
      split at hstep
      · cases hstep
      · next hactive =>
        rw [Bool.not_eq_true, Bool.not_eq_false'] at hactive
        have hnext := h.append.2 f (heflow.trans hf) (by rw [hephase, hphase, hactive]; rfl)
        exact ih hrest (next + 1) hnext (by rwa [hactive])
    | instant | complete | counter =>
      simp only [stepFlows, hphase] at hstep
      exact ih hrest (next + 1) (h.append.1 (by rw [hephase, hphase]; rfl)) hstep

/-! ### Runs -/

/-- The log after commits of `keys`, and the journal. -/
structure Logged (keys : List (Epoch × ObjectId)) (r : ObservationRecorder) (j : Journal) :
    Prop where
  sorted : r.committed.Pairwise fun a b => a.lessEvent b = true
  committed_mem : ∀ e ∈ r.committed, (e.epoch, e.ownerId) ∈ keys
  indices : ∀ owner, indicesOf owner r.committed = range (r.nextIndices owner)
  flows : FlowsFit r.committed r.activeFlows
  waiting : r.pending = j.waiting
  published : r.committed.map proposalOf = j.published
  owners : ∀ owner, ∀ p ∈ r.pending owner, p.ownerId = owner
  holds : r.Holds

variable {keys : List (Epoch × ObjectId)} {j : Journal}

theorem Logged.propose (h : Logged keys r j) (proposal : EventProposal) :
    Logged keys (r.propose proposal).1
      (j.record (.propose proposal) (r.propose proposal).2) := by
  have hholds := h.holds.propose proposal
  obtain ⟨message, heq⟩ | ⟨-, heq⟩ := propose_cases r proposal
  · rw [heq] at hholds ⊢
    exact ⟨h.sorted, h.committed_mem, h.indices, h.flows, h.waiting, h.published, h.owners, hholds⟩
  · rw [heq] at hholds ⊢
    refine ⟨h.sorted, h.committed_mem, h.indices, h.flows, ?_, h.published, fun owner p hp => ?_,
      hholds⟩
    · simp only [Journal.record, h.waiting]
    · simp only [update_apply] at hp
      split_ifs at hp with howner
      · rcases mem_append.mp hp with hp | hp
        · exact (h.owners _ p hp).trans howner.symm
        · rw [mem_singleton.mp hp, howner]
      · exact h.owners owner p hp

theorem Logged.rejectOwner (h : Logged keys r j) (owner : ObjectId) :
    Logged keys (r.rejectOwner owner) (j.record (.rejectOwner owner) true) := by
  refine ⟨h.sorted, h.committed_mem, h.indices, h.flows, ?_, h.published, fun owner' p hp => ?_,
    h.holds.rejectOwner owner⟩
  · simp only [ObservationRecorder.rejectOwner, Journal.record, h.waiting]
  · simp only [ObservationRecorder.rejectOwner, update_apply] at hp
    split_ifs at hp
    · cases hp
    · exact h.owners owner' p hp

theorem Logged.commitOwner (h : Logged keys r j)
    (hkeys : ∀ key ∈ keys, key.1 < epoch ∨ key.1 = epoch ∧ key.2 ≤ owner) :
    Logged (keys ++ [(epoch, owner)]) (r.commitOwner owner epoch).1
      (j.record (.commitOwner owner epoch) (r.commitOwner owner epoch).2) := by
  have hmem := fun e he => mem_append_left [(epoch, owner)] (h.committed_mem e he)
  have hholds := h.holds.commitOwner owner epoch
  obtain ⟨message, heq⟩ | ⟨hempty, heq⟩ | ⟨flows, hflows, heq⟩ := commitOwner_cases r owner epoch
  · rw [heq] at hholds ⊢
    exact ⟨h.sorted, hmem, h.indices, h.flows, h.waiting, h.published, h.owners, hholds⟩
  · rw [heq] at hholds ⊢
    rw [h.waiting] at hempty
    refine ⟨h.sorted, hmem, h.indices, h.flows, ?_, ?_, h.owners, hholds⟩
    · exact h.waiting.trans (update_eq_self_iff.mpr hempty.symm).symm
    · simp [Journal.record, hempty, h.published]
  · rw [heq] at hholds ⊢
    set next := r.nextIndices owner with hnext
    have hsorted : (r.committed ++ stamp owner epoch next (r.pending owner)).Pairwise
        fun a b => a.lessEvent b = true := by
      refine pairwise_append.mpr ⟨h.sorted, pairwise_stamp next, fun d hd e he => ?_⟩
      obtain ⟨hepoch, howner, hindex⟩ := stamp_spec next he
      rw [lessEvent_iff, hepoch, howner]
      refine (hkeys _ (h.committed_mem d hd)).imp_right fun ⟨htime, hle⟩ => ⟨htime, ?_⟩
      refine hle.lt_or_eq.imp_right fun heq => ⟨heq, lt_of_lt_of_le ?_ hindex⟩
      -- an earlier event of the owner has an earlier index
      rw [hnext, ← mem_range, ← h.indices]
      exact mem_map.mpr ⟨d, mem_filter.mpr ⟨hd, by simpa using heq⟩, rfl⟩
    have hmap : (stamp owner epoch next (r.pending owner)).map proposalOf = _ :=
      proposalOf_stamp next (h.owners owner)
    rw [foldl_insertLower hsorted] at hholds ⊢
    refine ⟨hsorted, fun e he => ?_, fun owner' => ?_,
      h.flows.stamp (h.holds.pending owner) next hflows,
      congrArg (fun pending => update pending owner []) h.waiting, ?_,
      fun owner' p hp => ?_, hholds⟩
    · rcases mem_append.mp he with he | he
      · exact hmem e he
      · obtain ⟨hepoch, howner, -⟩ := stamp_spec next he
        simp [hepoch, howner]
    · have hlength : (stamp owner epoch next (r.pending owner)).length = (r.pending owner).length := by
        simpa using congrArg length hmap
      have happend : indicesOf owner' (r.committed ++ stamp owner epoch next (r.pending owner)) =
          indicesOf owner' r.committed ++
            indicesOf owner' (stamp owner epoch next (r.pending owner)) := by
        simp [indicesOf]
      rw [happend, h.indices, indicesOf_stamp, hlength]
      simp only [update_apply]
      split_ifs with h₁ h₂ h₂
      · rw [← h₁, range_eq_range', range_eq_range', ← hnext]
        simpa using range'_append_1 (s := 0) (m := next) (n := (r.pending owner).length)
      · exact absurd h₁.symm h₂
      · exact absurd h₂.symm h₁
      · exact append_nil _
    · rw [map_append, h.published, hmap, h.waiting]
      rfl
    · simp only [update_apply] at hp
      split_ifs at hp
      · cases hp
      · exact h.owners owner' p hp

/-- What every run keeps. -/
theorem Ordered.logged (h : Ordered calls) :
    Logged (calls.filterMap Call.commit) (after calls) (journal calls) := by
  induction calls using List.reverseRec with
  | nil =>
    exact ⟨.nil, nofun, fun _ => rfl, fun _ => ⟨0, rfl, rfl⟩, rfl, rfl, fun _ => nofun,
      ⟨fun _ => nofun, nofun⟩⟩
  | append_singleton calls call ih =>
    unfold Ordered at h
    rw [filterMap_append, pairwise_append] at h
    have ih := ih h.1
    unfold after journal replay at ih ⊢
    rw [foldl_append, filterMap_append]
    cases call with
    | propose proposal =>
      rw [show [Call.propose proposal].filterMap Call.commit = [] from rfl, append_nil]
      exact ih.propose proposal
    | rejectOwner owner =>
      rw [show [Call.rejectOwner owner].filterMap Call.commit = [] from rfl, append_nil]
      exact ih.rejectOwner owner
    | commitOwner owner epoch =>
      exact ih.commitOwner fun key hkey => h.2.2 key hkey (epoch, owner) mem_cons_self

/-- The log of every ordered run. -/
theorem log_ordered (calls : List Call) (h : Ordered calls) :
    (after calls).committed.Pairwise (fun a b => a.lessEvent b = true) ∧
    (∀ owner, indicesOf owner (after calls).committed =
      range ((after calls).nextIndices owner)) ∧
    (∀ flow, ∃ count, flowPhases flow (after calls).committed = alternating count) ∧
    (after calls).committed.map proposalOf = (journal calls).published ∧
    ∀ owner epoch r, (after calls).commitOwner owner epoch = (r, false) →
      r.committed = (after calls).committed ∧ r.nextIndices = (after calls).nextIndices ∧
        r.activeFlows = (after calls).activeFlows := by
  have hlogged := h.logged
  refine ⟨hlogged.sorted, hlogged.indices, fun flow => ?_, hlogged.published,
    fun owner epoch r hr => ?_⟩
  · obtain ⟨count, hphases, -⟩ := hlogged.flows flow
    exact ⟨count, hphases⟩
  · obtain ⟨message, heq⟩ | ⟨-, heq⟩ | ⟨flows, -, heq⟩ :=
      commitOwner_cases (after calls) owner epoch
    · cases heq.symm.trans hr
      exact ⟨rfl, rfl, rfl⟩
    · cases heq.symm.trans hr
    · cases heq.symm.trans hr

def begun : EventProposal :=
  { ownerId := 3, category := "npu", name := "issue", phase := .flowStart, flowId := some 1 }

def ended : EventProposal :=
  { ownerId := 5, category := "npu", name := "complete", phase := .flowEnd, flowId := some 1 }

/-- Object 5 ends the flow that object 3 begins; what object 4 proposes is rejected. -/
def handover : List Call :=
  [.propose ended, .propose { ownerId := 4, category := "npu", name := "stall" }, .propose begun,
    .rejectOwner 4, .commitOwner 3 ⟨0, 0⟩, .commitOwner 4 ⟨0, 0⟩, .commitOwner 5 ⟨0, 0⟩,
    .propose { ownerId := 3, category := "npu", name := "idle" }, .commitOwner 3 ⟨1, 0⟩]

theorem log_ordered_handover :
    (after handover).committed.Pairwise (fun a b => a.lessEvent b = true) ∧
    (after handover).committed.map proposalOf = [(⟨0, 0⟩, begun), (⟨0, 0⟩, ended),
      (⟨1, 0⟩, { ownerId := 3, category := "npu", name := "idle" })] ∧
    indicesOf 3 (after handover).committed = [0, 1] ∧
    flowPhases 1 (after handover).committed = [.flowStart, .flowEnd] := by
  obtain ⟨hsorted, hindices, -, hpublished, -⟩ := log_ordered handover (by decide)
  exact ⟨hsorted, hpublished.trans (by decide +kernel), (hindices 3).trans (by decide +kernel),
    by decide +kernel⟩

end ObservationRecorder

end AgenticCircuit.Gfsim
