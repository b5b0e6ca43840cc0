import AgenticCircuit.Gfsim.Components
import Mathlib.Data.List.Perm.Subperm

/-! # The finite scheduler

`Scheduler<T>` of `gfsim/components.h` with its capacity and its counters.  Entries are proposed,
accepted by an arbitration as far as the capacity goes, committed at Xfer, and handed out by pops,
which move a cursor through the committed entries until Xfer removes what they have handed out.

* **`SchedulerEntry.key`** is the order of `stableLess`: priority, issue epoch, port, instance,
  owner and transaction.  Live entries differ in owner or transaction, so their keys differ.
* **`Logged`** is a scheduler with three history variables: the values the pops of the epoch have
  returned, the entries handed out since the construction, and the entries accepted.
* **`SchedulerInv`** is the invariant: the live entries are distinct and fit, the committed ones are
  in order, and an accepted one is handed out, waits behind the cursor or waits for Xfer. -/

namespace AgenticCircuit.Gfsim

open List SchedulerEntry Body

variable {α : Type}

/-- The order of `stableLess`. -/
def SchedulerEntry.key (e : SchedulerEntry α) : ℕ ×ₗ Epoch ×ₗ ℕ ×ₗ ℕ ×ₗ ℕ ×ₗ ℕ :=
  toLex (e.priority, toLex (e.issueEpoch, toLex (e.portIndex, toLex (e.instanceIndex,
    toLex (e.ownerId, e.transactionId)))))

/-- What `sameIdentity` compares. -/
def SchedulerEntry.identity (e : SchedulerEntry α) : ObjectId × ℕ := (e.ownerId, e.transactionId)

structure FiniteScheduler (α : Type) extends Scheduler α where
  id : ObjectId
  capacity : ℕ
  observationSink : Bool := false
  rejectedTransactions : List ℕ := []
  highWatermark : ℕ := 0
  totalScheduled : UInt64 := 0
  totalPops : UInt64 := 0
  lastUpdate : Epoch := ⟨0, 0⟩

namespace FiniteScheduler

def construct (α : Type) (id : ObjectId) (capacity : ℕ) (observationSink : Bool) :
    FiniteScheduler α :=
  { id := id, capacity := capacity, observationSink := observationSink }

variable (s : FiniteScheduler α)

/-! ### Proposals -/

def containsIdentity (ownerId : ObjectId) (transactionId : ℕ) : Bool :=
  let found (entry : SchedulerEntry α) : Bool :=
    entry.ownerId = ownerId && entry.transactionId = transactionId
  s.proposals.any found || s.accepted.any found || s.committed.any found

def proposeSchedule (value : α) (priority portIndex instanceIndex : ℕ) (ownerId : ObjectId)
    (transactionId : ℕ) : Bool × FiniteScheduler α :=
  if ownerId = kInvalidObjectId || s.containsIdentity ownerId transactionId then (false, s)
  else
    let entry := ⟨value, priority, ⟨0, 0⟩, portIndex, instanceIndex, ownerId, transactionId⟩
    (true, { s with proposals := s.proposals ++ [entry] })

def proposePop : Option α × FiniteScheduler α :=
  match s.committed[s.popProposalCount]? with
  | none => (none, s)
  | some entry => (some entry.value, { s with popProposalCount := s.popProposalCount + 1 })

/-! ### Arbitration -/

/-- The proposals of an epoch in the order of `stableLess`. -/
def sortedProposals (epoch : Epoch) : List (SchedulerEntry α) :=
  insertAll key []
    (s.proposals.map fun entry => { entry with issueEpoch := epoch })

/-- How many proposals an arbitration accepts. -/
def acceptedCount : ℕ :=
  let occupied := s.committed.length + s.accepted.length
  let available := if occupied < s.capacity then s.capacity - occupied else 0
  min available s.proposals.length

/-- The state `doArbitrate` leaves, up to the failure code of its observations. -/
def arbitrated (epoch : Epoch) : FiniteScheduler α :=
  { s with
    proposals := []
    accepted := s.accepted ++ (s.sortedProposals epoch).take s.acceptedCount
    rejected := s.rejected ++ (s.sortedProposals epoch).drop s.acceptedCount }

/-- `SimObject::emitObservation`. -/
def emitObservation (proposal : EventProposal) : Body (FiniteScheduler α) :=
  if !s.observationSink then .done s
  else .proposeObservation { proposal with ownerId := s.id } fun ok =>
    .done (if ok then s else { s with runtimeFailureCode := "observation_proposal_failed" })

def observe (category name : String) :
    List (SchedulerEntry α) → FiniteScheduler α → Body (FiniteScheduler α)
  | [], s => .done s
  | entry :: rest, s => do
      observe category name rest (← s.emitObservation
        { category := category, name := name, rootSequenceId := some entry.transactionId
          arguments := [⟨"child_owner_id", .unsigned entry.ownerId⟩,
            ⟨"transaction_id", .unsigned entry.transactionId⟩] })

def observeOccupancy : Body (FiniteScheduler α) :=
  if !s.accepted.isEmpty || !s.rejected.isEmpty || decide (s.popProposalCount ≠ 0) then
    s.emitObservation
      { category := "queue", name := "occupancy", phase := .counter
        arguments := [⟨"occupancy", .unsigned (s.committed.length -
          min s.popProposalCount s.committed.length + s.accepted.length)⟩] }
  else .done s

def doArbitrate (epoch : Epoch) : Body (FiniteScheduler α) := do
  let s := s.arbitrated epoch
  let s ← observe "transaction" "accepted" s.accepted s
  let s ← observe "stall" "capacity" s.rejected s
  s.observeOccupancy

/-! ### Xfer -/

def doXfer (epoch : Epoch) : FiniteScheduler α :=
  let popped := min s.popProposalCount s.committed.length
  let committed := insertAll key [] (s.committed.drop popped ++ s.accepted)
  { s with
    committed := committed
    accepted := []
    rejected := []
    popProposalCount := 0
    totalPops := s.totalPops + UInt64.ofNat popped
    totalScheduled := s.totalScheduled + UInt64.ofNat s.accepted.length
    rejectedTransactions := s.rejectedTransactions ++ s.rejected.map transactionId
    highWatermark := max s.highWatermark committed.length
    lastUpdate := if s.hasPendingCommit then epoch else s.lastUpdate }

/-- `Scheduler::validate`. -/
def validate : Bool :=
  decide (s.committed.length ≤ s.capacity) &&
    decide (s.committed.Pairwise fun left right => left.identity ≠ right.identity)

/-! ### Runs -/

end FiniteScheduler

/-- A scheduler, the values that the pops have returned since the last Xfer, and the entries that
have been handed out and accepted since the construction. -/
structure Logged (α : Type) where
  scheduler : FiniteScheduler α
  popped : List α := []
  handed : List (SchedulerEntry α) := []
  accepted : List (SchedulerEntry α) := []

open Logged

namespace Logged

open FiniteScheduler

def schedule (l : Logged α) (value : α) (priority portIndex instanceIndex : ℕ) (ownerId : ObjectId)
    (transactionId : ℕ) : Logged α :=
  { l with scheduler := (l.scheduler.proposeSchedule value priority portIndex instanceIndex ownerId
      transactionId).2 }

def pop (l : Logged α) : Logged α :=
  { l with
    scheduler := l.scheduler.proposePop.2
    popped := l.popped ++ l.scheduler.proposePop.1.toList
    handed := l.handed ++ (l.scheduler.committed[l.scheduler.popProposalCount]?).toList }

/-- Arbitration has left `s`. -/
def arbitrate (l : Logged α) (s : FiniteScheduler α) : Logged α :=
  { l with
    scheduler := s
    accepted := l.accepted ++ s.accepted.drop l.scheduler.accepted.length }

def xfer (l : Logged α) (epoch : Epoch) : Logged α :=
  { l with scheduler := l.scheduler.doXfer epoch, popped := [] }

/-- One call, arbitration under any answers of the system. -/
inductive Step : Logged α → Logged α → Prop
  | schedule {l : Logged α} (value : α) (priority portIndex instanceIndex : ℕ) (ownerId : ObjectId)
      (transactionId : ℕ) :
      Step l (l.schedule value priority portIndex instanceIndex ownerId transactionId)
  | pop {l : Logged α} : Step l l.pop
  | arbitrate {l : Logged α} {s : FiniteScheduler α} (epoch : Epoch)
      (hleaf : (l.scheduler.doArbitrate epoch).Leaf s) : Step l (l.arbitrate s)
  | xfer {l : Logged α} (epoch : Epoch) : Step l (l.xfer epoch)

/-- The entries that are proposed, accepted or committed. -/
def live (s : FiniteScheduler α) : List (SchedulerEntry α) :=
  s.proposals ++ (s.accepted ++ s.committed)

structure SchedulerInv (capacity : ℕ) (l : Logged α) : Prop where
  unchanged : l.scheduler.capacity = capacity
  identities : ((live l.scheduler).map identity).Nodup
  fits : l.scheduler.committed.length + l.scheduler.accepted.length ≤ capacity
  ordered : l.scheduler.committed.Pairwise fun a b => a.key < b.key
  cursor : l.scheduler.popProposalCount ≤ l.scheduler.committed.length
  popped : l.popped =
    (l.scheduler.committed.take l.scheduler.popProposalCount).map value
  conserved : l.accepted.Perm (l.handed ++
    (l.scheduler.committed.drop l.scheduler.popProposalCount ++ l.scheduler.accepted))

variable {l : Logged α} {s s' : FiniteScheduler α} {capacity : ℕ} {entries : List (SchedulerEntry α)}

theorem identity_of_key {e e' : SchedulerEntry α} (h : e.key = e'.key) : e.identity = e'.identity :=
  congrArg (fun k : ℕ ×ₗ Epoch ×ₗ ℕ ×ₗ ℕ ×ₗ ℕ ×ₗ ℕ =>
    ((ofLex (ofLex (ofLex (ofLex (ofLex k).2).2).2).2).1,
      (ofLex (ofLex (ofLex (ofLex (ofLex k).2).2).2).2).2)) h

theorem nodup_keys (h : (entries.map identity).Nodup) : (entries.map key).Nodup := by
  rw [List.Nodup, pairwise_map] at h ⊢
  exact h.imp fun hne heq => hne (identity_of_key heq)

theorem containsIdentity_iff {ownerId : ObjectId} {transactionId : ℕ} :
    s.containsIdentity ownerId transactionId = true ↔
      (ownerId, transactionId) ∈ (live s).map identity := by
  simp only [containsIdentity, Bool.or_eq_true, any_eq_true, Bool.and_eq_true,
    decide_eq_true_eq, mem_map, live, mem_append, identity, Prod.mk.injEq]
  constructor
  · rintro ((⟨e, he, h⟩ | ⟨e, he, h⟩) | ⟨e, he, h⟩)
    · exact ⟨e, .inl he, h⟩
    · exact ⟨e, .inr (.inl he), h⟩
    · exact ⟨e, .inr (.inr he), h⟩
  · rintro ⟨e, he | he | he, h⟩
    · exact .inl (.inl ⟨e, he, h⟩)
    · exact .inl (.inr ⟨e, he, h⟩)
    · exact .inr ⟨e, he, h⟩

/-- A proposal with the identity of no live entry joins them. -/
theorem SchedulerInv.schedule (h : SchedulerInv capacity l) (value : α)
    (priority portIndex instanceIndex : ℕ) (ownerId : ObjectId) (transactionId : ℕ) :
    SchedulerInv capacity
      (l.schedule value priority portIndex instanceIndex ownerId transactionId) := by
  unfold Logged.schedule proposeSchedule
  split
  · exact h
  · rename_i hadmitted
    rw [Bool.or_eq_true, not_or, containsIdentity_iff] at hadmitted
    refine ⟨h.unchanged, ?_, h.fits, h.ordered, h.cursor, h.popped, h.conserved⟩
    show ((l.scheduler.proposals ++ [_] ++ _).map identity).Nodup
    rw [List.append_assoc, singleton_append]
    refine ((perm_middle.map identity).nodup_iff).2 ?_
    rw [map_cons, nodup_cons]
    exact ⟨hadmitted.2, h.identities⟩

theorem SchedulerInv.pop (h : SchedulerInv capacity l) : SchedulerInv capacity l.pop := by
  unfold Logged.pop proposePop
  cases hnext : l.scheduler.committed[l.scheduler.popProposalCount]? with
  | none => exact ⟨h.unchanged, h.identities, h.fits, h.ordered, h.cursor, by simpa using h.popped,
      by simpa using h.conserved⟩
  | some entry =>
    obtain ⟨hlt, hentry⟩ := List.getElem?_eq_some_iff.1 hnext
    have htake : l.scheduler.committed.take (l.scheduler.popProposalCount + 1) =
        l.scheduler.committed.take l.scheduler.popProposalCount ++ [entry] := by
      rw [take_add_one, hnext, Option.toList_some]
    have hdrop : l.scheduler.committed.drop l.scheduler.popProposalCount =
        entry :: l.scheduler.committed.drop (l.scheduler.popProposalCount + 1) := by
      rw [drop_eq_getElem_cons hlt, hentry]
    refine ⟨h.unchanged, h.identities, h.fits, h.ordered, hlt, ?_, ?_⟩
    · show l.popped ++ [entry.value] = _
      rw [h.popped]
      rw [htake, map_append, map_singleton]
    · have hconserved := h.conserved
      rw [hdrop] at hconserved
      refine hconserved.trans ?_
      show (l.handed ++ entry :: _).Perm (l.handed ++ [entry] ++ _)
      rw [List.append_assoc]
      exact .refl _

/-! ### Arbitration -/

/-- Observations change the failure code only. -/
def Observed (s s' : FiniteScheduler α) : Prop :=
  ∃ code, s' = { s with runtimeFailureCode := code }

theorem emitObservation_leaf {proposal : EventProposal}
    (hleaf : (s.emitObservation proposal).Leaf s') : Observed s s' := by
  unfold emitObservation at hleaf
  split at hleaf
  · exact ⟨s.runtimeFailureCode, (leaf_done.1 hleaf).symm⟩
  · obtain ⟨ok, hleaf⟩ := hleaf
    cases ok with
    | true => exact ⟨s.runtimeFailureCode, (leaf_done.1 hleaf).symm⟩
    | false => exact ⟨_, (leaf_done.1 hleaf).symm⟩

theorem Observed.trans {s'' : FiniteScheduler α} (h : Observed s s') (h' : Observed s' s'') :
    Observed s s'' := by
  obtain ⟨_, rfl⟩ := h
  obtain ⟨code, rfl⟩ := h'
  exact ⟨code, rfl⟩

theorem observe_leaf {category name : String} (hleaf : (observe category name entries s).Leaf s') :
    Observed s s' := by
  induction entries generalizing s with
  | nil => exact ⟨s.runtimeFailureCode, (leaf_done.1 hleaf).symm⟩
  | cons entry entries ih =>
    obtain ⟨u, hu, hleaf⟩ := (leaf_bind _).1 hleaf
    exact (emitObservation_leaf hu).trans (ih hleaf)

theorem doArbitrate_leaf {epoch : Epoch} (hleaf : (s.doArbitrate epoch).Leaf s') :
    Observed (s.arbitrated epoch) s' := by
  obtain ⟨u, hu, hleaf⟩ := (leaf_bind _).1 hleaf
  obtain ⟨v, hv, hleaf⟩ := (leaf_bind _).1 hleaf
  refine (observe_leaf hu).trans ((observe_leaf hv).trans ?_)
  unfold observeOccupancy at hleaf
  split at hleaf
  · exact emitObservation_leaf hleaf
  · exact ⟨v.runtimeFailureCode, (leaf_done.1 hleaf).symm⟩

theorem sortedProposals_identities (epoch : Epoch) : ((s.sortedProposals epoch).map identity).Perm
      (s.proposals.map identity) := by
  have hperm := (insertAll_perm key []
    (s.proposals.map fun entry => { entry with issueEpoch := epoch })).map identity
  rw [nil_append, map_map] at hperm
  exact hperm

theorem length_sortedProposals (epoch : Epoch) :
    (s.sortedProposals epoch).length = s.proposals.length := by
  simpa using (sortedProposals_identities (s := s) epoch).length_eq

section

variable (h : SchedulerInv capacity l)

include h

/-- Arbitration accepts what fits behind the committed and the accepted entries. -/
theorem SchedulerInv.arbitrate {s' : FiniteScheduler α} {epoch : Epoch}
    (hleaf : (l.scheduler.doArbitrate epoch).Leaf s') : SchedulerInv capacity (l.arbitrate s') := by
  obtain ⟨code, rfl⟩ := doArbitrate_leaf hleaf
  have hfits := h.fits
  have hcapacity := h.unchanged
  have hlength := length_sortedProposals (s := l.scheduler) epoch
  have hcount : l.scheduler.committed.length +
      (l.scheduler.accepted.length + l.scheduler.acceptedCount) ≤ capacity := by
    unfold acceptedCount
    dsimp only
    split <;> omega
  have hnew : (l.scheduler.accepted ++ (l.scheduler.sortedProposals epoch).take
      l.scheduler.acceptedCount).drop l.scheduler.accepted.length =
      (l.scheduler.sortedProposals epoch).take l.scheduler.acceptedCount := drop_left ..
  refine ⟨h.unchanged, ?_, ?_, h.ordered, h.cursor, h.popped, ?_⟩
  · -- the accepted proposals are some of the proposals
    have hall : (((l.scheduler.sortedProposals epoch) ++ (l.scheduler.accepted ++
        l.scheduler.committed)).map identity).Nodup := by
      have hidentities := h.identities
      unfold live at hidentities
      rw [map_append] at hidentities ⊢
      exact ((sortedProposals_identities epoch).append_right _).nodup_iff.2 hidentities
    have hsome := hall.sublist (((take_sublist l.scheduler.acceptedCount _).append_right
      (l.scheduler.accepted ++ l.scheduler.committed)).map identity)
    show (([] ++ (l.scheduler.accepted ++ _ ++ l.scheduler.committed)).map
      identity).Nodup
    rw [nil_append]
    refine ((List.Perm.map identity ?_).nodup_iff).2 hsome
    rw [← List.append_assoc]
    exact perm_append_comm.append_right _
  · show _ + (l.scheduler.accepted ++ _).length ≤ _
    rw [length_append]
    exact le_trans (Nat.add_le_add_left (Nat.add_le_add_left (length_take_le ..) _) _) hcount
  · show (l.accepted ++ _).Perm (l.handed ++ (_ ++ (l.scheduler.accepted ++ _)))
    dsimp only [FiniteScheduler.arbitrated]
    rw [hnew]
    refine (h.conserved.append_right _).trans ?_
    simp only [List.append_assoc]
    exact .refl _

/-! ### Xfer -/

theorem SchedulerInv.doXfer_committed (epoch : Epoch) : (l.scheduler.doXfer epoch).committed.Perm
      (l.scheduler.committed.drop l.scheduler.popProposalCount ++ l.scheduler.accepted) := by
  have hpopped : min l.scheduler.popProposalCount l.scheduler.committed.length =
      l.scheduler.popProposalCount := min_eq_left h.cursor
  unfold FiniteScheduler.doXfer
  rw [hpopped]
  exact insertAll_perm ..

theorem SchedulerInv.remaining :
    ((l.scheduler.committed.drop l.scheduler.popProposalCount ++ l.scheduler.accepted).map
      identity).Nodup := by
  have hsome := h.identities.sublist ((sublist_append_right l.scheduler.proposals
    (l.scheduler.accepted ++ l.scheduler.committed)).map identity)
  have hcomm : (l.scheduler.accepted ++ l.scheduler.committed).Perm
      (l.scheduler.committed ++ l.scheduler.accepted) := perm_append_comm
  replace hcomm := (hcomm.map identity).nodup_iff.1 hsome
  exact hcomm.sublist (((drop_sublist _ _).append_right _).map identity)

theorem SchedulerInv.xfer (epoch : Epoch) : SchedulerInv capacity (l.xfer epoch) := by
  have hperm := h.doXfer_committed epoch
  have hfits := h.fits
  have hremaining := h.remaining
  refine ⟨h.unchanged, ?_, ?_, ?_, Nat.zero_le _, rfl, ?_⟩
  · show ((l.scheduler.proposals ++ ([] ++ (l.scheduler.doXfer epoch).committed)).map
      identity).Nodup
    rw [nil_append]
    refine (((hperm.append_left l.scheduler.proposals).map identity).nodup_iff).2 ?_
    have hcomm : (l.scheduler.accepted ++ l.scheduler.committed).Perm
        (l.scheduler.committed ++ l.scheduler.accepted) := perm_append_comm
    have hlive := (hcomm.append_left l.scheduler.proposals).map identity
    refine (hlive.nodup_iff.1 h.identities).sublist (List.Sublist.map _ ?_)
    exact ((drop_sublist _ _).append_right _).append_left _
  · show (l.scheduler.doXfer epoch).committed.length + 0 ≤ capacity
    rw [hperm.length_eq, length_append, length_drop]
    omega
  · have hpopped : min l.scheduler.popProposalCount l.scheduler.committed.length =
        l.scheduler.popProposalCount := min_eq_left h.cursor
    show (insertAll key [] _).Pairwise _
    rw [hpopped]
    exact pairwise_lt_insertAll _ (nodup_keys hremaining)
  · refine h.conserved.trans (List.Perm.append_left _ ?_)
    show List.Perm _ ((l.scheduler.doXfer epoch).committed ++ [])
    rw [List.append_nil]
    exact hperm.symm

theorem SchedulerInv.step {l' : Logged α} (hstep : Step l l') : SchedulerInv capacity l' := by
  cases hstep with
  | schedule value priority portIndex instanceIndex ownerId transactionId =>
    exact h.schedule value priority portIndex instanceIndex ownerId transactionId
  | pop => exact h.pop
  | arbitrate epoch hleaf => exact h.arbitrate hleaf
  | xfer epoch => exact h.xfer epoch

end

/-- A constructed scheduler. -/
def start (α : Type) (id : ObjectId) (capacity : ℕ) (observationSink : Bool) : Logged α :=
  { scheduler := construct α id capacity observationSink }

theorem SchedulerInv.reachable {id : ObjectId} {observationSink : Bool}
    (h : Relation.ReflTransGen Step (start α id capacity observationSink) l) :
    SchedulerInv capacity l := by
  induction h with
  | refl => exact ⟨rfl, nodup_nil, Nat.zero_le _, List.Pairwise.nil, le_rfl, rfl, .refl _⟩
  | tail _ hstep ih => exact ih.step hstep

/-- What the scheduler keeps in order. -/
structure Orderly (capacity : ℕ) (l : Logged α) : Prop where
  fits : l.scheduler.committed.length ≤ capacity
  identities : ((live l.scheduler).map identity).Nodup
  ordered : l.scheduler.committed.Pairwise fun a b => a.key < b.key
  /-- The pops of the epoch have returned the first committed entries, -/
  popped : l.popped = (l.scheduler.committed.take l.popped.length).map value
  /-- which leave at its Xfer, and the accepted entries come after. -/
  removed : ∀ epoch, (l.scheduler.doXfer epoch).committed.Perm
    (l.scheduler.committed.drop l.popped.length ++ l.scheduler.accepted)
  /-- An accepted entry has been handed out, waits for a pop, or waits for Xfer. -/
  conserved : l.accepted.Perm (l.handed ++
    (l.scheduler.committed.drop l.popped.length ++ l.scheduler.accepted))
  once : l.handed.Subperm l.accepted

theorem SchedulerInv.orderly (h : SchedulerInv capacity l) : Orderly capacity l := by
  have hlength : l.popped.length = l.scheduler.popProposalCount := by
    rw [h.popped, length_map, length_take, min_eq_left h.cursor]
  have hconserved := h.conserved
  refine ⟨le_trans (Nat.le_add_right ..) h.fits, h.identities, h.ordered, ?_, fun epoch => ?_, ?_,
    ?_⟩
  · rw [hlength]
    exact h.popped
  · rw [hlength]
    exact h.doXfer_committed epoch
  · rw [hlength]
    exact hconserved
  · exact ((sublist_append_left _ _).subperm).trans hconserved.symm.subperm

end Logged

/-- **The scheduler keeps order.**  After every sequence of calls the committed entries fit and are
in order, live entries differ, the pops of the epoch have returned the first committed entries,
which leave at Xfer before the accepted ones come, and no accepted entry is handed out twice. -/
theorem scheduler_orderly {id : ObjectId} {capacity : ℕ} {observationSink : Bool} {l : Logged α}
    (h : Relation.ReflTransGen Step (start α id capacity observationSink) l) :
    l.Orderly capacity :=
  (SchedulerInv.reachable h).orderly

/-- Arbitration under an idle system. -/
def Logged.idle (l : Logged ℕ) (epoch : Epoch) : Logged ℕ :=
  l.arbitrate ((l.scheduler.doArbitrate epoch).exec (Config.ofKinds []) {}).2

theorem Logged.step_idle (l : Logged ℕ) (epoch : Epoch) : Step l (l.idle epoch) :=
  .arbitrate epoch (exec_leaf _ _ _)

/-- The entry of priority 5 is handed out; one of priority 1 is then accepted before it. -/
def Logged.overtaken : Logged ℕ :=
  let committed := (((start ℕ 0 2 false).schedule 50 5 0 0 1 1).idle ⟨0, 0⟩).xfer ⟨0, 0⟩
  (committed.pop.schedule 10 1 0 0 1 2).idle ⟨1, 0⟩

theorem Logged.overtaken_reachable : Relation.ReflTransGen Step (start ℕ 0 2 false) overtaken :=
  .tail (.tail (.tail (.tail (.tail (.single (.schedule 50 5 0 0 1 1)) (step_idle _ ⟨0, 0⟩))
    (.xfer ⟨0, 0⟩)) .pop) (.schedule 10 1 0 0 1 2)) (step_idle _ ⟨1, 0⟩)

theorem scheduler_orderly_overtaken :
    overtaken.popped = [50] ∧ overtaken.scheduler.accepted.length = 1 ∧
    Orderly 2 overtaken :=
  ⟨by decide +kernel, by decide +kernel, scheduler_orderly overtaken_reachable⟩

end AgenticCircuit.Gfsim
