import AgenticCircuit.Gfsim.Body

/-! # Queues

`SimQueue` of `gfsim/queue.h`: a FIFO with an entry capacity and an optional byte capacity.
Pushes and pops are proposals; the values popped in an epoch are handed out at once, by
position in the committed snapshot, and the queue changes at the Xfer barrier.

* **Queues** live in a `Heap`: a transfer has two of them, which may be one and the same.
* **`QueueUse`** and **`QueueStep`** say once what the proposals and the Xfer can do to a
  queue, and `FifoInv` is the invariant of the bounded FIFO (`simQueue_fifo`).

Counters and sizes are natural numbers; `totalPushes` and `totalPops` differ from the 64-bit
counters only after `2^64` commits, and their difference not at all. -/

namespace AgenticCircuit.Gfsim

open Function Body List Or

open Relation (ReflTransGen)

/-! ### The queue -/

/-- Serialization of payloads; size `0` stands for a payload without a fixed size. -/
class PacketTraits (α : Type) where
  serializedSize : ℕ

open PacketTraits

/-- History of a queue.  Nothing in the queue reads it. -/
structure QueuePast (α : Type) where
  /-- The accepted pushes in the order of their acceptance. -/
  accepted : List α := []
  /-- The values handed out to pops and transfers, in order. -/
  handedOut : List α := []
  /-- The pushes an Xfer has committed, in order. -/
  published : List α := []
  /-- The commit epochs of the published values, and of the removals by pops. -/
  publishedAt : List Epoch := []
  poppedAt : List Epoch := []
  /-- The commit epochs of the entries that are still committed. -/
  stamps : List Epoch := []
deriving DecidableEq

structure SimQueue (α : Type) where
  id : ObjectId
  entryCapacity : ℕ
  byteCapacity : ℕ := uint64Max
  /-- The bound system, by its address. -/
  system : Option ℕ := none
  observationSink : Bool := false
  committed : List α := []
  pushProposals : List α := []
  popProposalCount : ℕ := 0
  highWatermark : ℕ := 0
  totalPushes : ℕ := 0
  totalPops : ℕ := 0
  lastUpdate : Epoch := ⟨0, 0⟩
  runtimeFailureCode : String := ""
  past : QueuePast α := {}
deriving DecidableEq

namespace SimQueue

variable {α : Type} [PacketTraits α] (q : SimQueue α)

omit [PacketTraits α] in
def committedSize : ℕ := q.committed.length

def exceedsByteCapacity (elementCount : ℕ) : Bool :=
  if serializedSize α = 0 then false
  else decide (q.byteCapacity / serializedSize α < elementCount)

def isFull : Bool :=
  decide (q.entryCapacity ≤ q.committedSize) || q.exceedsByteCapacity (q.committedSize + 1)

def isEmpty : Bool := q.committed.isEmpty

/-- Committed entries and pending pushes. -/
def occupied : ℕ := q.pushProposals.length + q.committedSize

/-- The admission test of a push: pending pushes count as occupied. -/
def admits : Bool :=
  !(decide (q.entryCapacity ≤ q.occupied) || q.exceedsByteCapacity (q.occupied + 1))

/-- Free entry slots, as the 32-bit value the code returns. -/
def space : Int :=
  if q.entryCapacity ≤ q.occupied then 0
  else Int.bmod (q.entryCapacity - q.occupied) (2 ^ 32)

def hasPendingCommit : Bool := !q.pushProposals.isEmpty || decide (q.popProposalCount ≠ 0)

/-- `system_ && !system_->registerCommitParticipant(id())`: an unbound queue asks nobody. -/
def register : Body Bool :=
  if q.system.isNone then .done true else .registerCommitParticipant q.id .done

def acceptPush (element : α) : SimQueue α :=
  { q with
    pushProposals := q.pushProposals ++ [element]
    past := { q.past with accepted := q.past.accepted ++ [element] } }

def handOut (element : α) : SimQueue α :=
  { q with
    popProposalCount := q.popProposalCount + 1
    past := { q.past with handedOut := q.past.handedOut ++ [element] } }

def proposePush (element : α) : Body (SimQueue α × Bool) :=
  if !q.admits then .done (q, false)
  else do
    if ← q.register then return (q.acceptPush element, true)
    else return (q, false)

/-- The entry the next pop is served with; `none` when the snapshot is used up. -/
def nextEntry : Option α := q.committed[q.popProposalCount]?

def proposePop : Body (SimQueue α × Option α) :=
  match q.nextEntry with
  | none => .done (q, none)
  | some element => do
      if ← q.register then return (q.handOut element, some element)
      else return (q, none)

/-- `peek`, and `tryPeek` without its zero value. -/
def peek : Option α := q.committed.head?

/-! ### Arbitration and Xfer -/

/-- `SimObject::emitObservation`. -/
def emitObservation (proposal : EventProposal) : Body (SimQueue α) :=
  if !q.observationSink then .done q
  else .proposeObservation { proposal with ownerId := q.id } fun ok =>
    .done (if ok then q else { q with runtimeFailureCode := "observation_proposal_failed" })

/-- Emit one transaction observation `n` times. -/
def emitTransactions (name : String) : ℕ → SimQueue α → Body (SimQueue α)
  | 0, q => .done q
  | n + 1, q => do
      emitTransactions name n (← q.emitObservation { category := "transaction", name := name })

def doArbitrate : Body (SimQueue α) := do
  let q ← emitTransactions "accepted" q.pushProposals.length q
  let q ← emitTransactions "completed" q.popProposalCount q
  if q.hasPendingCommit then
    let occupancy := q.committedSize + q.pushProposals.length - q.popProposalCount
    q.emitObservation
      { category := "queue", name := "occupancy", phase := .counter
        arguments := [⟨"occupancy", .unsigned occupancy⟩] }
  else return q

/-- Pushes are appended first, then the pops are erased from the front. -/
def doXfer (epoch : Epoch) : SimQueue α :=
  let appended := q.committed ++ q.pushProposals
  let committed := appended.drop q.popProposalCount
  { q with
    committed := committed
    pushProposals := []
    popProposalCount := 0
    highWatermark := max q.highWatermark committed.length
    totalPushes := q.totalPushes + q.pushProposals.length
    totalPops := q.totalPops + min q.popProposalCount appended.length
    lastUpdate := if q.hasPendingCommit then epoch else q.lastUpdate
    past := { q.past with
      published := q.past.published ++ q.pushProposals
      publishedAt := q.past.publishedAt ++ replicate q.pushProposals.length epoch
      poppedAt := q.past.poppedAt ++
        replicate (min q.popProposalCount appended.length) epoch
      stamps := (q.past.stamps ++ replicate q.pushProposals.length epoch).drop
        q.popProposalCount } }

def runtimeState : RuntimeObjectState :=
  let quiescent := q.committed.isEmpty && !q.hasPendingCommit
  { quiescent := quiescent
    pendingCommit := q.hasPendingCommit
    reason := if quiescent then ""
      else if q.hasPendingCommit then "pending_commit" else "queue_not_empty"
    queueOccupancy := q.committedSize
    pendingOffers := q.pushProposals.length }

end SimQueue

/-! ### Several queues -/

/-- The queues of a program, by their addresses. -/
abbrev Heap (α : Type) := Ptr → SimQueue α

/-- Propose the push of `element` to the destination and its pop from the source. -/
def moveEntry {α : Type} (source destination : Ptr) (element : α) (h : Heap α) : Heap α :=
  let pushed := update h destination ((h destination).acceptPush element)
  update pushed source ((pushed source).handOut element)

/-- `SimQueue::proposeTransferTo`.  Source and destination may be the same queue. -/
def proposeTransferTo {α : Type} [PacketTraits α] (source destination : Ptr) (h : Heap α) :
    Body (Heap α × Bool) :=
  if (h source).system ≠ (h destination).system then
    .done (update h source
      { h source with runtimeFailureCode := "queue_transfer_system_mismatch" }, false)
  else
    match (h source).nextEntry with
    | none => .done (h, false)
    | some element =>
      if !(h destination).admits then .done (h, false)
      else do
        if ← (h source).register then
          if ← (h destination).register then
            return (moveEntry source destination element h, true)
          else return (h, false)
        else return (h, false)

/-- The operations on the queues of a heap. -/
inductive QueueOp (α : Type) where
  | proposePush (queue : Ptr) (element : α)
  | proposePop (queue : Ptr)
  | proposeTransferTo (source destination : Ptr)
  | doArbitrate (queue : Ptr)
  | doXfer (queue : Ptr) (epoch : Epoch)

namespace QueueOp

variable {α : Type} [PacketTraits α]

def perform (h : Heap α) : QueueOp α → Body (Heap α)
  | .proposePush p element => do
      let r ← (h p).proposePush element
      return update h p r.1
  | .proposePop p => do
      let r ← (h p).proposePop
      return update h p r.1
  | .proposeTransferTo source destination => do
      let r ← Gfsim.proposeTransferTo source destination h
      return r.1
  | .doArbitrate p => do
      let q ← (h p).doArbitrate
      return update h p q
  | .doXfer p epoch => .done (update h p ((h p).doXfer epoch))

end QueueOp

/-! ### What an operation does to a queue -/

section steps

theorem update_path {R : Ptr → SimQueue α → SimQueue α → Prop}
    (hq : ReflTransGen (R p) (h p) q) (p' : Ptr) :
    ReflTransGen (R p') (h p') (update h p q p') := by
  by_cases hp : p' = p
  · subst hp
    rw [update_self]
    exact hq
  · rw [update_of_ne hp]

variable {α : Type} [PacketTraits α] {h h' : Heap α} {q q' : SimQueue α} {p : Ptr}

/-- One change of a queue by a caller that may push or pop. -/
inductive QueueUse (mayPush mayPop : Bool) : SimQueue α → SimQueue α → Prop
  | push {q : SimQueue α} (element : α) (hmay : mayPush = true) (hadmits : q.admits = true) :
      QueueUse mayPush mayPop q (q.acceptPush element)
  | pop {q : SimQueue α} {element : α} (hmay : mayPop = true)
      (hnext : q.nextEntry = some element) : QueueUse mayPush mayPop q (q.handOut element)
  | code {q : SimQueue α} (runtimeFailureCode : String) :
      QueueUse mayPush mayPop q { q with runtimeFailureCode := runtimeFailureCode }

/-- One change of a queue at the epoch `now`. -/
inductive QueueStep (now : Epoch) : SimQueue α → SimQueue α → Prop
  | use {q q' : SimQueue α} (h : QueueUse true true q q') : QueueStep now q q'
  | xfer {q : SimQueue α} : QueueStep now q (q.doXfer now)

variable {ok pop pop' push push' : Bool} {destination source : Ptr}

theorem QueueUse.mono (hpush : push = true → push' = true) (hpop : pop = true → pop' = true)
    (h : QueueUse push pop q q') : QueueUse push' pop' q q' := by
  cases h with
  | push element hmay hadmits => exact .push element (hpush hmay) hadmits
  | pop hmay hnext => exact .pop (hpop hmay) hnext
  | code c => exact .code c

theorem uses_mono (h : ReflTransGen (QueueUse push pop) q q') (hpush : push = true → push' = true)
    (hpop : pop = true → pop' = true) : ReflTransGen (QueueUse push' pop') q q' :=
  Relation.ReflTransGen.mono (fun _ _ h => h.mono hpush hpop) _ _ h

theorem steps_of_uses {now : Epoch} (h : ReflTransGen (QueueUse push pop) q q') :
    ReflTransGen (QueueStep now) q q' :=
  Relation.ReflTransGen.mono (fun _ _ h => .use (h.mono (fun _ => rfl) fun _ => rfl)) _ _ h

theorem proposePush_uses {element : α} (hleaf : (q.proposePush element).Leaf (q', ok)) :
    ReflTransGen (QueueUse true false) q q' := by
  unfold SimQueue.proposePush at hleaf
  split at hleaf
  · cases leaf_done.mp hleaf
    exact .refl
  rename_i hadmits
  obtain ⟨registered, _, hleaf⟩ := (leaf_bind _).mp hleaf
  cases registered with
  | true =>
    cases leaf_pure.mp hleaf
    exact .single (.push element rfl (by simpa using hadmits))
  | false =>
    cases leaf_pure.mp hleaf
    exact .refl

theorem proposePop_uses {result : Option α} (hleaf : q.proposePop.Leaf (q', result)) :
    ReflTransGen (QueueUse false true) q q' := by
  unfold SimQueue.proposePop at hleaf
  split at hleaf
  · cases leaf_done.mp hleaf
    exact .refl
  rename_i element hnext
  obtain ⟨registered, _, hleaf⟩ := (leaf_bind _).mp hleaf
  cases registered with
  | true =>
    cases leaf_pure.mp hleaf
    exact .single (.pop rfl hnext)
  | false =>
    cases leaf_pure.mp hleaf
    exact .refl

/-- What a transfer does: it marks a failure, it does nothing, or it moves the next entry of
the source. -/
theorem proposeTransferTo_cases (hleaf : (proposeTransferTo source destination h).Leaf (h', ok)) :
    (ok = false ∧ (h' = h ∨ h' = update h source
      { h source with runtimeFailureCode := "queue_transfer_system_mismatch" })) ∨
    (ok = true ∧ ∃ element, (h source).nextEntry = some element ∧
      (h destination).admits = true ∧ h' = moveEntry source destination element h) := by
  unfold proposeTransferTo at hleaf
  split at hleaf
  · cases leaf_done.mp hleaf
    exact inl ⟨rfl, inr rfl⟩
  split at hleaf
  · cases leaf_done.mp hleaf
    exact inl ⟨rfl, inl rfl⟩
  rename_i element hnext
  split at hleaf
  · cases leaf_done.mp hleaf
    exact inl ⟨rfl, inl rfl⟩
  rename_i hadmits
  obtain ⟨first, _, hleaf⟩ := (leaf_bind _).mp hleaf
  cases first with
  | false =>
    cases leaf_pure.mp hleaf
    exact inl ⟨rfl, inl rfl⟩
  | true =>
    obtain ⟨second, _, hleaf⟩ := (leaf_bind _).mp hleaf
    cases second with
    | false =>
      cases leaf_pure.mp hleaf
      exact inl ⟨rfl, inl rfl⟩
    | true =>
      cases leaf_pure.mp hleaf
      exact inr ⟨rfl, element, hnext, by simpa using hadmits, rfl⟩

theorem proposeTransferTo_uses (hleaf : (proposeTransferTo source destination h).Leaf (h', ok))
    (p : Ptr) :
    ReflTransGen (QueueUse (decide (p = destination)) (decide (p = source))) (h p) (h' p) := by
  let R : Ptr → SimQueue α → SimQueue α → Prop :=
    fun p => QueueUse (decide (p = destination)) (decide (p = source))
  rcases proposeTransferTo_cases hleaf with
    ⟨_, rfl | rfl⟩ | ⟨_, element, hnext, hadmits, rfl⟩
  · exact .refl
  · exact update_path (R := R) (.single (.code _)) p
  · have hpush := update_path (R := R) (h := h)
      (.single (.push element (decide_eq_true rfl) hadmits))
    refine (hpush p).trans
      (update_path (R := R) (.single (.pop (decide_eq_true rfl) ?_)) p)
    -- the accepted push does not change the snapshot of the source
    by_cases hsame : source = destination
    · subst hsame
      rw [update_self]
      exact hnext
    · rw [update_of_ne hsame]
      exact hnext

theorem emitObservation_uses {proposal : EventProposal}
    (hleaf : (q.emitObservation proposal).Leaf q') : ReflTransGen (QueueUse false false) q q' := by
  unfold SimQueue.emitObservation at hleaf
  split at hleaf
  · cases leaf_done.mp hleaf
    exact .refl
  obtain ⟨ok, hleaf⟩ := hleaf
  cases ok with
  | true =>
    cases leaf_done.mp hleaf
    exact .refl
  | false =>
    cases leaf_done.mp hleaf
    exact .single (.code _)

theorem emitTransactions_uses {name : String} : ∀ (n : ℕ) {q : SimQueue α},
    (SimQueue.emitTransactions name n q).Leaf q' → ReflTransGen (QueueUse false false) q q'
  | 0, _, hleaf => by
    cases leaf_done.mp hleaf
    exact .refl
  | n + 1, _, hleaf => by
    obtain ⟨r, hfirst, hrest⟩ := (leaf_bind _).mp hleaf
    exact (emitObservation_uses hfirst).trans (emitTransactions_uses n hrest)

theorem doArbitrate_uses (hleaf : q.doArbitrate.Leaf q') :
    ReflTransGen (QueueUse false false) q q' := by
  obtain ⟨r, hpushes, hleaf⟩ := (leaf_bind _).mp hleaf
  obtain ⟨u, hpops, hleaf⟩ := (leaf_bind _).mp hleaf
  refine (emitTransactions_uses _ hpushes).trans ((emitTransactions_uses _ hpops).trans ?_)
  split at hleaf
  · exact emitObservation_uses hleaf
  · cases leaf_pure.mp hleaf
    exact .refl

theorem QueueOp.perform_steps {op : QueueOp α} (hleaf : (op.perform h).Leaf h') :
    ∃ now, ∀ p, ReflTransGen (QueueStep now) (h p) (h' p) := by
  cases op with
  | proposePush p element =>
    obtain ⟨⟨q, ok⟩, hq, hleaf⟩ := (leaf_bind _).mp hleaf
    cases leaf_pure.mp hleaf
    exact ⟨⟨0, 0⟩, update_path (R := fun _ => QueueStep _) (steps_of_uses (proposePush_uses hq))⟩
  | proposePop p =>
    obtain ⟨⟨q, result⟩, hq, hleaf⟩ := (leaf_bind _).mp hleaf
    cases leaf_pure.mp hleaf
    exact ⟨⟨0, 0⟩, update_path (R := fun _ => QueueStep _) (steps_of_uses (proposePop_uses hq))⟩
  | proposeTransferTo source destination =>
    obtain ⟨⟨r, result⟩, hr, hleaf⟩ := (leaf_bind _).mp hleaf
    cases leaf_pure.mp hleaf
    exact ⟨⟨0, 0⟩, fun p => steps_of_uses (proposeTransferTo_uses hr p)⟩
  | doArbitrate p =>
    obtain ⟨q, hq, hleaf⟩ := (leaf_bind _).mp hleaf
    cases leaf_pure.mp hleaf
    exact ⟨⟨0, 0⟩, update_path (R := fun _ => QueueStep _) (steps_of_uses (doArbitrate_uses hq))⟩
  | doXfer p epoch =>
    cases leaf_done.mp hleaf
    exact ⟨epoch, update_path (R := fun _ => QueueStep _) (.single .xfer)⟩

end steps

/-! ### The bounded FIFO -/

section fifo

/-- A constructed queue: nothing but its parameters. -/
def SimQueue.Fresh (q : SimQueue α) : Prop :=
  q = { id := q.id, entryCapacity := q.entryCapacity, byteCapacity := q.byteCapacity
        system := q.system, observationSink := q.observationSink }

variable {α : Type} [PacketTraits α] {q q' : SimQueue α}

/-- The invariant of the bounded FIFO. -/
structure FifoInv (q : SimQueue α) : Prop where
  entries : q.committed.length + q.pushProposals.length ≤ q.entryCapacity
  bytes : 0 < serializedSize α →
    (q.committed.length + q.pushProposals.length) * serializedSize α ≤ q.byteCapacity
  pops : q.popProposalCount ≤ q.committed.length
  order : q.past.handedOut ++ q.committed.drop q.popProposalCount ++ q.pushProposals =
    q.past.accepted
  totals : q.totalPushes = q.totalPops + q.committed.length
  peak : q.committed.length ≤ q.highWatermark
  peak_le : q.highWatermark ≤ q.entryCapacity

variable {element : α} {now : Epoch} {p : Ptr} {h : Heap α}

theorem FifoInv.fresh (h : q.Fresh) : FifoInv q := by
  rw [h]
  exact ⟨Nat.zero_le _, fun _ => by simp, le_refl _, rfl, rfl, le_refl _, Nat.zero_le _⟩

theorem SimQueue.admits_spec (h : q.admits = true) :
    q.committed.length + q.pushProposals.length + 1 ≤ q.entryCapacity ∧
    (0 < serializedSize α → (q.committed.length + q.pushProposals.length + 1) *
      serializedSize α ≤ q.byteCapacity) := by
  rw [admits, Bool.not_eq_true', Bool.or_eq_false_iff, decide_eq_false_iff_not, not_le] at h
  obtain ⟨hentries, hbytes⟩ := h
  have hoccupied : q.occupied = q.committed.length + q.pushProposals.length := Nat.add_comm _ _
  rw [hoccupied] at hentries hbytes
  refine ⟨hentries, fun hsize => ?_⟩
  rw [exceedsByteCapacity, if_neg (by omega), decide_eq_false_iff_not, not_lt] at hbytes
  exact (Nat.le_div_iff_mul_le hsize).mp hbytes

theorem FifoInv.acceptPush (hq : FifoInv q) (element : α) (h : q.admits = true) :
    FifoInv (q.acceptPush element) := by
  obtain ⟨hentries, hbytes⟩ := SimQueue.admits_spec h
  have hlength : q.committed.length + (q.pushProposals ++ [element]).length =
      q.committed.length + q.pushProposals.length + 1 := by
    rw [length_append, length_singleton, Nat.add_assoc]
  refine ⟨hlength ▸ hentries, fun hsize => hlength ▸ hbytes hsize, hq.pops, ?_, hq.totals,
    hq.peak, hq.peak_le⟩
  calc
    q.past.handedOut ++ q.committed.drop q.popProposalCount ++ (q.pushProposals ++ [element])
      = q.past.handedOut ++ q.committed.drop q.popProposalCount ++ q.pushProposals ++
          [element] := by rw [← append_assoc]
    _ = q.past.accepted ++ [element] := by rw [hq.order]

omit [PacketTraits α] in
theorem SimQueue.nextEntry_eq_some (h : q.nextEntry = some element) :
    q.popProposalCount < q.committed.length ∧
      q.committed.drop q.popProposalCount =
        element :: q.committed.drop (q.popProposalCount + 1) := by
  obtain ⟨hlt, hentry⟩ := List.getElem?_eq_some_iff.mp h
  refine ⟨hlt, ?_⟩
  rw [drop_eq_getElem_cons hlt, hentry]

theorem FifoInv.handOut (hq : FifoInv q) (h : q.nextEntry = some element) :
    FifoInv (q.handOut element) := by
  obtain ⟨hlt, hdrop⟩ := SimQueue.nextEntry_eq_some h
  refine ⟨hq.entries, hq.bytes, hlt, ?_, hq.totals, hq.peak, hq.peak_le⟩
  calc
    q.past.handedOut ++ [element] ++ q.committed.drop (q.popProposalCount + 1) ++ q.pushProposals
      = q.past.handedOut ++ q.committed.drop q.popProposalCount ++ q.pushProposals := by
          rw [hdrop, append_assoc q.past.handedOut]
          rfl
    _ = q.past.accepted := hq.order

/-- Pushes are committed behind everything that is left, so no pop is served twice. -/
theorem FifoInv.doXfer (hq : FifoInv q) (epoch : Epoch) : FifoInv (q.doXfer epoch) := by
  have hpops := hq.pops
  have hentries := hq.entries
  have hcommitted : (q.committed ++ q.pushProposals).drop q.popProposalCount =
      q.committed.drop q.popProposalCount ++ q.pushProposals :=
    drop_append_of_le_length hpops
  have hlength : ((q.committed ++ q.pushProposals).drop q.popProposalCount).length =
      q.committed.length + q.pushProposals.length - q.popProposalCount := by
    rw [length_drop, length_append]
  constructor
  · change ((q.committed ++ q.pushProposals).drop q.popProposalCount).length + 0 ≤ _
    rw [hlength]
    exact le_trans (Nat.sub_le _ _) hentries
  · intro hsize
    change (((q.committed ++ q.pushProposals).drop q.popProposalCount).length + 0) * _ ≤ _
    rw [hlength]
    exact le_trans (Nat.mul_le_mul_right _ (Nat.sub_le _ _)) (hq.bytes hsize)
  · exact Nat.zero_le _
  · change q.past.handedOut ++ ((q.committed ++ q.pushProposals).drop q.popProposalCount).drop 0 ++
      [] = q.past.accepted
    rw [drop_zero, append_nil, hcommitted, ← append_assoc]
    exact hq.order
  · change q.totalPushes + q.pushProposals.length = q.totalPops +
      min q.popProposalCount (q.committed ++ q.pushProposals).length +
      ((q.committed ++ q.pushProposals).drop q.popProposalCount).length
    rw [hlength, hq.totals, length_append]
    omega
  · exact le_max_right _ _
  · refine max_le hq.peak_le ?_
    rw [hlength]
    exact le_trans (Nat.sub_le _ _) hentries

theorem FifoInv.use {push pop : Bool} (hq : FifoInv q) (h : QueueUse push pop q q') :
    FifoInv q' := by
  cases h with
  | push element _ hadmits => exact hq.acceptPush element hadmits
  | pop _ hnext => exact hq.handOut hnext
  | code => exact ⟨hq.entries, hq.bytes, hq.pops, hq.order, hq.totals, hq.peak, hq.peak_le⟩

theorem FifoInv.step (hq : FifoInv q) (h : QueueStep now q q') : FifoInv q' := by
  cases h with
  | use h => exact hq.use h
  | xfer => exact hq.doXfer now

theorem FifoInv.steps (hq : FifoInv q) (h : ReflTransGen (QueueStep now) q q') : FifoInv q' := by
  induction h with
  | refl => exact hq
  | tail _ hstep ih => exact ih.step hstep

/-- The heaps that arbitrary operations lead to from one in which the queue at `p` is fresh.
The other queues start in any state, and the system answers as it likes. -/
inductive Operated (p : Ptr) : Heap α → Prop
  | fresh {h : Heap α} (hfresh : (h p).Fresh) : Operated p h
  | perform {h h' : Heap α} (op : QueueOp α) (hrun : Operated p h)
      (hleaf : (op.perform h).Leaf h') : Operated p h'

theorem Operated.fifoInv (hrun : Operated p h) : FifoInv (h p) := by
  induction hrun with
  | fresh hfresh => exact .fresh hfresh
  | perform op _ hleaf ih =>
    obtain ⟨now, hsteps⟩ := QueueOp.perform_steps hleaf
    exact ih.steps (hsteps p)

/-- **A queue is a bounded FIFO.**  Whatever pushes, pops, transfers in either role,
arbitrations and Xfers a fresh queue goes through, it stays within its capacities, hands out no
more than it holds, and the values handed out, the committed entries not yet handed out and the
pending pushes together are the accepted pushes in the order of their acceptance. -/
theorem simQueue_fifo (hrun : Operated p h) :
    (h p).committedSize + (h p).pushProposals.length ≤ (h p).entryCapacity ∧
    (0 < serializedSize α →
      ((h p).committedSize + (h p).pushProposals.length) * serializedSize α ≤
        (h p).byteCapacity) ∧
    (h p).popProposalCount ≤ (h p).committedSize ∧
    (h p).past.handedOut ++ (h p).committed.drop (h p).popProposalCount ++ (h p).pushProposals =
      (h p).past.accepted ∧
    (h p).totalPushes - (h p).totalPops = (h p).committedSize ∧
    (h p).committedSize ≤ (h p).highWatermark ∧
    (h p).highWatermark ≤ (h p).entryCapacity := by
  have hq := hrun.fifoInv
  refine ⟨hq.entries, hq.bytes, hq.pops, hq.order, ?_, hq.peak, hq.peak_le⟩
  rw [hq.totals, Nat.add_sub_cancel_left]
  rfl

end fifo

instance : PacketTraits ℕ := ⟨8⟩

/-- Two unbound queues, the first of capacity 2. -/
def twoQueues : Heap ℕ := fun p => { id := p, entryCapacity := if p = 0 then 2 else 4 }

/-- A push that is transferred to the second queue after its commit. -/
theorem simQueue_fifo_transfer :
    ∃ h : Heap ℕ, Operated 0 h ∧ (h 0).past.handedOut = [7] ∧ (h 1).pushProposals = [7] ∧
      (h 0).popProposalCount ≤ (h 0).committedSize := by
  let h₁ : Heap ℕ := update twoQueues 0 ((twoQueues 0).acceptPush 7)
  let h₂ : Heap ℕ := update h₁ 0 ((h₁ 0).doXfer ⟨0, 0⟩)
  let h₃ : Heap ℕ := update h₂ 1 ((h₂ 1).acceptPush 7)
  let h₄ : Heap ℕ := update h₃ 0 ((h₃ 0).handOut 7)
  have hrun : Operated 0 h₄ :=
    .perform (.proposeTransferTo 0 1) (.perform (.doXfer 0 ⟨0, 0⟩)
      (.perform (.proposePush 0 7) (.fresh (h := twoQueues) rfl) rfl) rfl) rfl
  exact ⟨h₄, hrun, rfl, rfl, (simQueue_fifo hrun).2.2.1⟩

end AgenticCircuit.Gfsim
