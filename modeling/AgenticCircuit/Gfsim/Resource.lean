import AgenticCircuit.Gfsim.Body
import AgenticCircuit.Lib.Word
import Mathlib.Algebra.Order.BigOperators.Group.List

/-! # Resources

`Resource` of `gfsim/resource.h`: a capacity that transactions reserve.  Reservations, releases and
cancellations are proposals; arbitration accepts reservations in the order of a stable key as far as
the capacity goes, and Xfer applies these, then the cancellations, then the releases.

* **Words.**  Capacities and amounts are 32-bit words.  `Resource.wrapped` is a history variable: it
  is set when a sum or a difference of such words does not fit.  The three totals are 64-bit
  counters and wrap as the machine's do.
* **`Conserved`** is the claim of the component about itself (`validate`) with its counters, and
  `ResourceInv` the invariant behind it: what has been accepted fits into what is free, and a
  release takes no more than it finds. -/

namespace AgenticCircuit.Gfsim

open List Nat UInt64 Word Body
open Prod (fst)

structure Reservation where
  ownerId : ObjectId := kInvalidObjectId
  amount : ℕ := 0
  issueTime : Epoch
  readyTime : Epoch
  transactionId : ℕ := 0
  rootTransactionId : ℕ := 0
  priority : ℕ := 0
  portIndex : ℕ := 0
  instanceIndex : ℕ := 0
deriving DecidableEq

open Reservation

/-- The order of `reservationLess`. -/
def Reservation.key (r : Reservation) : ℕ ×ₗ ℕ ×ₗ ℕ ×ₗ ℕ ×ₗ ℕ ×ₗ ℕ :=
  toLex (r.priority, toLex (r.portIndex, toLex (r.instanceIndex, toLex (r.ownerId,
    toLex (r.rootTransactionId, r.transactionId)))))

structure ReleaseProposal where
  ownerId : ObjectId
  amount : ℕ
deriving DecidableEq

structure Resource where
  id : ObjectId
  totalCapacity : ℕ
  observationSink : Bool := false
  /-- The live reservations by transaction, in ascending order. -/
  reservations : List (ℕ × Reservation) := []
  activeCapacity : ℕ := 0
  highWatermark : ℕ := 0
  totalReservations : UInt64 := 0
  totalReleases : UInt64 := 0
  totalCancellations : UInt64 := 0
  proposals : List Reservation := []
  acceptedProposals : List Reservation := []
  rejectedTransactions : List ℕ := []
  proposedRejectedTransactions : List ℕ := []
  releaseProposals : List ReleaseProposal := []
  cancellationProposals : List ℕ := []
  lastUpdate : Epoch := ⟨0, 0⟩
  runtimeFailureCode : String := ""
  wrapped : Bool := false
deriving DecidableEq

open Resource

namespace Resource

variable {e : ℕ × Reservation} {emptied : List ℕ} {r r' : Resource} {reservation : Reservation}

/-- A constructed resource; the capacity is a 32-bit word. -/
def construct (id : ObjectId) (totalCapacity : UInt32) (observationSink : Bool) : Resource :=
  { id := id, totalCapacity := totalCapacity.toNat, observationSink := observationSink }

variable (r : Resource)

/-! ### Proposals -/

def hasReservation (transactionId : ℕ) : Bool := (r.reservations.lookup transactionId).isSome

def isCancellationPending (transactionId : ℕ) : Bool :=
  r.cancellationProposals.contains transactionId

def proposeReserve (request : Reservation) : Bool × Resource :=
  if request.ownerId = kInvalidObjectId || request.amount = 0 ||
      decide (r.totalCapacity < request.amount) || decide (request.readyTime < request.issueTime) ||
      r.hasReservation request.transactionId ||
      r.proposals.any (fun proposal => proposal.transactionId = request.transactionId) then
    (false, r)
  else (true, { r with proposals := r.proposals ++ [request] })

/-- The amounts of an owner that a release may still ask for. -/
def ownedAmounts (owner : ObjectId) : List ℕ :=
  (r.reservations.filter (fun e => e.2.ownerId = owner && !r.isCancellationPending e.1)).map
    (fun e => e.2.amount)

/-- Take an earlier release of the owner off the releasable amount. -/
def takeRelease (owner : ObjectId) (releasable : Word 32) (release : ReleaseProposal) : Word 32 :=
  if release.ownerId ≠ owner then releasable
  else if releasable.val < release.amount then { releasable with val := 0 }
  else releasable.sub release.amount

def proposeRelease (owner : ObjectId) (amount : ℕ) : Bool × Resource :=
  if amount = 0 then (false, r)
  else
    let releasable : Word 32 := r.releaseProposals.foldl (takeRelease owner)
      (Word.addAll ⟨0, r.wrapped⟩ (r.ownedAmounts owner))
    let r := { r with wrapped := releasable.wrapped }
    if releasable.val < amount then (false, r)
    else (true, { r with releaseProposals := r.releaseProposals ++ [⟨owner, amount⟩] })

def proposeCancel (owner : ObjectId) (transactionId : ℕ) : Bool × Resource :=
  match r.reservations.lookup transactionId with
  | none => (false, r)
  | some reservation =>
    if reservation.ownerId ≠ owner || r.isCancellationPending transactionId then (false, r)
    else (true, { r with cancellationProposals := r.cancellationProposals ++ [transactionId] })

/-! ### Arbitration -/

def availableCapacity : Word 32 := Word.sub ⟨r.totalCapacity, r.wrapped⟩ r.activeCapacity

/-- The arbitration loop: the accepted and the rejected proposals and what remains. -/
def arbitrate : List Reservation → Word 32 → List Reservation × List Reservation × Word 32
  | [], remaining => ([], [], remaining)
  | proposal :: rest, remaining =>
    if proposal.amount ≤ remaining.val then
      let result := arbitrate rest (remaining.sub proposal.amount)
      (proposal :: result.1, result.2)
    else
      let result := arbitrate rest remaining
      (result.1, proposal :: result.2.1, result.2.2)

/-- The state `doArbitrate` leaves, up to the failure code of its observations. -/
def arbitrated : Resource :=
  let sorted := insertAll key [] r.proposals
  let result := arbitrate sorted r.availableCapacity
  { r with
    proposals := sorted
    acceptedProposals := result.1
    proposedRejectedTransactions := result.2.1.map transactionId
    wrapped := result.2.2.wrapped }

/-- `presentationTime`; `none` when the time does not fit into 64 bits. -/
def presentationTime (epoch : Epoch) : Option ℕ :=
  if (uint64Max - epoch.delta) / kMaxDeltasPerTick < epoch.time then none
  else some (epoch.time * kMaxDeltasPerTick + epoch.delta)

/-- `SimObject::emitObservation`. -/
def emitObservation (proposal : EventProposal) : Body Resource :=
  if !r.observationSink then .done r
  else .proposeObservation { proposal with ownerId := r.id } fun ok =>
    .done (if ok then r else { r with runtimeFailureCode := "observation_proposal_failed" })

def observationArguments (reservation : Reservation) : List ObservationArgument :=
  [⟨"amount", .unsigned reservation.amount⟩, ⟨"child_owner_id", .unsigned reservation.ownerId⟩,
    ⟨"transaction_id", .unsigned reservation.transactionId⟩]

def observeAccepted (r : Resource) (reservation : Reservation) : Body Resource :=
  match presentationTime reservation.issueTime, presentationTime reservation.readyTime with
  | some start, some stop =>
    r.emitObservation
      { category := "resource", name := "reservation", phase := .complete
        rootSequenceId := some reservation.rootTransactionId, duration := some (stop - start)
        arguments := observationArguments reservation }
  | _, _ => .done { r with runtimeFailureCode := "observation_time_overflow" }

def observeRejected (r : Resource) (reservation : Reservation) : Body Resource :=
  if !r.proposedRejectedTransactions.contains reservation.transactionId then .done r
  else r.emitObservation
    { category := "stall", name := "capacity"
      rootSequenceId := some reservation.rootTransactionId
      arguments := observationArguments reservation }

/-- Observe the reservations of a list. -/
def observeAll (observe : Resource → Reservation → Body Resource) :
    List Reservation → Resource → Body Resource
  | [], r => .done r
  | reservation :: rest, r => do observeAll observe rest (← observe r reservation)

def doArbitrate : Body Resource := do
  let r := r.arbitrated
  let r ← observeAll observeAccepted r.acceptedProposals r
  observeAll observeRejected r.proposals r

/-! ### Xfer -/

/-- `activeCapacity_ += amount`. -/
def gain (amount : ℕ) : Resource :=
  let active := (⟨r.activeCapacity, r.wrapped⟩ : Word 32).add amount
  { r with activeCapacity := active.val, wrapped := active.wrapped }

/-- `activeCapacity_ -= amount`. -/
def lose (amount : ℕ) : Resource :=
  let active := (⟨r.activeCapacity, r.wrapped⟩ : Word 32).sub amount
  { r with activeCapacity := active.val, wrapped := active.wrapped }

/-- `reservations_.emplace`: an existing entry stays. -/
def emplace (reservation : Reservation) : Resource :=
  if r.hasReservation reservation.transactionId then r
  else
    { r with
      reservations := insertKey Prod.fst (reservation.transactionId, reservation) r.reservations }

def applyAccepted (r : Resource) (reservation : Reservation) : Resource :=
  let r := (r.emplace reservation).gain reservation.amount
  { r with totalReservations := r.totalReservations + UInt64.ofNat reservation.amount }

def erase (transactionId : ℕ) : Resource :=
  { r with reservations := r.reservations.filter (fun e => e.1 ≠ transactionId) }

def applyCancellation (r : Resource) (transactionId : ℕ) : Resource :=
  match r.reservations.lookup transactionId with
  | none => r
  | some reservation =>
    let r := (r.lose reservation.amount).erase transactionId
    { r with
      totalCancellations := r.totalCancellations + UInt64.ofNat reservation.amount }

/-- `reservation->amount = left` for the entry under `key`. -/
def setAmount (key left : ℕ) : Resource :=
  { r with reservations :=
    r.reservations.map (fun e => if e.1 = key then (e.1, { e.2 with amount := left }) else e) }

/-- `reservation->amount -= released`. -/
def leftAmount (e : ℕ × Reservation) (released : ℕ) : Word 32 :=
  (⟨e.2.amount, r.wrapped⟩ : Word 32).sub released

/-- One round of the loop of `applyRelease`. -/
def releaseFrom (e : ℕ × Reservation) (released : ℕ) : Resource :=
  let left := r.leftAmount e released
  let r := { r.setAmount e.1 left.val with wrapped := left.wrapped }.lose released
  { r with totalReleases := r.totalReleases + UInt64.ofNat released }

/-- The loop of `applyRelease` over the entries of the owner, and the emptied transactions. -/
def releaseLoop : List (ℕ × Reservation) → ℕ → Resource → Resource × List ℕ
  | [], _, r => (r, [])
  | e :: rest, remaining, r =>
    let released := min remaining e.2.amount
    let emptied := if (r.leftAmount e released).val = 0 then [e.2.transactionId] else []
    let r := r.releaseFrom e released
    let remaining := (⟨remaining, r.wrapped⟩ : Word 32).sub released
    let r := { r with wrapped := remaining.wrapped }
    if remaining.val = 0 then (r, emptied)
    else
      let result := releaseLoop rest remaining.val r
      (result.1, emptied ++ result.2)

def applyRelease (r : Resource) (release : ReleaseProposal) : Resource :=
  let owned := insertAll (fun e : ℕ × Reservation => e.2.key) []
    (r.reservations.filter (fun e => e.2.ownerId = release.ownerId))
  let result := releaseLoop owned release.amount r
  result.2.foldl erase result.1

/-- The reservations, cancellations and releases of an Xfer. -/
def applied : Resource :=
  let accepted := r.acceptedProposals.foldl applyAccepted r
  let cancelled := r.cancellationProposals.foldl applyCancellation accepted
  r.releaseProposals.foldl applyRelease cancelled

/-- Reservations that have not been arbitrated are not counted. -/
def hasPendingCommit : Bool :=
  !r.acceptedProposals.isEmpty || !r.releaseProposals.isEmpty ||
    !r.cancellationProposals.isEmpty || !r.proposedRejectedTransactions.isEmpty

def doXfer (epoch : Epoch) : Resource :=
  let applied := r.applied
  { applied with
    rejectedTransactions := r.proposedRejectedTransactions
    proposals := []
    acceptedProposals := []
    releaseProposals := []
    cancellationProposals := []
    proposedRejectedTransactions := []
    highWatermark := max applied.highWatermark applied.activeCapacity
    lastUpdate := if r.hasPendingCommit then epoch else applied.lastUpdate }

def reset : Resource :=
  { id := r.id, totalCapacity := r.totalCapacity, observationSink := r.observationSink
    wrapped := r.wrapped }

/-- `Resource::validate`. -/
def validate : Bool :=
  r.reservations.all (fun e => e.1 = e.2.transactionId && e.2.ownerId != kInvalidObjectId &&
    e.2.amount != 0 && !decide (e.2.readyTime < e.2.issueTime)) &&
  (r.reservations.map (fun e => e.2.amount)).sum = r.activeCapacity &&
  decide ((r.reservations.map (fun e => e.2.amount)).sum ≤ r.totalCapacity)

/-! ### The ledger -/

/-- The sum of the live amounts. -/
def live : ℕ := (r.reservations.map (fun e => e.2.amount)).sum

/-- What `validate` asks of a reservation besides its amount. -/
def Sound (reservation : Reservation) : Prop :=
  reservation.ownerId ≠ kInvalidObjectId ∧ ¬ reservation.readyTime < reservation.issueTime

/-- The reservations and counters are consistent; `emptied` are the transactions whose amount is
used up but which have not been erased. -/
structure Ledger (r : Resource) (emptied : List ℕ) : Prop where
  keys : ∀ e ∈ r.reservations, e.1 = e.2.transactionId
  nodup : (r.reservations.map Prod.fst).Nodup
  sound : ∀ e ∈ r.reservations, Sound e.2
  zero : ∀ e ∈ r.reservations, e.2.amount = 0 ↔ e.1 ∈ emptied
  sum : r.live = r.activeCapacity
  capacity : r.activeCapacity ≤ r.totalCapacity
  word : r.totalCapacity < 2 ^ 32
  high : r.highWatermark ≤ r.totalCapacity
  unwrapped : r.wrapped = false
  counters : r.totalReservations =
    r.totalReleases + r.totalCancellations + UInt64.ofNat r.activeCapacity

variable {r}

variable {amount remaining : ℕ} {l : List Reservation}

theorem gain_eq (h : r.activeCapacity + amount < 2 ^ 32) :
    r.gain amount = { r with activeCapacity := r.activeCapacity + amount } := by
  rw [gain, add_eq h]

theorem lose_eq (hle : amount ≤ r.activeCapacity) (hlt : r.activeCapacity < 2 ^ 32) :
    r.lose amount = { r with activeCapacity := r.activeCapacity - amount } := by
  rw [lose, sub_eq hle hlt]

theorem amount_le_live (he : e ∈ r.reservations) : e.2.amount ≤ r.live :=
  single_le_sum (fun _ _ => zero_le _) _ (mem_map.mpr ⟨e, he, rfl⟩)

theorem ofNat_sub_add {a b : ℕ} (h : b ≤ a) : ofNat (a - b) + ofNat b = ofNat a := by
  rw [← ofNat_add, Nat.sub_add_cancel h]

/-- An accepted reservation of a new transaction that fits. -/
theorem applyAccepted_eq (hfresh : ∀ e ∈ r.reservations, e.1 ≠ reservation.transactionId)
    (hfits : r.activeCapacity + reservation.amount < 2 ^ 32) :
    r.applyAccepted reservation = { r with
      reservations := insertKey fst (reservation.transactionId, reservation) r.reservations
      activeCapacity := r.activeCapacity + reservation.amount
      totalReservations := r.totalReservations + ofNat reservation.amount } := by
  have hnone : r.hasReservation reservation.transactionId = false := by
    rw [hasReservation, Option.isSome_eq_false_iff, Option.isNone_iff_eq_none, lookup_eq_none_iff]
    intro e he
    simpa using (hfresh e he).symm
  rw [applyAccepted, emplace, hnone, if_neg Bool.false_ne_true, gain_eq]
  exact hfits

theorem Ledger.applyAccepted (h : Ledger r [])
    (hsound : Sound reservation) (hpos : 0 < reservation.amount)
    (hfresh : ∀ e ∈ r.reservations, e.1 ≠ reservation.transactionId)
    (hfits : r.activeCapacity + reservation.amount ≤ r.totalCapacity) :
    Ledger (r.applyAccepted reservation) [] := by
  have hword := h.word
  rw [applyAccepted_eq hfresh (by omega)]
  have hperm := insertKey_perm fst (reservation.transactionId, reservation) r.reservations
  have hmem {e : ℕ × Reservation} (he : e ∈ insertKey fst
      (reservation.transactionId, reservation) r.reservations) :
      e = (reservation.transactionId, reservation) ∨ e ∈ r.reservations :=
    (mem_insertKey fst).mp he
  refine ⟨fun e he => ?_, ?_, fun e he => ?_, fun e he => ?_, ?_, hfits, hword, h.high, h.unwrapped,
    ?_⟩
  · rcases hmem he with rfl | he
    · rfl
    · exact h.keys e he
  · refine (hperm.map fst).nodup_iff.mpr (nodup_cons.mpr ⟨?_, h.nodup⟩)
    intro hin
    obtain ⟨e, he, hkey⟩ := mem_map.mp hin
    exact hfresh e he hkey
  · rcases hmem he with rfl | he
    · exact hsound
    · exact h.sound e he
  · rcases hmem he with rfl | he
    · exact ⟨fun hzero => absurd hzero (ne_of_gt hpos), nofun⟩
    · exact h.zero e he
  · show ((insertKey fst _ r.reservations).map (fun e => e.2.amount)).sum = _
    rw [(hperm.map _).sum_eq, map_cons, sum_cons, add_comm, ← h.sum]
    rfl
  · show r.totalReservations + ofNat reservation.amount =
      r.totalReleases + r.totalCancellations + ofNat (r.activeCapacity + reservation.amount)
    rw [h.counters, ofNat_add, UInt64.add_assoc]

theorem Ledger.applyCancellation (h : Ledger r []) (transactionId : ℕ) :
    Ledger (r.applyCancellation transactionId) [] := by
  unfold Resource.applyCancellation
  split
  · exact h
  rename_i reservation hlookup
  have he := mem_of_lookup hlookup
  have hle : reservation.amount ≤ r.activeCapacity := h.sum ▸ amount_le_live he
  have hcapacity := h.capacity
  have hword := h.word
  rw [lose_eq hle (by omega)]
  have hmem {e : ℕ × Reservation}
      (he : e ∈ r.reservations.filter (fun e => e.1 ≠ transactionId)) : e ∈ r.reservations :=
    mem_of_mem_filter he
  refine ⟨fun e he => h.keys e (hmem he), ?_, fun e he => h.sound e (hmem he),
    fun e he => h.zero e (hmem he), ?_, ?_, hword, h.high, h.unwrapped, ?_⟩
  · exact (filter_sublist.map fst).nodup h.nodup
  · have hsum := sum_map_erase Reservation.amount h.nodup he
    have hlive : r.live = r.activeCapacity := h.sum
    rw [live] at hlive
    show ((r.reservations.filter _).map _).sum = r.activeCapacity - reservation.amount
    omega
  · show r.activeCapacity - reservation.amount ≤ r.totalCapacity
    omega
  · show r.totalReservations = r.totalReleases +
      (r.totalCancellations + ofNat reservation.amount) +
      ofNat (r.activeCapacity - reservation.amount)
    rw [h.counters, ← ofNat_sub_add hle, UInt64.add_comm (ofNat (_ - _))]
    simp only [UInt64.add_assoc]

/-! ### Releases -/

theorem live_setAmount (hnodup : (r.reservations.map fst).Nodup)
    (he : e ∈ r.reservations) (left : ℕ) :
    (r.setAmount e.1 left).live + e.2.amount = r.live + left :=
  sum_map_update Reservation.amount (fun x => { x with amount := left }) hnodup he

/-- One round takes `released` from an entry, which is emptied if nothing is left. -/
theorem Ledger.releaseFrom {released : ℕ}
    (h : Ledger r emptied) (he : e ∈ r.reservations) (hnew : e.1 ∉ emptied)
    (hle : released ≤ e.2.amount) : (r.leftAmount e released).val = e.2.amount - released ∧
    (r.releaseFrom e released).reservations =
      (r.setAmount e.1 (e.2.amount - released)).reservations ∧
    Ledger (r.releaseFrom e released)
      (emptied ++ if e.2.amount - released = 0 then [e.2.transactionId] else []) := by
  have hamount := amount_le_live he
  have hsum := h.sum
  have hcapacity := h.capacity
  have hword := h.word
  have hleft : r.leftAmount e released = ⟨e.2.amount - released, r.wrapped⟩ :=
    sub_eq hle (by show e.2.amount < 2 ^ 32; omega)
  have heq : r.releaseFrom e released = { r with
      reservations := (r.setAmount e.1 (e.2.amount - released)).reservations
      activeCapacity := r.activeCapacity - released
      totalReleases := r.totalReleases + ofNat released } := by
    rw [Resource.releaseFrom, hleft, lose_eq]
    · rfl
    · show released ≤ r.activeCapacity
      omega
    · show r.activeCapacity < 2 ^ 32
      omega
  have hkey := h.keys e he
  rw [hleft, heq]
  refine ⟨rfl, rfl, ?_, ?_, ?_, ?_, ?_, ?_, hword, h.high, h.unwrapped, ?_⟩
  · intro x hx
    obtain ⟨y, hy, rfl⟩ := mem_map.mp hx
    split
    · exact h.keys y hy
    · exact h.keys y hy
  · show ((r.reservations.map _).map fst).Nodup
    rw [map_map]
    refine (map_congr_left fun x _ => ?_) ▸ h.nodup
    dsimp only [Function.comp]
    split <;> rfl
  · intro x hx
    obtain ⟨y, hy, rfl⟩ := mem_map.mp hx
    split
    · exact h.sound y hy
    · exact h.sound y hy
  · intro x hx
    obtain ⟨y, hy, rfl⟩ := mem_map.mp hx
    split
    · rename_i hyk
      rw [hyk, mem_append]
      split
      · rename_i hzero
        simp [hzero, hkey]
      · rename_i hzero
        simp [hzero, hnew]
    · rename_i hyk
      rw [h.zero y hy, mem_append]
      split
      · rw [mem_singleton, ← hkey]
        exact ⟨Or.inl, fun hin => hin.resolve_right hyk⟩
      · simp
  · have hupdate := live_setAmount h.nodup he (e.2.amount - released)
    show (r.setAmount e.1 (e.2.amount - released)).live = r.activeCapacity - released
    omega
  · show r.activeCapacity - released ≤ r.totalCapacity
    omega
  · show r.totalReservations = r.totalReleases + ofNat released + r.totalCancellations +
      ofNat (r.activeCapacity - released)
    have hactive : ofNat (r.activeCapacity - released) + ofNat released =
        ofNat r.activeCapacity := ofNat_sub_add (by omega)
    rw [h.counters, ← hactive]
    ac_rfl

theorem mem_setAmount_of_ne {x : ℕ × Reservation} {key left : ℕ} (hx : x ∈ r.reservations)
    (hne : x.1 ≠ key) : x ∈ (r.setAmount key left).reservations :=
  mem_map.mpr ⟨x, hx, if_neg hne⟩

theorem Ledger.releaseLoop_cons {rest : List (ℕ × Reservation)} (h : Ledger r emptied)
    (hremaining : remaining < 2 ^ 32) (he : e ∈ r.reservations) (hnew : e.1 ∉ emptied) :
    releaseLoop (e :: rest) remaining r = let round := r.releaseFrom e (min remaining e.2.amount)
      let used := if e.2.amount - min remaining e.2.amount = 0 then [e.2.transactionId] else []
      if remaining - min remaining e.2.amount = 0 then (round, used)
      else
        let result := releaseLoop rest (remaining - min remaining e.2.amount) round
        (result.1, used ++ result.2) := by
  obtain ⟨hleft, -, hledger⟩ := h.releaseFrom he hnew (min_le_right remaining e.2.amount)
  have hsub : (⟨remaining, (r.releaseFrom e (min remaining e.2.amount)).wrapped⟩ :
      Word 32).sub (min remaining e.2.amount) =
      ⟨remaining - min remaining e.2.amount, false⟩ := by
    rw [hledger.unwrapped]
    exact sub_eq (min_le_left ..) hremaining
  have hsame : { r.releaseFrom e (min remaining e.2.amount) with wrapped := false } =
      r.releaseFrom e (min remaining e.2.amount) := by
    rw [← hledger.unwrapped]
  rw [releaseLoop]
  rw [hleft, hsub, hsame]

/-- The loop over distinct entries of the owner. -/
theorem Ledger.releaseLoop {owned : List (ℕ × Reservation)} (h : Ledger r emptied)
    (hremaining : remaining < 2 ^ 32) (hmem : ∀ e ∈ owned, e ∈ r.reservations ∧ e.1 ∉ emptied)
    (hnodup : (owned.map fst).Nodup) : Ledger (releaseLoop owned remaining r).1
      (emptied ++ (releaseLoop owned remaining r).2) := by
  induction owned generalizing r remaining emptied with
  | nil =>
    rw [releaseLoop, List.append_nil]
    exact h
  | cons e rest ih =>
    obtain ⟨he, hnew⟩ := hmem e mem_cons_self
    rw [map_cons, nodup_cons] at hnodup
    obtain ⟨-, hreservations, hledger⟩ :=
      h.releaseFrom he hnew (min_le_right remaining e.2.amount)
    rw [h.releaseLoop_cons hremaining he hnew]
    dsimp only
    split
    · exact hledger
    rw [← List.append_assoc]
    refine ih hledger (by omega) (fun x hx => ?_) hnodup.2
    obtain ⟨hxr, hxe⟩ := hmem x (mem_cons_of_mem e hx)
    have hne : x.1 ≠ e.1 := by
      intro heq
      exact hnodup.1 (mem_map.mpr ⟨x, hx, heq⟩)
    refine ⟨hreservations ▸ mem_setAmount_of_ne hxr hne, ?_⟩
    rw [mem_append]
    rintro (hin | hin)
    · exact hxe hin
    · split at hin
      · rw [mem_singleton, ← h.keys e he] at hin
        exact hne hin
      · cases hin

theorem Ledger.eraseAll (h : Ledger r emptied) : Ledger (emptied.foldl Resource.erase r) [] := by
  induction emptied generalizing r with
  | nil => exact h
  | cons k emptied ih =>
    refine ih ?_
    have hmem {e : ℕ × Reservation} (he : e ∈ (r.erase k).reservations) :
        e ∈ r.reservations ∧ e.1 ≠ k := by
      obtain ⟨he, hk⟩ := mem_filter.mp he
      exact ⟨he, of_decide_eq_true hk⟩
    refine ⟨fun e he => h.keys e (hmem he).1, ?_, fun e he => h.sound e (hmem he).1,
      fun e he => ?_, ?_, h.capacity, h.word, h.high, h.unwrapped, h.counters⟩
    · exact (filter_sublist.map fst).nodup h.nodup
    · rw [h.zero e (hmem he).1, mem_cons]
      exact ⟨fun hin => hin.resolve_left (hmem he).2, Or.inr⟩
    · show (r.erase k).live = r.activeCapacity
      rw [← h.sum]
      by_cases hk : k ∈ r.reservations.map fst
      · obtain ⟨⟨_, v⟩, he, rfl⟩ := mem_map.mp hk
        have hzero : v.amount = 0 := (h.zero _ he).mpr mem_cons_self
        have hsum := sum_map_erase Reservation.amount h.nodup he
        rw [hzero] at hsum
        exact hsum
      · have hall : r.reservations.filter (fun e => e.1 ≠ k) = r.reservations := by
          refine filter_eq_self.mpr fun e he => decide_eq_true ?_
          rintro rfl
          exact hk (mem_map.mpr ⟨e, he, rfl⟩)
        rw [Resource.erase, hall]

theorem Ledger.applyRelease (h : Ledger r []) {release : ReleaseProposal}
    (hamount : release.amount < 2 ^ 32) : Ledger (r.applyRelease release) [] := by
  have hperm := insertAll_perm (fun e : ℕ × Reservation => e.2.key) []
    (r.reservations.filter (fun e => e.2.ownerId = release.ownerId))
  rw [nil_append] at hperm
  refine Ledger.eraseAll (h.releaseLoop hamount (fun e he => ?_) ?_)
  · exact ⟨mem_of_mem_filter (hperm.mem_iff.mp he), not_mem_nil⟩
  · exact (hperm.map fst).nodup_iff.mpr ((filter_sublist.map fst).nodup h.nodup)

/-! ### The invariant -/

structure ResourceInv (r : Resource) : Prop where
  ledger : Ledger r []
  proposals : ∀ p ∈ r.proposals, Sound p ∧ 0 < p.amount ∧
    ∀ e ∈ r.reservations, e.1 ≠ p.transactionId
  nodup : (r.proposals.map transactionId).Nodup
  accepted : ∀ p ∈ r.acceptedProposals, p ∈ r.proposals
  acceptedNodup : (r.acceptedProposals.map transactionId).Nodup
  fits : r.activeCapacity + (r.acceptedProposals.map Reservation.amount).sum ≤ r.totalCapacity
  releases : ∀ p ∈ r.releaseProposals, p.amount < 2 ^ 32

/-- The accepted proposals are some of the proposals and fill what is no longer free. -/
theorem arbitrate_spec {remaining : Word 32} (hword : remaining.val < 2 ^ 32) :
    (arbitrate l remaining).1.Sublist l ∧
    ((arbitrate l remaining).1.map Reservation.amount).sum + (arbitrate l remaining).2.2.val =
      remaining.val ∧
    (arbitrate l remaining).2.2.wrapped = remaining.wrapped := by
  induction l generalizing remaining with
  | nil => exact ⟨.slnil, zero_add _, rfl⟩
  | cons p l ih =>
    unfold arbitrate
    split
    · rename_i hle
      rw [sub_eq hle hword]
      obtain ⟨hsub, hsum, hwrapped⟩ := @ih ⟨remaining.val - p.amount, remaining.wrapped⟩
        (by show remaining.val - p.amount < 2 ^ 32; omega)
      refine ⟨hsub.cons_cons p, ?_, hwrapped⟩
      dsimp only at hsum ⊢
      rw [map_cons, sum_cons]
      omega
    · obtain ⟨hsub, hsum, hwrapped⟩ := ih hword
      exact ⟨hsub.cons p, hsum, hwrapped⟩

theorem ResourceInv.arbitrated (h : ResourceInv r) : ResourceInv r.arbitrated := by
  have hledger := h.ledger
  have hcapacity := hledger.capacity
  have hword := hledger.word
  have havailable : r.availableCapacity = ⟨r.totalCapacity - r.activeCapacity, r.wrapped⟩ :=
    sub_eq hcapacity hword
  have hlt : r.availableCapacity.val < 2 ^ 32 := by
    rw [havailable]
    show r.totalCapacity - r.activeCapacity < 2 ^ 32
    omega
  obtain ⟨hsub, hsum, hwrapped⟩ :=
    arbitrate_spec (l := insertAll key [] r.proposals) hlt
  rw [havailable] at hsum hwrapped
  have hperm := insertAll_perm key [] r.proposals
  rw [nil_append] at hperm
  have hunwrapped : r.arbitrated.wrapped = false := by
    show (arbitrate _ r.availableCapacity).2.2.wrapped = false
    rw [havailable, hwrapped]
    exact hledger.unwrapped
  refine ⟨⟨hledger.keys, hledger.nodup, hledger.sound, hledger.zero, hledger.sum, hcapacity, hword,
    hledger.high, hunwrapped, hledger.counters⟩, fun p hp => h.proposals p (hperm.mem_iff.mp hp), ?_,
    fun p hp => hsub.subset hp, ?_, ?_, h.releases⟩
  · exact (hperm.map _).nodup_iff.mpr h.nodup
  · exact (hsub.map _).nodup ((hperm.map _).nodup_iff.mpr h.nodup)
  · show r.activeCapacity + ((arbitrate _ r.availableCapacity).1.map _).sum ≤ r.totalCapacity
    rw [havailable]
    dsimp only at hsum
    omega

theorem observeAll_leaf {observe : Resource → Reservation → Body Resource}
    (hobserve : ∀ r reservation r', (observe r reservation).Leaf r' → ∃ code, r' =
      { r with runtimeFailureCode := code }) (hleaf : (observeAll observe l r).Leaf r') :
    ∃ code, r' = { r with runtimeFailureCode := code } := by
  induction l generalizing r with
  | nil => exact ⟨r.runtimeFailureCode, (leaf_done.mp hleaf).symm⟩
  | cons reservation l ih =>
    obtain ⟨u, hu, hleaf⟩ := (leaf_bind _).mp hleaf
    obtain ⟨code, rfl⟩ := hobserve r reservation u hu
    obtain ⟨code', rfl⟩ := ih hleaf
    exact ⟨code', rfl⟩

theorem emitObservation_leaf {proposal : EventProposal}
    (hleaf : (r.emitObservation proposal).Leaf r') :
    ∃ code, r' = { r with runtimeFailureCode := code } := by
  unfold emitObservation at hleaf
  split at hleaf
  · exact ⟨r.runtimeFailureCode, (leaf_done.mp hleaf).symm⟩
  · obtain ⟨ok, hleaf⟩ := hleaf
    cases ok with
    | true => exact ⟨r.runtimeFailureCode, (leaf_done.mp hleaf).symm⟩
    | false => exact ⟨_, (leaf_done.mp hleaf).symm⟩

theorem observeAccepted_leaf (hleaf : (r.observeAccepted reservation).Leaf r') :
    ∃ code, r' = { r with runtimeFailureCode := code } := by
  unfold observeAccepted at hleaf
  split at hleaf
  · exact emitObservation_leaf hleaf
  · exact ⟨_, (leaf_done.mp hleaf).symm⟩

theorem observeRejected_leaf (hleaf : (r.observeRejected reservation).Leaf r') :
    ∃ code, r' = { r with runtimeFailureCode := code } := by
  unfold observeRejected at hleaf
  split at hleaf
  · exact ⟨r.runtimeFailureCode, (leaf_done.mp hleaf).symm⟩
  · exact emitObservation_leaf hleaf

theorem ResourceInv.setRuntimeFailureCode (h : ResourceInv r) (code : String) :
    ResourceInv { r with runtimeFailureCode := code } := by
  have hl := h.ledger
  exact ⟨⟨hl.keys, hl.nodup, hl.sound, hl.zero, hl.sum, hl.capacity, hl.word, hl.high, hl.unwrapped,
    hl.counters⟩, h.proposals, h.nodup, h.accepted, h.acceptedNodup, h.fits, h.releases⟩

theorem ResourceInv.doArbitrate (h : ResourceInv r)
    (hleaf : r.doArbitrate.Leaf r') : ResourceInv r' := by
  obtain ⟨u, hu, hleaf⟩ := (leaf_bind _).mp hleaf
  obtain ⟨code, rfl⟩ := observeAll_leaf (fun _ _ _ => observeAccepted_leaf) hu
  obtain ⟨code', rfl⟩ := observeAll_leaf (fun _ _ _ => observeRejected_leaf) hleaf
  exact (h.arbitrated.setRuntimeFailureCode code).setRuntimeFailureCode code'

/-! ### Proposals keep the invariant -/

theorem ResourceInv.proposeReserve (h : ResourceInv r) (request : Reservation) :
    ResourceInv (r.proposeReserve request).2 := by
  unfold Resource.proposeReserve
  split
  · exact h
  rename_i hadmit
  simp only [Bool.or_eq_true, decide_eq_true_eq, not_or, any_eq_true, not_exists, not_and] at hadmit
  obtain ⟨⟨⟨⟨⟨howner, hamount⟩, _⟩, htime⟩, hfresh⟩, hnew⟩ := hadmit
  rw [hasReservation, Bool.not_eq_true, Option.isSome_eq_false_iff, Option.isNone_iff_eq_none,
    lookup_eq_none_iff] at hfresh
  have hl := h.ledger
  refine ⟨⟨hl.keys, hl.nodup, hl.sound, hl.zero, hl.sum, hl.capacity, hl.word, hl.high, hl.unwrapped,
    hl.counters⟩, fun p hp => ?_, ?_, fun p hp => mem_append_left _ (h.accepted p hp),
    h.acceptedNodup, h.fits, h.releases⟩
  · rcases mem_append.mp hp with hp | hp
    · exact h.proposals p hp
    · rw [mem_singleton.mp hp]
      refine ⟨⟨howner, htime⟩, pos_of_ne_zero hamount, fun e he heq => ?_⟩
      have hne := hfresh e he
      simp [heq] at hne
  · show ((r.proposals ++ [request]).map transactionId).Nodup
    rw [map_append, map_singleton]
    refine nodup_append.mpr ⟨h.nodup, pairwise_singleton _ _, fun a ha b hb => ?_⟩
    obtain ⟨p, hp, rfl⟩ := mem_map.mp ha
    rw [mem_singleton.mp hb]
    exact hnew p hp

theorem takeReleases_spec {owner : ObjectId} {l : List ReleaseProposal} {releasable : Word 32}
    (hword : releasable.val < 2 ^ 32) :
    (l.foldl (takeRelease owner) releasable).val ≤ releasable.val ∧
    (l.foldl (takeRelease owner) releasable).wrapped = releasable.wrapped := by
  induction l generalizing releasable with
  | nil => exact ⟨le_rfl, rfl⟩
  | cons release l ih =>
    have hone : (takeRelease owner releasable release).val ≤ releasable.val ∧
        (takeRelease owner releasable release).wrapped = releasable.wrapped := by
      unfold takeRelease
      split
      · exact ⟨le_rfl, rfl⟩
      split
      · exact ⟨zero_le _, rfl⟩
      · rename_i hle
        rw [sub_eq (not_lt.mp hle) hword]
        exact ⟨sub_le _ _, rfl⟩
    obtain ⟨hval, hwrapped⟩ := ih (lt_of_le_of_lt hone.1 hword)
    exact ⟨le_trans hval hone.1, hwrapped.trans hone.2⟩

theorem ResourceInv.proposeRelease (h : ResourceInv r) (owner : ObjectId) (amount : ℕ) :
    ResourceInv (r.proposeRelease owner amount).2 := by
  have hl := h.ledger
  have hcapacity := hl.capacity
  have hword := hl.word
  have howned : (r.ownedAmounts owner).sum ≤ r.live :=
    (filter_sublist.map _).sum_le_sum fun _ _ => zero_le _
  have hsum := hl.sum
  have hadd : addAll (⟨0, r.wrapped⟩ : Word 32) (r.ownedAmounts owner) =
      ⟨0 + (r.ownedAmounts owner).sum, r.wrapped⟩ :=
    addAll_eq (by show 0 + (r.ownedAmounts owner).sum < 2 ^ 32; omega)
  have hlt : (⟨0 + (r.ownedAmounts owner).sum, r.wrapped⟩ : Word 32).val < 2 ^ 32 := by
    show 0 + (r.ownedAmounts owner).sum < 2 ^ 32
    omega
  obtain ⟨hval, hwrapped⟩ := @takeReleases_spec owner r.releaseProposals _ hlt
  have hsame : ResourceInv { r with wrapped := false } := by
    rw [← hl.unwrapped]
    exact h
  unfold Resource.proposeRelease
  split
  · exact h
  dsimp only
  rw [hadd, hwrapped, hl.unwrapped]
  split
  · exact hsame
  · rename_i hle
    have hs := hsame.ledger
    refine ⟨⟨hs.keys, hs.nodup, hs.sound, hs.zero, hs.sum, hs.capacity, hs.word, hs.high,
      hs.unwrapped, hs.counters⟩, h.proposals, h.nodup, h.accepted, h.acceptedNodup, h.fits,
      fun p hp => ?_⟩
    rcases mem_append.mp hp with hp | hp
    · exact h.releases p hp
    · rw [mem_singleton.mp hp]
      show amount < 2 ^ 32
      rw [hl.unwrapped] at hval
      dsimp only at hval
      omega

theorem ResourceInv.proposeCancel (h : ResourceInv r) (owner : ObjectId) (transactionId : ℕ) :
    ResourceInv (r.proposeCancel owner transactionId).2 := by
  unfold Resource.proposeCancel
  split
  · exact h
  split
  · exact h
  · have hl := h.ledger
    exact ⟨⟨hl.keys, hl.nodup, hl.sound, hl.zero, hl.sum, hl.capacity, hl.word, hl.high,
      hl.unwrapped, hl.counters⟩, h.proposals, h.nodup, h.accepted, h.acceptedNodup, h.fits,
      h.releases⟩

/-! ### Xfer keeps the invariant -/

/-- Reservations that can be entered one after the other. -/
structure Enters (r : Resource) (l : List Reservation) : Prop where
  proposals : ∀ p ∈ l, Sound p ∧ 0 < p.amount ∧ ∀ e ∈ r.reservations, e.1 ≠ p.transactionId
  nodup : (l.map transactionId).Nodup
  fits : r.activeCapacity + (l.map Reservation.amount).sum ≤ r.totalCapacity

theorem ResourceInv.enters (h : ResourceInv r) : Enters r r.acceptedProposals :=
  ⟨fun p hp => h.proposals p (h.accepted p hp), h.acceptedNodup, h.fits⟩

theorem Ledger.enter {p : Reservation} (h : Ledger r []) (he : Enters r (p :: l)) :
    Ledger (r.applyAccepted p) [] ∧ (r.applyAccepted p).reservations =
      insertKey fst (p.transactionId, p) r.reservations ∧ Enters (r.applyAccepted p) l := by
  obtain ⟨hproposals, hnodup, hfits⟩ := he
  rw [map_cons, nodup_cons] at hnodup
  rw [map_cons, sum_cons] at hfits
  obtain ⟨⟨hsound, hpos, hfresh⟩, hrest⟩ := forall_mem_cons.mp hproposals
  have hword := h.word
  have heq := applyAccepted_eq hfresh (by omega)
  refine ⟨h.applyAccepted hsound hpos hfresh (by omega), by rw [heq], fun q hq => ?_, hnodup.2, ?_⟩
  · refine ⟨(hrest q hq).1, (hrest q hq).2.1, fun e he => ?_⟩
    rw [heq] at he
    rcases (mem_insertKey fst).mp he with rfl | he
    · exact fun htxn => hnodup.1 (mem_map.mpr ⟨q, hq, htxn.symm⟩)
    · exact (hrest q hq).2.2 e he
  · rw [heq]
    show r.activeCapacity + p.amount + _ ≤ r.totalCapacity
    omega

theorem Ledger.applyAccepteds (h : Ledger r []) (he : Enters r l) :
    Ledger (l.foldl Resource.applyAccepted r) [] := by
  induction l generalizing r with
  | nil => exact h
  | cons p l ih =>
    obtain ⟨hone, -, hrest⟩ := h.enter he
    exact ih hone hrest

theorem Ledger.applyCancellations {l : List ℕ} (h : Ledger r []) :
    Ledger (l.foldl Resource.applyCancellation r) [] := by
  induction l generalizing r with
  | nil => exact h
  | cons transactionId l ih => exact ih (h.applyCancellation transactionId)

theorem Ledger.applyReleases {l : List ReleaseProposal} (h : Ledger r [])
    (hamounts : ∀ p ∈ l, p.amount < 2 ^ 32) : Ledger (l.foldl Resource.applyRelease r) [] := by
  induction l generalizing r with
  | nil => exact h
  | cons release l ih =>
    exact ih (h.applyRelease (hamounts release mem_cons_self)) fun p hp =>
      hamounts p (mem_cons_of_mem release hp)

theorem ResourceInv.applied (h : ResourceInv r) : Ledger r.applied [] := by
  exact (h.ledger.applyAccepteds h.enters).applyCancellations.applyReleases h.releases

theorem ResourceInv.doXfer (h : ResourceInv r) (epoch : Epoch) : ResourceInv (r.doXfer epoch) := by
  have hl := h.applied
  refine ⟨⟨hl.keys, hl.nodup, hl.sound, hl.zero, hl.sum, hl.capacity, hl.word, ?_, hl.unwrapped,
    hl.counters⟩, nofun, List.Pairwise.nil, nofun, List.Pairwise.nil, hl.capacity, nofun⟩
  exact max_le hl.high hl.capacity

theorem ResourceInv.reset (h : ResourceInv r) : ResourceInv r.reset := by
  have hl := h.ledger
  exact ⟨⟨nofun, List.Pairwise.nil, nofun, nofun, rfl, zero_le _, hl.word, zero_le _,
    hl.unwrapped, rfl⟩, nofun, List.Pairwise.nil, nofun, List.Pairwise.nil, zero_le _, nofun⟩

theorem ResourceInv.construct (id : ObjectId) (totalCapacity : UInt32) (observationSink : Bool) :
    ResourceInv (construct id totalCapacity observationSink) :=
  ⟨⟨nofun, List.Pairwise.nil, nofun, nofun, rfl, zero_le _, totalCapacity.toNat_lt,
    zero_le _, rfl, rfl⟩, nofun, List.Pairwise.nil, nofun, List.Pairwise.nil, zero_le _,
    nofun⟩

/-! ### Sequences of calls -/

/-- One call of the interface, or one phase under any answers of the system. -/
inductive Step : Resource → Resource → Prop
  | proposeReserve {r : Resource} (request : Reservation) : Step r (r.proposeReserve request).2
  | proposeRelease {r : Resource} (owner : ObjectId) (amount : ℕ) :
      Step r (r.proposeRelease owner amount).2
  | proposeCancel {r : Resource} (owner : ObjectId) (transactionId : ℕ) :
      Step r (r.proposeCancel owner transactionId).2
  | doArbitrate {r r' : Resource} (hleaf : r.doArbitrate.Leaf r') : Step r r'
  | doXfer {r : Resource} (epoch : Epoch) : Step r (r.doXfer epoch)
  | reset {r : Resource} : Step r r.reset

theorem ResourceInv.step (h : ResourceInv r) (hstep : Step r r') : ResourceInv r' := by
  cases hstep with
  | proposeReserve request => exact h.proposeReserve request
  | proposeRelease owner amount => exact h.proposeRelease owner amount
  | proposeCancel owner transactionId => exact h.proposeCancel owner transactionId
  | doArbitrate hleaf => exact h.doArbitrate hleaf
  | doXfer epoch => exact h.doXfer epoch
  | reset => exact h.reset

/-- What the resource claims of itself and of its counters. -/
structure Conserved (r : Resource) : Prop where
  validates : r.validate = true
  keys : ∀ e ∈ r.reservations, e.1 = e.2.transactionId
  positive : ∀ e ∈ r.reservations, 0 < e.2.amount
  sum : (r.reservations.map (fun e => e.2.amount)).sum = r.activeCapacity
  capacity : r.activeCapacity ≤ r.totalCapacity
  high : r.highWatermark ≤ r.totalCapacity
  unwrapped : r.wrapped = false
  counters : r.totalReservations =
    r.totalReleases + r.totalCancellations + UInt64.ofNat r.activeCapacity

theorem Ledger.conserved (h : Ledger r []) : Conserved r := by
  have hpositive (e : ℕ × Reservation) (he : e ∈ r.reservations) : e.2.amount ≠ 0 :=
    fun hzero => not_mem_nil ((h.zero e he).mp hzero)
  refine ⟨?_, h.keys, fun e he => pos_of_ne_zero (hpositive e he), h.sum, h.capacity, h.high,
    h.unwrapped, h.counters⟩
  have hsum : (r.reservations.map (fun e => e.2.amount)).sum = r.activeCapacity := h.sum
  have hall : ∀ e ∈ r.reservations, (e.1 = e.2.transactionId && e.2.ownerId != kInvalidObjectId &&
      e.2.amount != 0 && !decide (e.2.readyTime < e.2.issueTime)) = true := by
    intro e he
    simp [h.keys e he, (h.sound e he).1, hpositive e he, (h.sound e he).2]
  rw [validate, hsum, all_eq_true.mpr hall, decide_eq_true h.capacity]
  simp

/-- The invariant holds after every sequence of calls. -/
theorem ResourceInv.reachable {id : ObjectId} {totalCapacity : UInt32} {observationSink : Bool}
    (h : Relation.ReflTransGen Step (Resource.construct id totalCapacity observationSink) r) :
    ResourceInv r := by
  induction h with
  | refl => exact .construct id totalCapacity observationSink
  | tail _ hstep ih => exact ih.step hstep

end Resource

/-- A resource conserves its capacity through every sequence of calls. -/
theorem resource_conservation {id : ObjectId} {totalCapacity : UInt32} {observationSink : Bool}
    {r : Resource} (h : Relation.ReflTransGen Resource.Step
      (Resource.construct id totalCapacity observationSink) r) : r.Conserved :=
  (Resource.ResourceInv.reachable h).ledger.conserved

/-- The request of owner 1 for an amount. -/
def requestOf (transactionId amount : ℕ) : Reservation :=
  { ownerId := 1, amount := amount, issueTime := ⟨0, 0⟩, readyTime := ⟨0, 0⟩
    transactionId := transactionId }

/-- Arbitration and Xfer under an idle system. -/
def Resource.commit (r : Resource) (epoch : Epoch) : Resource :=
  (r.doArbitrate.exec (Config.ofKinds []) {}).2.doXfer epoch

/-- A release is admitted against two reservations, one of which is then cancelled. -/
def Resource.contended : Resource :=
  let reserved := (((Resource.construct 0 10 false).proposeReserve (requestOf 1 6)).2.proposeReserve
    (requestOf 2 4)).2.commit ⟨0, 0⟩
  ((reserved.proposeRelease 1 9).2.proposeCancel 1 1).2.commit ⟨1, 0⟩

/-- The release takes what the cancellation has left. -/
theorem resource_conservation_contended :
    contended.totalReleases = 4 ∧ contended.totalCancellations = 6 ∧
    contended.Conserved := by
  have hcommit (r : Resource) (epoch : Epoch) :
      Relation.ReflTransGen Resource.Step r (r.commit epoch) :=
    .tail (.single (.doArbitrate (Body.exec_leaf _ _ _))) (.doXfer epoch)
  have hrun : Relation.ReflTransGen Resource.Step (Resource.construct 0 10 false)
      contended := by
    refine .trans ?_ (hcommit _ _)
    refine .tail (.tail (.trans ?_ (hcommit _ _)) (.proposeRelease 1 9)) (.proposeCancel 1 1)
    exact .tail (.single (.proposeReserve _)) (.proposeReserve _)
  exact ⟨by decide +kernel, by decide +kernel, resource_conservation hrun⟩

end AgenticCircuit.Gfsim
