import AgenticCircuit.Gfsim.ResourceXfer

/-! # Releases and cancellations of one epoch

A release is admitted against what the reservations of its owner hold that are not being cancelled;
a cancellation is admitted whatever has been released.  Xfer cancels first and then releases.  So a
cancellation can take away what an admitted release counts on.

`LeavesReleases` says of a sequence of calls that no cancellation does so; `FullEffect` says that
the admitted calls take full effect, and `full_effect_iff` that the two are the same.  The order of
admitted calls never matters (`FullEffect.independent`). -/

namespace AgenticCircuit.Gfsim

open List Resource Nat Reservation

namespace Resource

/-- A call that gives capacity back. -/
inductive ReturnCall
  | release (owner : ObjectId) (amount : ℕ)
  | cancel (owner : ObjectId) (transactionId : ℕ)
deriving DecidableEq

def ReturnCall.propose (r : Resource) : ReturnCall → Bool × Resource
  | .release owner amount => r.proposeRelease owner amount
  | .cancel owner transactionId => r.proposeCancel owner transactionId

/-- The state after some calls. -/
def proposeAll : List ReturnCall → Resource → Resource
  | [], r => r
  | call :: calls, r => proposeAll calls (call.propose r).2

/-- The calls that are admitted. -/
def admitted : List ReturnCall → Resource → List ReturnCall
  | [], _ => []
  | call :: calls, r =>
    let rest := admitted calls (call.propose r).2
    if (call.propose r).1 then call :: rest else rest

def ReturnCall.releaseProposal? : ReturnCall → Option ReleaseProposal
  | .release owner amount => some ⟨owner, amount⟩
  | .cancel _ _ => none

def ReturnCall.cancellation? : ReturnCall → Option ℕ
  | .release _ _ => none
  | .cancel _ transactionId => some transactionId

/-- The amounts that some calls release for an owner. -/
def releaseAmount (calls : List ReturnCall) (owner : ObjectId) : ℕ :=
  demands (calls.filterMap ReturnCall.releaseProposal?) owner

/-- The amounts, in a state, of the reservations that some calls cancel. -/
def cancelAmount (calls : List ReturnCall) (r : Resource) : ℕ :=
  ((calls.filterMap ReturnCall.cancellation?).map fun transactionId =>
    ((r.reservations.lookup transactionId).map Reservation.amount).getD 0).sum

/-- What the reservations of an owner hold. -/
def held (r : Resource) (owner : ObjectId) : ℕ :=
  total (r.reservations.filter fun e => e.2.ownerId = owner)

/-- What the releases of an Xfer take from the reservations of an owner. -/
def releasedFor (r : Resource) (owner : ObjectId) : ℕ :=
  let accepted := r.acceptedProposals.foldl applyAccepted r
  let cancelled := r.cancellationProposals.foldl applyCancellation accepted
  cancelled.held owner - (r.releaseProposals.foldl applyRelease cancelled).held owner

/-- A state between two epochs. -/
structure Committed (r : Resource) : Prop where
  proposals : r.proposals = []
  accepted : r.acceptedProposals = []
  rejected : r.proposedRejectedTransactions = []
  releases : r.releaseProposals = []
  cancellations : r.cancellationProposals = []

/-- No cancellation that is admitted takes away what a pending release of its owner counts on: what
remains uncancelled holds the pending releases. -/
def LeavesReleases : List ReturnCall → Resource → Prop
  | [], _ => True
  | .release owner amount :: calls, r => LeavesReleases calls (r.proposeRelease owner amount).2
  | .cancel owner transactionId :: calls, r =>
    (∀ reservation, r.reservations.lookup transactionId = some reservation →
      reservation.ownerId = owner → r.isCancellationPending transactionId = false →
      demands r.releaseProposals owner + reservation.amount ≤ (r.ownedAmounts owner).sum) ∧
    LeavesReleases calls (r.proposeCancel owner transactionId).2

/-- The admitted calls take full effect, in whatever order: from `r`, calls that lead to `s` before
its Xfer. -/
structure FullEffect (r : Resource) (calls : List ReturnCall) (s : Resource) (epoch : Epoch) :
    Prop where
  released : ∀ owner, s.releasedFor owner = releaseAmount (admitted calls r) owner
  releases : (s.doXfer epoch).totalReleases = r.totalReleases +
    UInt64.ofNat ((admitted calls r).filterMap ReturnCall.releaseProposal?
      |>.map ReleaseProposal.amount).sum
  cancellations : (s.doXfer epoch).totalCancellations = r.totalCancellations +
    UInt64.ofNat (cancelAmount (admitted calls r) r)
  independent : ∀ (calls' : List ReturnCall) (s' : Resource),
    (admitted calls' r).Perm (admitted calls r) → (proposeAll calls' r).doArbitrate.Leaf s' →
    s'.doXfer epoch = s.doXfer epoch

variable {r : Resource}

/-! ### Admission -/

variable {l : List (ℕ × Reservation)} {s : Resource} {calls : List ReturnCall}

theorem takeReleases_val {owner : ObjectId} {l : List ReleaseProposal} {releasable : Word 32}
    (hword : releasable.val < 2 ^ 32) : l.foldl (takeRelease owner) releasable =
      ⟨releasable.val - demands l owner, releasable.wrapped⟩ := by
  induction l generalizing releasable with
  | nil => rfl
  | cons release l ih =>
    have hone : takeRelease owner releasable release =
        ⟨releasable.val - demand release owner, releasable.wrapped⟩ := by
      unfold takeRelease demand
      by_cases howner : release.ownerId = owner
      · rw [if_neg (not_not.2 howner), if_pos howner]
        split
        · rename_i hlt
          rw [Nat.sub_eq_zero_of_le (le_of_lt hlt)]
        · rename_i hle
          exact Word.sub_eq (not_lt.1 hle) hword
      · rw [if_pos howner, if_neg howner, Nat.sub_zero]
    rw [foldl_cons, hone, ih (by show releasable.val - _ < 2 ^ 32; omega), demands_cons,
      Pi.add_apply]
    rw [Nat.sub_sub]

/-- What is admitted as a release. -/
theorem ResourceInv.proposeRelease_eq (h : ResourceInv r) (owner : ObjectId) (amount : ℕ) :
    r.proposeRelease owner amount =
      if amount = 0 ∨ (r.ownedAmounts owner).sum - demands r.releaseProposals owner < amount then
        (false, r)
      else (true, { r with releaseProposals := r.releaseProposals ++ [⟨owner, amount⟩] }) := by
  have hl := h.ledger
  have hcapacity := hl.capacity
  have hword := hl.word
  have howned : (r.ownedAmounts owner).sum ≤ r.live :=
    (filter_sublist.map _).sum_le_sum fun _ _ => zero_le _
  have hsum := hl.sum
  have hadd : Word.addAll (⟨0, r.wrapped⟩ : Word 32) (r.ownedAmounts owner) =
      ⟨0 + (r.ownedAmounts owner).sum, r.wrapped⟩ :=
    Word.addAll_eq (by show 0 + (r.ownedAmounts owner).sum < 2 ^ 32; omega)
  have hlt : (⟨0 + (r.ownedAmounts owner).sum, r.wrapped⟩ : Word 32).val < 2 ^ 32 := by
    show 0 + (r.ownedAmounts owner).sum < 2 ^ 32
    omega
  unfold Resource.proposeRelease
  by_cases hzero : amount = 0
  · rw [if_pos hzero, if_pos (.inl hzero)]
  rw [if_neg hzero, hadd, takeReleases_val hlt, zero_add]
  by_cases hless : (r.ownedAmounts owner).sum - demands r.releaseProposals owner < amount
  · rw [if_pos hless, if_pos (.inr hless)]
  · rw [if_neg hless, if_neg (not_or.2 ⟨hzero, hless⟩)]

/-- The calls become proposals. -/
def pending (r : Resource) (calls : List ReturnCall) : Resource :=
  { r with
    releaseProposals := r.releaseProposals ++ calls.filterMap ReturnCall.releaseProposal?
    cancellationProposals := r.cancellationProposals ++
      calls.filterMap ReturnCall.cancellation? }

theorem pending_nil : r.pending [] = r := by
  simp [pending]

theorem pending_pending (calls calls' : List ReturnCall) :
    (r.pending calls).pending calls' = r.pending (calls ++ calls') := by
  simp [pending]

variable (owner : ObjectId)

theorem proposeCancel_eq (transactionId : ℕ) :
    (r.proposeCancel owner transactionId).2 = if (r.proposeCancel owner transactionId).1 then
      r.pending [.cancel owner transactionId] else r := by
  unfold Resource.proposeCancel
  split
  · rfl
  · split
    · rfl
    · simp [pending, ReturnCall.releaseProposal?, ReturnCall.cancellation?]

theorem ResourceInv.propose_eq (h : ResourceInv r) (call : ReturnCall) :
    (call.propose r).2 = if (call.propose r).1 then r.pending [call] else r := by
  cases call with
  | release owner amount =>
    show (r.proposeRelease owner amount).2 =
      if (r.proposeRelease owner amount).1 then r.pending [.release owner amount] else r
    rw [h.proposeRelease_eq]
    split
    · rfl
    · simp [pending, ReturnCall.releaseProposal?, ReturnCall.cancellation?]
  | cancel owner transactionId => exact proposeCancel_eq owner transactionId

theorem ResourceInv.propose (h : ResourceInv r) (call : ReturnCall) :
    ResourceInv (call.propose r).2 := by
  cases call with
  | release owner amount => exact h.proposeRelease owner amount
  | cancel owner transactionId => exact h.proposeCancel owner transactionId

theorem ResourceInv.proposeAll (h : ResourceInv r) (calls : List ReturnCall) :
    ResourceInv (proposeAll calls r) := by
  induction calls generalizing r with
  | nil => exact h
  | cons call calls ih => exact ih (h.propose call)

theorem ResourceInv.proposeAll_eq (h : ResourceInv r) (calls : List ReturnCall) :
    Resource.proposeAll calls r = r.pending (admitted calls r) := by
  induction calls generalizing r with
  | nil => exact pending_nil.symm
  | cons call calls ih =>
    have heq := h.propose_eq call
    rw [Resource.proposeAll, ih (h.propose call), admitted]
    split
    · rename_i hadmitted
      rw [if_pos hadmitted] at heq
      rw [heq, pending_pending]
      rfl
    · rename_i hreject
      rw [if_neg hreject] at heq
      rw [heq]

/-! ### What the releases count on -/

/-- What remains uncancelled holds the pending releases. -/
def Backed (r : Resource) : Prop :=
  ∀ owner, demands r.releaseProposals owner ≤ (r.ownedAmounts owner).sum

theorem ResourceInv.backed_release (h : ResourceInv r) (owner : ObjectId) (amount : ℕ) :
    Backed (r.proposeRelease owner amount).2 ↔ Backed r := by
  rw [h.proposeRelease_eq]
  split
  · exact Iff.rfl
  · rename_i hadmitted
    rw [not_or, not_lt] at hadmitted
    have happend (o : ObjectId) : demands (r.releaseProposals ++ [⟨owner, amount⟩]) o =
        demands r.releaseProposals o + demand ⟨owner, amount⟩ o := by
      have hperm : (r.releaseProposals ++ [(⟨owner, amount⟩ : ReleaseProposal)]).Perm
          (⟨owner, amount⟩ :: r.releaseProposals) :=
        perm_append_singleton _ _
      rw [demands_perm hperm, demands_cons, Pi.add_apply, add_comm]
    have hsame (o : ObjectId) : ({ r with
        releaseProposals := r.releaseProposals ++ [⟨owner, amount⟩] } : Resource).ownedAmounts o =
        r.ownedAmounts o := rfl
    refine forall_congr' fun o => ?_
    rw [hsame]
    show demands (r.releaseProposals ++ [⟨owner, amount⟩]) o ≤ _ ↔ _
    rw [happend]
    by_cases howner : owner = o
    · have hdemand : demand ⟨owner, amount⟩ o = amount := if_pos howner
      subst howner
      omega
    · have hdemand : demand ⟨owner, amount⟩ o = 0 := if_neg howner
      rw [hdemand, add_zero]

/-- A cancelled reservation backs nothing any more. -/
theorem Ledger.ownedAmounts_cancel (h : Ledger r []) {transactionId : ℕ} {reservation : Reservation}
    (hlookup : r.reservations.lookup transactionId = some reservation)
    (hpending : r.isCancellationPending transactionId = false) (o : ObjectId) :
    (({ r with cancellationProposals := r.cancellationProposals ++ [transactionId] } :
        Resource).ownedAmounts o).sum + (if reservation.ownerId = o then reservation.amount else 0) =
      (r.ownedAmounts o).sum := by
  have hmem := mem_of_lookup hlookup
  have hfilter : r.reservations.filter (fun e => e.2.ownerId = o &&
      !(r.cancellationProposals ++ [transactionId]).contains e.1) =
      (r.reservations.filter fun e => e.2.ownerId = o && !r.isCancellationPending e.1).filter
        fun e => e.1 ≠ transactionId := by
    rw [filter_filter]
    refine filter_congr fun e _ => ?_
    simp only [isCancellationPending]
    by_cases heq : e.1 = transactionId <;> simp [heq]
  have hsum : (({ r with cancellationProposals := r.cancellationProposals ++ [transactionId] } :
      Resource).ownedAmounts o).sum =
      total ((r.reservations.filter fun e => e.2.ownerId = o && !r.isCancellationPending e.1).filter
        fun e => e.1 ≠ transactionId) :=
    congrArg total hfilter
  rw [hsum]
  by_cases howner : reservation.ownerId = o
  · have hin : (transactionId, reservation) ∈
        r.reservations.filter fun e => e.2.ownerId = o && !r.isCancellationPending e.1 :=
      mem_filter.2 ⟨hmem, by simp [howner, hpending]⟩
    rw [if_pos howner]
    exact sum_map_erase amount ((filter_sublist.map _).nodup h.nodup) hin
  · have hall : (r.reservations.filter fun e => e.2.ownerId = o &&
        !r.isCancellationPending e.1).filter (fun e => e.1 ≠ transactionId) =
        r.reservations.filter fun e => e.2.ownerId = o && !r.isCancellationPending e.1 := by
      refine filter_eq_self.2 fun e he => decide_eq_true fun heq => ?_
      obtain ⟨he, hand⟩ := mem_filter.1 he
      have hsame : e = (transactionId, reservation) := h.eq_of_fst hmem he heq
      rw [hsame] at hand
      simp [howner] at hand
    rw [if_neg howner, add_zero, hall]
    rfl

/-- A cancellation keeps the releases backed if it leaves what they count on. -/
theorem ResourceInv.backed_cancel (h : ResourceInv r) (owner : ObjectId) (transactionId : ℕ) :
    Backed (r.proposeCancel owner transactionId).2 ↔ Backed r ∧
      ∀ reservation, r.reservations.lookup transactionId = some reservation →
        reservation.ownerId = owner → r.isCancellationPending transactionId = false →
        demands r.releaseProposals owner + reservation.amount ≤ (r.ownedAmounts owner).sum := by
  unfold Resource.proposeCancel
  cases hlookup : r.reservations.lookup transactionId with
  | none => exact ⟨fun hbacked => ⟨hbacked, nofun⟩, And.left⟩
  | some reservation =>
    dsimp only
    by_cases hadmitted : reservation.ownerId = owner ∧ r.isCancellationPending transactionId = false
    · obtain ⟨howner, hpending⟩ := hadmitted
      subst howner
      rw [if_neg (by simp [hpending])]
      have hsum := h.ledger.ownedAmounts_cancel hlookup hpending
      constructor
      · intro hbacked
        refine ⟨fun o => (hbacked o).trans ((le_add_right ..).trans_eq (hsum o)), ?_⟩
        rintro _ ⟨⟩ - -
        have hown := hsum reservation.ownerId
        rw [if_pos rfl] at hown
        rw [← hown]
        exact Nat.add_le_add_right (hbacked reservation.ownerId) _
      · rintro ⟨hbacked, hleaves⟩ o
        have ho := hsum o
        show demands r.releaseProposals o ≤ _
        by_cases hsame : reservation.ownerId = o
        · have hleave := hleaves reservation rfl rfl hpending
          rw [if_pos hsame] at ho
          rw [hsame, ← ho] at hleave
          exact le_of_add_le_add_right hleave
        · rw [if_neg hsame, add_zero] at ho
          rw [ho]
          exact hbacked o
    · have hreject : (reservation.ownerId ≠ owner || r.isCancellationPending transactionId) = true := by
        by_cases howner : reservation.ownerId = owner <;> simp_all
      rw [if_pos hreject]
      refine ⟨fun hbacked => ⟨hbacked, ?_⟩, And.left⟩
      rintro _ ⟨⟩ howner hpending
      exact absurd ⟨howner, hpending⟩ hadmitted

/-- **The releases stay backed exactly when the cancellations leave what they count on.** -/
theorem ResourceInv.backed_iff (h : ResourceInv r) (calls : List ReturnCall) :
    Backed (Resource.proposeAll calls r) ↔ Backed r ∧ LeavesReleases calls r := by
  induction calls generalizing r with
  | nil => exact (and_iff_left trivial).symm
  | cons call calls ih =>
    rw [Resource.proposeAll, ih (h.propose call)]
    cases call with
    | release owner amount => exact and_congr_left fun _ => h.backed_release owner amount
    | cancel owner transactionId =>
      refine (and_congr_left fun _ => h.backed_cancel owner transactionId).trans ?_
      rw [LeavesReleases, and_assoc]
      exact Iff.rfl

/-! ### What the admitted calls do -/

theorem held_eq : r.held owner = holding.below r.reservations owner ⊤ := by
  refine congrArg total (filter_congr fun e _ => decide_eq_decide.2 ?_)
  exact (and_iff_left (WithTop.coe_lt_top _)).symm

theorem held_cancelled :
    (r.cancelled r.cancellationProposals).held owner = (r.ownedAmounts owner).sum := by
  have hfilter : (r.reservations.filter fun e => e.1 ∉ r.cancellationProposals).filter
      (fun e => e.2.ownerId = owner) =
      r.reservations.filter fun e => e.2.ownerId = owner && !r.isCancellationPending e.1 := by
    rw [filter_filter]
    refine filter_congr fun e _ => ?_
    simp [isCancellationPending]
  exact congrArg total hfilter

theorem Ledger.cancelled (h : Ledger r []) (transactions : List ℕ) :
    Ledger (r.cancelled transactions) [] :=
  h.applyCancellations_eq ▸ h.applyCancellations

theorem ResourceInv.applied_eq (h : ResourceInv r) (haccepted : r.acceptedProposals = []) :
    r.applied = (r.cancelled r.cancellationProposals).released (demands r.releaseProposals) := by
  rw [Resource.applied, haccepted, foldl_nil, h.ledger.applyCancellations_eq,
    (h.ledger.cancelled _).applyReleases_eq h.releases]

/-- The releases take what is asked for, as far as there is so much. -/
theorem ResourceInv.releasedFor_eq (h : ResourceInv r) (haccepted : r.acceptedProposals = [])
    (owner : ObjectId) : r.releasedFor owner =
      min (demands r.releaseProposals owner) (r.ownedAmounts owner).sum := by
  have hledger := h.ledger.cancelled r.cancellationProposals
  rw [releasedFor, haccepted, foldl_nil, h.ledger.applyCancellations_eq,
    hledger.applyReleases_eq h.releases, held_eq, held_eq, released, hledger.distinct.below_drain,
    ← held_eq, held_cancelled]
  omega

theorem total_demands (h : holding.Distinct l) (releases : List ReleaseProposal)
    (hbacked : ∀ owner, demands releases owner ≤ holding.below l owner ⊤) :
    total (holding.drain l (demands releases)) + (releases.map ReleaseProposal.amount).sum =
      total l := by
  induction releases generalizing l with
  | nil =>
    have hkept : (fun e => holding.setAmount e (holding.kept l (demands []) e)) = fun e => e := by
      funext e
      rw [Allotment.kept, demands]
      simp
    rw [Allotment.drain_eq_filter, hkept, map_id', map_nil, sum_nil, add_zero]
    clear hbacked h hkept
    induction l with
    | nil => rfl
    | cons e l ih =>
      unfold total at ih ⊢
      by_cases hzero : holding.amount e = 0
      · rw [filter_cons_of_neg (by simpa using hzero), ih, map_cons, sum_cons]
        exact (zero_add _).symm.trans (congrArg (· + _) hzero.symm)
      · rw [filter_cons_of_pos (by simpa using hzero), map_cons, sum_cons, ih,
          map_cons, sum_cons]
  | cons release releases ih =>
    have hsplit (owner : ObjectId) : demands (release :: releases) owner =
        demand release owner + demands releases owner := by
      rw [demands_cons, Pi.add_apply]
    have hothers : ∀ owner, owner ≠ release.ownerId → demand release owner = 0 :=
      fun owner hne => if_neg hne.symm
    have hown : demand release release.ownerId = release.amount := if_pos rfl
    have hfirst := h.total_drain hothers
    have hone := hbacked release.ownerId
    have hrest := ih (h.drain (n := demand release)) fun owner => by
      have howner := hbacked owner
      rw [hsplit] at howner
      rw [h.below_drain]
      omega
    rw [hsplit] at hone
    rw [demands_cons, ← h.drain_drain, map_cons, sum_cons]
    have hfirst' : total (holding.drain l (demand release)) + min (demand release release.ownerId)
        (holding.below l release.ownerId ⊤) = total l := hfirst
    omega

theorem total_cancelled (hnodup : (l.map Prod.fst).Nodup) {transactions : List ℕ}
    (h : transactions.Nodup) :
    total (l.filter fun e => e.1 ∉ transactions) + (transactions.map fun t =>
      ((l.lookup t).map amount).getD 0).sum = total l := by
  induction transactions with
  | nil => simp
  | cons t transactions ih =>
    obtain ⟨hnew, htail⟩ := nodup_cons.1 h
    have hsplit : l.filter (fun e => e.1 ∉ t :: transactions) =
        (l.filter fun e => e.1 ∉ transactions).filter fun e => e.1 ≠ t := by
      rw [filter_filter]
      refine filter_congr fun e _ => ?_
      simp
    rw [hsplit, map_cons, sum_cons, ← ih htail]
    cases hlookup : l.lookup t with
    | none =>
      have hall : (l.filter fun e => e.1 ∉ transactions).filter (fun e => e.1 ≠ t) =
          l.filter fun e => e.1 ∉ transactions := by
        refine filter_eq_self.2 fun e he => decide_eq_true fun heq => ?_
        have hne := lookup_eq_none_iff.1 hlookup e (mem_of_mem_filter he)
        simp [heq] at hne
      rw [hall]
      exact congrArg _ (zero_add _)
    | some reservation =>
      have hmem : (t, reservation) ∈ l.filter fun e => e.1 ∉ transactions :=
        mem_filter.2 ⟨mem_of_lookup hlookup, decide_eq_true hnew⟩
      have herase : total ((l.filter fun e => e.1 ∉ transactions).filter fun e => e.1 ≠ t) +
          reservation.amount = total (l.filter fun e => e.1 ∉ transactions) :=
        sum_map_erase amount ((filter_sublist.map _).nodup hnodup) hmem
      rw [← herase, Option.map_some, Option.getD_some]
      omega

theorem nodup_cancellations (h : r.cancellationProposals.Nodup) (calls : List ReturnCall) :
    (proposeAll calls r).cancellationProposals.Nodup := by
  induction calls generalizing r with
  | nil => exact h
  | cons call calls ih =>
    refine ih ?_
    cases call with
    | release owner amount =>
      unfold ReturnCall.propose Resource.proposeRelease
      dsimp only
      split
      · exact h
      · split <;> exact h
    | cancel owner transactionId =>
      unfold ReturnCall.propose Resource.proposeCancel
      dsimp only
      split
      · exact h
      split
      · exact h
      · rename_i hadmitted
        have hnew : transactionId ∉ r.cancellationProposals := by
          simp only [Bool.or_eq_true, not_or, isCancellationPending, contains_iff_mem] at hadmitted
          exact hadmitted.2
        refine nodup_append.2 ⟨h, nodup_singleton _, fun a ha b hb heq => ?_⟩
        rw [mem_singleton.1 hb] at heq
        exact hnew (heq ▸ ha)

/-! ### The effect of an epoch -/

theorem ResourceInv.doArbitrate_eq (h : ResourceInv r) (hproposals : r.proposals = [])
    (haccepted : r.acceptedProposals = []) (hrejected : r.proposedRejectedTransactions = [])
    (hleaf : r.doArbitrate.Leaf s) : s = r := by
  have hl := h.ledger
  have havailable : r.availableCapacity = ⟨r.totalCapacity - r.activeCapacity, r.wrapped⟩ :=
    Word.sub_eq hl.capacity hl.word
  have hsame : r.arbitrated = r := by
    rw [Resource.arbitrated, hproposals]
    show { r with
      proposals := [], acceptedProposals := [], proposedRejectedTransactions := []
      wrapped := r.availableCapacity.wrapped } = r
    rw [havailable]
    clear havailable hleaf hl h
    cases r
    subst hproposals haccepted hrejected
    rfl
  unfold Resource.doArbitrate at hleaf
  dsimp only at hleaf
  rw [hsame, haccepted] at hleaf
  change (observeAll observeRejected r.proposals r).Leaf s at hleaf
  rw [hproposals] at hleaf
  exact (Body.leaf_done.1 hleaf).symm

theorem Committed.settled (h : Committed r) (hinv : ResourceInv r)
    (hleaf : (Resource.proposeAll calls r).doArbitrate.Leaf s) :
    s = Resource.proposeAll calls r := by
  have hpending := hinv.proposeAll_eq calls
  refine (hinv.proposeAll calls).doArbitrate_eq ?_ ?_ ?_ hleaf
  · rw [hpending]
    exact h.proposals
  · rw [hpending]
    exact h.accepted
  · rw [hpending]
    exact h.rejected

/-- The state that calls lead to, once their Xfer is done. -/
theorem Committed.doXfer_eq (h : Committed r) (hinv : ResourceInv r) (epoch : Epoch) :
    (Resource.proposeAll calls r).doXfer epoch =
      { (r.cancelled ((admitted calls r).filterMap ReturnCall.cancellation?)).released
          (demands ((admitted calls r).filterMap ReturnCall.releaseProposal?)) with
        rejectedTransactions := []
        highWatermark := max r.highWatermark (total (holding.drain
          (r.cancelled ((admitted calls r).filterMap ReturnCall.cancellation?)).reservations
          (demands ((admitted calls r).filterMap ReturnCall.releaseProposal?))))
        lastUpdate := if !(admitted calls r).isEmpty then epoch else r.lastUpdate } := by
  have hpending := hinv.proposeAll_eq calls
  have hall := hinv.proposeAll calls
  rw [hpending] at hall ⊢
  generalize admitted calls r = calls at hall ⊢
  have happlied := hall.applied_eq h.accepted
  have hreleases : (r.pending calls).releaseProposals =
      calls.filterMap ReturnCall.releaseProposal? := by
    show r.releaseProposals ++ _ = _
    rw [h.releases, nil_append]
  have hcancellations : (r.pending calls).cancellationProposals =
      calls.filterMap ReturnCall.cancellation? := by
    show r.cancellationProposals ++ _ = _
    rw [h.cancellations, nil_append]
  have hcommit : (r.pending calls).hasPendingCommit = !calls.isEmpty := by
    have haccepted : (r.pending calls).acceptedProposals = [] := h.accepted
    have hrejected : (r.pending calls).proposedRejectedTransactions = [] := h.rejected
    rw [hasPendingCommit, hreleases, hcancellations, haccepted, hrejected]
    cases calls with
    | nil => rfl
    | cons call calls => cases call <;> simp [ReturnCall.releaseProposal?, ReturnCall.cancellation?]
  rw [doXfer, happlied, hcancellations, hreleases, hcommit]
  obtain ⟨hproposals, haccepted, hrejected, hnoReleases, hnoCancellations⟩ := h
  clear happlied hreleases hcancellations hcommit hall hpending hinv
  cases r
  subst hproposals haccepted hrejected hnoReleases hnoCancellations
  rfl

theorem FullEffect.of_backed (h : Committed r) (hinv : ResourceInv r) (epoch : Epoch)
    (hbacked : Backed (Resource.proposeAll calls r)) :
    FullEffect r calls (Resource.proposeAll calls r) epoch := by
  have hall := hinv.proposeAll calls
  have hpending := hinv.proposeAll_eq calls
  have hreleases : (Resource.proposeAll calls r).releaseProposals =
      (admitted calls r).filterMap ReturnCall.releaseProposal? := by
    rw [hpending]
    show r.releaseProposals ++ _ = _
    rw [h.releases, nil_append]
  have hcancellations : (Resource.proposeAll calls r).cancellationProposals =
      (admitted calls r).filterMap ReturnCall.cancellation? := by
    rw [hpending]
    show r.cancellationProposals ++ _ = _
    rw [h.cancellations, nil_append]
  have hreservations : (Resource.proposeAll calls r).reservations = r.reservations := by
    rw [hpending]
    rfl
  have haccepted : (Resource.proposeAll calls r).acceptedProposals = [] := by
    rw [hpending]
    exact h.accepted
  have hledger := hinv.ledger.cancelled ((admitted calls r).filterMap ReturnCall.cancellation?)
  have hactive : total r.reservations = r.activeCapacity := hinv.ledger.sum
  refine ⟨fun owner => ?_, ?_, ?_, fun calls' s' hperm hleaf => ?_⟩
  · rw [hall.releasedFor_eq haccepted, min_eq_left (hbacked owner), hreleases]
    rfl
  · have hfits := total_demands hledger.distinct
      ((admitted calls r).filterMap ReturnCall.releaseProposal?) fun owner => by
        have howner := hbacked owner
        rw [← held_cancelled, held_eq, hreleases, hcancellations] at howner
        rw [cancelled, hreservations] at howner
        exact howner
    rw [h.doXfer_eq hinv]
    show r.totalReleases + UInt64.ofNat _ = r.totalReleases + UInt64.ofNat _
    have hsum : total (r.cancelled ((admitted calls r).filterMap
        ReturnCall.cancellation?)).reservations = (r.cancelled ((admitted calls r).filterMap
        ReturnCall.cancellation?)).activeCapacity := rfl
    congr 2
    omega
  · have hnodup := nodup_cancellations
      (h.cancellations ▸ nodup_nil : r.cancellationProposals.Nodup) calls
    rw [hcancellations] at hnodup
    have hgone := total_cancelled hinv.ledger.nodup hnodup
    rw [h.doXfer_eq hinv]
    show r.totalCancellations + UInt64.ofNat (r.activeCapacity - total _) =
      r.totalCancellations + UInt64.ofNat _
    rw [cancelAmount]
    congr 2
    omega
  · rw [h.settled hinv hleaf, h.doXfer_eq hinv, h.doXfer_eq hinv]
    rw [hperm.isEmpty_eq, cancelled_perm (hperm.filterMap _), demands_perm (hperm.filterMap _)]

end Resource

/-- **Full effect.**  From a state between two epochs, the releases and cancellations that are
admitted take full effect exactly when no cancellation takes away what a release before it counts
on. -/
theorem full_effect_iff {id : ObjectId} {totalCapacity : UInt32} {observationSink : Bool}
    {r s : Resource} (hreach : Relation.ReflTransGen Step
      (construct id totalCapacity observationSink) r)
    (hcommitted : r.Committed) (calls : List ReturnCall) (epoch : Epoch)
    (hleaf : (Resource.proposeAll calls r).doArbitrate.Leaf s) :
    Resource.FullEffect r calls s epoch ↔ Resource.LeavesReleases calls r := by
  have hinv := Resource.ResourceInv.reachable hreach
  rw [hcommitted.settled hinv hleaf]
  have hstart : r.Backed := fun owner => by
    rw [hcommitted.releases]
    exact zero_le _
  have hbacked := hinv.backed_iff calls
  rw [and_iff_right hstart] at hbacked
  rw [← hbacked]
  refine ⟨fun heffect owner => ?_, .of_backed hcommitted hinv epoch⟩
  have hreleases : (Resource.proposeAll calls r).releaseProposals =
      (Resource.admitted calls r).filterMap ReturnCall.releaseProposal? := by
    rw [hinv.proposeAll_eq]
    show r.releaseProposals ++ _ = _
    rw [hcommitted.releases, nil_append]
  have haccepted : (Resource.proposeAll calls r).acceptedProposals = [] := by
    rw [hinv.proposeAll_eq]
    exact hcommitted.accepted
  have hreleased := heffect.released owner
  rw [(hinv.proposeAll calls).releasedFor_eq haccepted, releaseAmount, ← hreleases] at hreleased
  exact min_eq_left_iff.1 hreleased

/-- Owner 1 holds 6 and 4. -/
def Resource.reserved : Resource :=
  (((construct 0 10 false).proposeReserve (requestOf 1 6)).2.proposeReserve
    (requestOf 2 4)).2.commit ⟨0, 0⟩

theorem Resource.reserved_reachable : Relation.ReflTransGen Step (construct 0 10 false) reserved :=
  .tail (.tail (.tail (.single (.proposeReserve _)) (.proposeReserve _))
    (.doArbitrate (Body.exec_leaf _ _ _))) (.doXfer _)

theorem Resource.reserved_committed : reserved.Committed := by
  constructor <;> decide +kernel

/-- The state before the Xfer of some calls, under an idle system. -/
def Resource.beforeXfer (calls : List ReturnCall) : Resource :=
  ((Resource.proposeAll calls reserved).doArbitrate.exec (Config.ofKinds []) {}).2

/-- A cancellation, and a release of what remains. -/
theorem full_effect_cancel_release :
    Resource.FullEffect reserved [.cancel 1 1, .release 1 3]
      (beforeXfer [.cancel 1 1, .release 1 3]) ⟨1, 0⟩ := by
  refine (full_effect_iff reserved_reachable reserved_committed
    [.cancel 1 1, .release 1 3] ⟨1, 0⟩ (Body.exec_leaf _ _ _)).2 ⟨fun reservation hlookup _ _ => ?_, ?_⟩
  · have hfound : reserved.reservations.lookup 1 = some (requestOf 1 6) := by
      decide +kernel
    obtain rfl := Option.some.inj (hfound.symm.trans hlookup)
    decide +kernel
  · exact trivial

/-- A release of 9 from 6 and 4, and then the cancellation of 6: both are admitted, and 4 are
released. -/
theorem release_cut_short :
    Relation.ReflTransGen Step (construct 0 10 false) reserved ∧
    Resource.Committed reserved ∧
    Resource.admitted [.release 1 9, .cancel 1 1] reserved =
      [.release 1 9, .cancel 1 1] ∧
    (Resource.proposeAll [.release 1 9, .cancel 1 1] reserved).doArbitrate.Leaf
      (beforeXfer [.release 1 9, .cancel 1 1]) ∧
    (beforeXfer [.release 1 9, .cancel 1 1]).releasedFor 1 = 4 ∧
    ¬ Resource.FullEffect reserved [.release 1 9, .cancel 1 1]
      (beforeXfer [.release 1 9, .cancel 1 1]) ⟨1, 0⟩ := by
  have hreleased : (beforeXfer [.release 1 9, .cancel 1 1]).releasedFor 1 = 4 := by
    decide +kernel
  refine ⟨reserved_reachable, reserved_committed, by decide +kernel, Body.exec_leaf _ _ _,
    hreleased, ?_⟩
  intro heffect
  have hfull := heffect.released 1
  rw [hreleased] at hfull
  exact absurd hfull (by decide +kernel)

end AgenticCircuit.Gfsim
