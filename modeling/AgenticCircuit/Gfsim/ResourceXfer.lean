import AgenticCircuit.Gfsim.Resource
import AgenticCircuit.Lib.Drain

/-! # What an Xfer of a resource does

`applied` runs through the accepted reservations, the cancellations and the releases of an epoch.
Each of the three loops has a closed form: reservations are entered (`applyAccepteds_eq`), cancelled
reservations go with their amounts (`applyCancellations_eq`), and releases are taken from the
reservations of their owners in the order of `reservationLess` (`applyReleases_eq`).  The closed
forms depend on the proposals of a loop as a collection only, and for releases on their sums. -/

namespace AgenticCircuit.Gfsim

open List Allotment UInt64

theorem Reservation.transactionId_of_key {p q : Reservation} (h : p.key = q.key) :
    p.transactionId = q.transactionId :=
  congrArg (fun k : ℕ ×ₗ ℕ ×ₗ ℕ ×ₗ ℕ ×ₗ ℕ ×ₗ ℕ =>
    (ofLex (ofLex (ofLex (ofLex (ofLex k).2).2).2).2).2) h

namespace Resource

/-- Reservations as amounts of their owners, in the order of `reservationLess`. -/
def holding : Allotment (ℕ × Reservation) ObjectId (ℕ ×ₗ ℕ ×ₗ ℕ ×ₗ ℕ ×ₗ ℕ ×ₗ ℕ) where
  owner e := e.2.ownerId
  key e := e.2.key
  amount e := e.2.amount
  setAmount e n := (e.1, { e.2 with amount := n })
  owner_setAmount _ _ := rfl
  key_setAmount _ _ := rfl
  amount_setAmount _ _ := rfl
  setAmount_setAmount _ _ _ := rfl
  setAmount_amount _ := rfl

/-- What a release asks of the owners. -/
def demand (release : ReleaseProposal) : ObjectId → ℕ :=
  fun owner => if release.ownerId = owner then release.amount else 0

/-- What the releases of a list ask of the owners. -/
def demands (releases : List ReleaseProposal) (owner : ObjectId) : ℕ :=
  ((releases.filter fun release => release.ownerId = owner).map ReleaseProposal.amount).sum

theorem demands_cons (release : ReleaseProposal) (releases : List ReleaseProposal) :
    demands (release :: releases) = demand release + demands releases := by
  funext owner
  rw [Pi.add_apply, demand, demands, demands, filter_cons]
  by_cases h : release.ownerId = owner
  · rw [decide_eq_true h, if_pos rfl, if_pos h, map_cons, sum_cons]
  · rw [decide_eq_false h, if_neg Bool.false_ne_true, if_neg h, Nat.zero_add]

variable {releases : List ReleaseProposal}

theorem demands_perm {releases' : List ReleaseProposal} (h : releases.Perm releases') :
    demands releases = demands releases' := by
  funext owner
  exact ((h.filter _).map _).sum_eq

/-- The amounts of some reservations. -/
def total (reservations : List (ℕ × Reservation)) : ℕ :=
  (reservations.map (fun e => e.2.amount)).sum

variable {r : Resource} {emptied : List ℕ}

variable {owned : List (ℕ × Reservation)} {remaining : ℕ} {transactions : List ℕ}
    {release : ReleaseProposal} {l : List Reservation}

theorem Ledger.distinct (h : Ledger r emptied) : holding.Distinct r.reservations := by
  have hkeys : r.reservations.map Prod.fst =
      r.reservations.map fun e => e.2.transactionId :=
    map_congr_left h.keys
  have hnodup := h.nodup
  rw [hkeys] at hnodup
  unfold Distinct
  rw [List.Nodup, pairwise_map] at hnodup ⊢
  exact hnodup.imp fun hne heq => hne (Reservation.transactionId_of_key heq)

theorem Ledger.eq_of_fst (h : Ledger r emptied) {e x : ℕ × Reservation} (he : e ∈ r.reservations)
    (hx : x ∈ r.reservations) (hfst : x.1 = e.1) : x = e :=
  inj_on_of_nodup_map h.nodup hx he hfst

/-! ### One release -/

/-- The loop of a release leaves in each entry what the entry keeps. -/
theorem Ledger.releaseLoop_reservations (h : Ledger r emptied) (hremaining : remaining < 2 ^ 32)
    (hmem : ∀ e ∈ owned, e ∈ r.reservations ∧ e.1 ∉ emptied) (hascending : holding.Ascending owned)
    (hnodup : (owned.map Prod.fst).Nodup) {owner : ObjectId}
    (howner : ∀ e ∈ owned, e.2.ownerId = owner) :
    (Resource.releaseLoop owned remaining r).1.reservations = r.reservations.map fun x =>
      if x ∈ owned then holding.setAmount x (holding.kept owned (fun _ => remaining) x) else x := by
  induction owned generalizing r remaining emptied with
  | nil => simp [Resource.releaseLoop]
  | cons e rest ih =>
    obtain ⟨he, hnew⟩ := hmem e mem_cons_self
    rw [map_cons, nodup_cons] at hnodup
    obtain ⟨hfirst, hrest⟩ := forall_mem_cons.1 howner
    obtain ⟨-, hreservations, hledger⟩ :=
      h.releaseFrom he hnew (Nat.min_le_right remaining e.2.amount)
    have hhead : holding.kept (e :: rest) (fun _ => remaining) e =
        e.2.amount - min remaining e.2.amount := by
      rw [hascending.kept_head]
      show e.2.amount - remaining = _
      omega
    have htail : ∀ x ∈ rest, holding.kept (e :: rest) (fun _ => remaining) x =
        holding.kept rest (fun _ => remaining - min remaining e.2.amount) x := by
      intro x hx
      have hstill : holding.rest (fun _ => remaining) e x.2.ownerId =
          remaining - min remaining e.2.amount := by
        have hgives : holding.owner e = owner := hfirst
        rw [hrest x hx, Allotment.rest, if_pos hgives]
        show remaining - e.2.amount = _
        omega
      rw [hascending.kept_tail hx, kept, kept]
      exact congrArg (fun n => x.2.amount - (n - _)) hstill
    have hne : ∀ x ∈ rest, x.1 ≠ e.1 := fun x hx heq =>
      hnodup.1 (mem_map.mpr ⟨x, hx, heq⟩)
    -- the round has set the amount of `e`
    have hround : (r.releaseFrom e (min remaining e.2.amount)).reservations =
        r.reservations.map fun x =>
          if x = e then holding.setAmount e (e.2.amount - min remaining e.2.amount) else x := by
      rw [hreservations]
      refine map_congr_left fun x hx => ?_
      by_cases hxe : x = e
      · rw [if_pos hxe, if_pos (congrArg Prod.fst hxe), hxe]
        rfl
      · rw [if_neg hxe, if_neg fun hfst => hxe (h.eq_of_fst he hx hfst)]
    rw [h.releaseLoop_cons hremaining he hnew]
    dsimp only
    split
    · rename_i hdone
      rw [hround]
      refine map_congr_left fun x _ => ?_
      by_cases hxe : x = e
      · rw [if_pos hxe, if_pos (hxe ▸ mem_cons_self), hxe, hhead]
      rw [if_neg hxe]
      split
      · rename_i hin
        have hx := (mem_cons.1 hin).resolve_left hxe
        rw [htail x hx, hdone, kept, Nat.zero_sub, Nat.sub_zero, setAmount_amount]
      · rfl
    · have hin : ∀ x ∈ rest, x ∈ (r.releaseFrom e (min remaining e.2.amount)).reservations ∧
          x.1 ∉ emptied ++
            if e.2.amount - min remaining e.2.amount = 0 then [e.2.transactionId] else [] := by
        intro x hx
        obtain ⟨hxr, hxe⟩ := hmem x (mem_cons_of_mem e hx)
        refine ⟨hreservations ▸ mem_setAmount_of_ne hxr (hne x hx), ?_⟩
        rw [mem_append, not_or]
        refine ⟨hxe, ?_⟩
        split
        · rw [mem_singleton, ← h.keys e he]
          exact hne x hx
        · exact not_mem_nil
      rw [ih hledger (by omega) hin (pairwise_cons.1 hascending).2 hnodup.2 hrest, hround,
        map_map]
      refine map_congr_left fun x _ => ?_
      rw [Function.comp_apply]
      by_cases hxe : x = e
      · have hout : holding.setAmount e (e.2.amount - min remaining e.2.amount) ∉ rest :=
          fun hrest => hne _ hrest rfl
        rw [if_pos hxe, if_neg hout, if_pos (hxe ▸ mem_cons_self), hxe, hhead]
      rw [if_neg hxe]
      by_cases hx : x ∈ rest
      · rw [if_pos hx, if_pos (mem_cons_of_mem e hx), htail x hx]
      · rw [if_neg hx, if_neg fun hin => hx ((mem_cons.1 hin).resolve_left hxe)]

theorem eraseAll_reservations : (transactions.foldl Resource.erase r).reservations =
      r.reservations.filter fun e => e.1 ∉ transactions := by
  induction transactions generalizing r with
  | nil => simp
  | cons t transactions ih =>
    rw [foldl_cons, ih, Resource.erase, filter_filter]
    refine filter_congr fun e _ => ?_
    simp [Bool.and_comm]

theorem Ledger.applyRelease_reservations (h : Ledger r []) (hamount : release.amount < 2 ^ 32) :
    (r.applyRelease release).reservations = holding.drain r.reservations (demand release) := by
  have hperm : (insertAll (fun e : ℕ × Reservation => e.2.key) []
      (r.reservations.filter fun e => e.2.ownerId = release.ownerId)).Perm
      (r.reservations.filter fun e => e.2.ownerId = release.ownerId) := insertAll_perm ..
  have hdistinct : holding.Distinct
      (r.reservations.filter fun e => e.2.ownerId = release.ownerId) :=
    h.distinct.sublist (filter_sublist.map _)
  have hascending : holding.Ascending (insertAll (fun e : ℕ × Reservation => e.2.key) []
      (r.reservations.filter fun e => e.2.ownerId = release.ownerId)) := hdistinct.ascending
  unfold Resource.applyRelease
  generalize insertAll (fun e : ℕ × Reservation => e.2.key) [] _ = owned at hperm hascending ⊢
  have hmem (x : ℕ × Reservation) :
      x ∈ owned ↔ x ∈ r.reservations ∧ x.2.ownerId = release.ownerId := by
    rw [hperm.mem_iff, mem_filter, decide_eq_true_eq]
  have hnodup : (owned.map Prod.fst).Nodup :=
    (hperm.map _).nodup_iff.2 ((filter_sublist.map _).nodup h.nodup)
  have hin : ∀ e ∈ owned, e ∈ r.reservations ∧ e.1 ∉ [] := fun e he =>
    ⟨((hmem e).1 he).1, not_mem_nil⟩
  have hledger := h.releaseLoop hamount hin hnodup
  have hloop := h.releaseLoop_reservations hamount hin hascending hnodup fun e he => ((hmem e).1 he).2
  -- the emptied entries are those without an amount
  have hempty : (Resource.releaseLoop owned release.amount r).1.reservations.filter
      (fun e => e.1 ∉ (Resource.releaseLoop owned release.amount r).2) =
      (Resource.releaseLoop owned release.amount r).1.reservations.filter
        fun e => e.2.amount ≠ 0 := by
    refine filter_congr fun e he => decide_eq_decide.2 (not_congr ?_)
    exact (hledger.zero e he).symm
  rw [eraseAll_reservations, hempty, hloop, drain_eq_filter]
  refine congrArg (List.filter _) (map_congr_left fun x hx => ?_)
  by_cases howner : x.2.ownerId = release.ownerId
  · have hdemand : demand release x.2.ownerId = release.amount := if_pos howner.symm
    have hbelow : holding.below owned x.2.ownerId x.2.key =
        holding.below r.reservations x.2.ownerId x.2.key := by
      rw [below_perm hperm, ← howner]
      exact below_filter
    rw [if_pos ((hmem x).2 ⟨hx, howner⟩), kept, kept]
    show holding.setAmount x (x.2.amount - (release.amount - _)) =
      holding.setAmount x (x.2.amount - (demand release x.2.ownerId - _))
    rw [hdemand]
    exact congrArg (fun n => holding.setAmount x (x.2.amount - (release.amount - n))) hbelow
  · have hdemand : demand release x.2.ownerId = 0 := if_neg fun heq => howner heq.symm
    have hkept : holding.kept r.reservations (demand release) x = x.2.amount := by
      show x.2.amount - (demand release x.2.ownerId - _) = x.2.amount
      rw [hdemand, Nat.zero_sub, Nat.sub_zero]
    rw [if_neg fun hx => howner ((hmem x).1 hx).2, hkept]
    rfl

/-! ### The releases of an epoch -/

/-- What a release leaves alone. -/
def Frame (r r' : Resource) : Prop :=
  ∃ reservations active totalReleases wrapped, r' = { r with
    reservations := reservations, activeCapacity := active, totalReleases := totalReleases
    wrapped := wrapped }

theorem Frame.refl (r : Resource) : Frame r r := ⟨_, _, _, _, rfl⟩

theorem Frame.trans {r r' r'' : Resource} (h : Frame r r') (h' : Frame r' r'') : Frame r r'' := by
  obtain ⟨_, _, _, _, rfl⟩ := h
  obtain ⟨_, _, _, _, rfl⟩ := h'
  exact ⟨_, _, _, _, rfl⟩

theorem releaseFrom_frame (e : ℕ × Reservation) (released : ℕ) :
    Frame r (r.releaseFrom e released) := ⟨_, _, _, _, rfl⟩

theorem releaseLoop_frame : Frame r (Resource.releaseLoop owned remaining r).1 := by
  induction owned generalizing r remaining with
  | nil => exact .refl r
  | cons e rest ih =>
    have hround : Frame r { r.releaseFrom e (min remaining e.2.amount) with
        wrapped := ((⟨remaining, (r.releaseFrom e (min remaining e.2.amount)).wrapped⟩ :
          Word 32).sub (min remaining e.2.amount)).wrapped } :=
      (releaseFrom_frame e _).trans ⟨_, _, _, _, rfl⟩
    rw [Resource.releaseLoop]
    split
    · exact hround
    · exact hround.trans ih

theorem eraseAll_frame : Frame r (transactions.foldl Resource.erase r) := by
  induction transactions generalizing r with
  | nil => exact .refl r
  | cons t transactions ih => exact Frame.trans ⟨_, _, _, _, rfl⟩ ih

theorem applyRelease_frame (release : ReleaseProposal) : Frame r (r.applyRelease release) :=
  releaseLoop_frame.trans eraseAll_frame

/-- The state after `n` has been released. -/
def released (r : Resource) (n : ObjectId → ℕ) : Resource :=
  let reservations := holding.drain r.reservations n
  { r with
    reservations := reservations
    activeCapacity := total reservations
    totalReleases := r.totalReleases + UInt64.ofNat (r.activeCapacity - total reservations) }

theorem total_drain_le (reservations : List (ℕ × Reservation)) (n : ObjectId → ℕ) :
    total (holding.drain reservations n) ≤ total reservations := by
  rw [drain_eq_filter]
  refine le_trans (List.Sublist.sum_le_sum (filter_sublist.map _) fun _ _ => Nat.zero_le _) ?_
  rw [map_map]
  exact sum_le_sum fun e _ => Nat.sub_le e.2.amount _

theorem Ledger.applyRelease_eq (h : Ledger r []) (hamount : release.amount < 2 ^ 32) :
    r.applyRelease release = r.released (demand release) := by
  have hafter := h.applyRelease hamount
  have hreservations := h.applyRelease_reservations hamount
  obtain ⟨reservations, active, totalReleases, wrapped, heq⟩ := @applyRelease_frame r release
  rw [heq] at hafter hreservations ⊢
  obtain rfl : reservations = holding.drain r.reservations (demand release) := hreservations
  have hactive : total (holding.drain r.reservations (demand release)) = active := hafter.sum
  have hwrapped : wrapped = r.wrapped := hafter.unwrapped.trans h.unwrapped.symm
  have hle : active ≤ r.activeCapacity := by
    rw [← hactive, ← h.sum]
    exact total_drain_le _ _
  have hbefore := h.counters
  have hcounters : r.totalReservations =
      totalReleases + r.totalCancellations + ofNat active := hafter.counters
  have hreleases : totalReleases = r.totalReleases + ofNat (r.activeCapacity - active) := by
    rw [← ofNat_sub_add hle, hcounters] at hbefore
    refine (UInt64.add_left_inj (r.totalCancellations + ofNat active)).1 ?_
    rw [← UInt64.add_assoc, hbefore]
    ac_rfl
  rw [released, hactive, ← hreleases, hwrapped]

theorem released_released (h : Ledger r []) (m n : ObjectId → ℕ) :
    (r.released m).released n = r.released (m + n) := by
  have hfirst : total (holding.drain r.reservations m) ≤ r.activeCapacity :=
    h.sum ▸ total_drain_le _ _
  have hboth : holding.drain (holding.drain r.reservations m) n =
      holding.drain r.reservations (m + n) := h.distinct.drain_drain
  have hsecond : total (holding.drain r.reservations (m + n)) ≤
      total (holding.drain r.reservations m) := hboth ▸ total_drain_le _ n
  simp only [released, hboth]
  rw [UInt64.add_assoc, ← ofNat_add, Nat.sub_add_sub_cancel hfirst hsecond]

/-- **The releases of an epoch** take their sums from the reservations of the owners. -/
theorem Ledger.applyReleases_eq (h : Ledger r []) (hamounts : ∀ p ∈ releases, p.amount < 2 ^ 32) :
    releases.foldl Resource.applyRelease r = r.released (demands releases) := by
  induction releases generalizing r with
  | nil =>
    have hpositive : ∀ e ∈ r.reservations, holding.amount e ≠ 0 := fun e he hzero =>
      not_mem_nil ((h.zero e he).1 hzero)
    have hnone : demands [] = 0 := rfl
    have hsum : total r.reservations = r.activeCapacity := h.sum
    rw [foldl_nil, hnone, released, drain_zero hpositive, hsum, Nat.sub_self]
    simp
  | cons release releases ih =>
    obtain ⟨hfirst, hrest⟩ := forall_mem_cons.1 hamounts
    rw [foldl_cons, ih (h.applyRelease hfirst) hrest, h.applyRelease_eq hfirst,
      released_released h, demands_cons]

/-! ### The cancellations of an epoch -/

/-- The state after the reservations of some transactions are cancelled. -/
def cancelled (r : Resource) (transactions : List ℕ) : Resource :=
  let reservations := r.reservations.filter fun e => e.1 ∉ transactions
  { r with
    reservations := reservations
    activeCapacity := total reservations
    totalCancellations := r.totalCancellations +
      UInt64.ofNat (r.activeCapacity - total reservations) }

theorem Ledger.applyCancellation_eq (h : Ledger r []) (transactionId : ℕ) :
    r.applyCancellation transactionId = r.cancelled [transactionId] := by
  have hsum : total r.reservations = r.activeCapacity := h.sum
  have hsingle : r.reservations.filter (fun e => e.1 ∉ [transactionId]) =
      r.reservations.filter fun e => e.1 ≠ transactionId := by
    simp
  rw [cancelled, hsingle]
  unfold Resource.applyCancellation
  split
  · rename_i hnone
    have hall : r.reservations.filter (fun e => e.1 ≠ transactionId) = r.reservations := by
      refine filter_eq_self.mpr fun e he => decide_eq_true fun heq => ?_
      have hne := lookup_eq_none_iff.1 hnone e he
      simp [heq] at hne
    rw [hall, hsum, Nat.sub_self]
    simp
  · rename_i reservation hlookup
    have he := mem_of_lookup hlookup
    have hle : reservation.amount ≤ r.activeCapacity := h.sum ▸ amount_le_live he
    have hcapacity := h.capacity
    have hword := h.word
    have hrest : total (r.reservations.filter fun e => e.1 ≠ transactionId) + reservation.amount =
        total r.reservations := sum_map_erase Reservation.amount h.nodup he
    have hactive : r.activeCapacity - reservation.amount =
        total (r.reservations.filter fun e => e.1 ≠ transactionId) := by omega
    have hamount : r.activeCapacity -
        total (r.reservations.filter fun e => e.1 ≠ transactionId) = reservation.amount := by omega
    rw [lose_eq hle (by omega), Resource.erase, hactive, hamount]

/-- **The cancellations of an epoch.** -/
theorem Ledger.applyCancellations_eq (h : Ledger r []) :
    transactions.foldl Resource.applyCancellation r = r.cancelled transactions := by
  induction transactions generalizing r with
  | nil =>
    have hsum : total r.reservations = r.activeCapacity := h.sum
    simp [cancelled, hsum]
  | cons t transactions ih =>
    have hfirst : total (r.reservations.filter fun e => e.1 ∉ [t]) ≤ r.activeCapacity := by
      rw [← h.sum]
      exact List.Sublist.sum_le_sum (filter_sublist.map _) fun _ _ => Nat.zero_le _
    have hboth : (r.reservations.filter fun e => e.1 ∉ [t]).filter (fun e => e.1 ∉ transactions) =
        r.reservations.filter fun e => e.1 ∉ t :: transactions := by
      rw [filter_filter]
      refine filter_congr fun e _ => ?_
      simp [Bool.and_comm]
    have hsecond : total (r.reservations.filter fun e => e.1 ∉ t :: transactions) ≤
        total (r.reservations.filter fun e => e.1 ∉ [t]) := by
      rw [← hboth]
      exact List.Sublist.sum_le_sum (filter_sublist.map _) fun _ _ => Nat.zero_le _
    rw [foldl_cons, ih (h.applyCancellation t), h.applyCancellation_eq]
    simp only [cancelled, hboth]
    rw [UInt64.add_assoc, ← ofNat_add, Nat.sub_add_sub_cancel hfirst hsecond]

theorem cancelled_perm {transactions' : List ℕ} (h : transactions.Perm transactions') :
    r.cancelled transactions = r.cancelled transactions' := by
  have hfilter : r.reservations.filter (fun e => e.1 ∉ transactions) =
      r.reservations.filter fun e => e.1 ∉ transactions' :=
    filter_congr fun e _ => decide_eq_decide.2 (not_congr h.mem_iff)
  simp only [cancelled, hfilter]

/-! ### The reservations of an epoch -/

/-- The accepted reservations are entered. -/
theorem Ledger.applyAccepteds_perm (h : Ledger r []) (he : Enters r l) :
    (l.foldl Resource.applyAccepted r).reservations.Perm
      (l.map (fun p => (p.transactionId, p)) ++ r.reservations) := by
  induction l generalizing r with
  | nil => exact .refl _
  | cons p l ih =>
    obtain ⟨hone, heq, hrest⟩ := h.enter he
    refine (ih hone hrest).trans ?_
    rw [heq, map_cons, cons_append]
    exact ((insertKey_perm ..).append_left _).trans perm_middle

theorem filter_insertKey {α κ : Type} [LinearOrder κ] (key : α → κ) {p : α → Bool} {x : α}
    (hx : p x = false) : ∀ l : List α, (insertKey key x l).filter p = l.filter p
  | [] => by simp [insertKey, hx]
  | y :: l => by
    unfold insertKey
    split
    · simp [hx]
    · rw [filter_cons, filter_cons, filter_insertKey key hx l]

/-- The committed reservations stay as they are when the accepted ones are entered. -/
theorem Ledger.applyAccepteds_filter (h : Ledger r []) (he : Enters r l)
    {p : ℕ × Reservation → Bool} (hp : ∀ q ∈ l, p (q.transactionId, q) = false) :
    (l.foldl Resource.applyAccepted r).reservations.filter p = r.reservations.filter p := by
  induction l generalizing r with
  | nil => rfl
  | cons q l ih =>
    obtain ⟨hq, hl⟩ := forall_mem_cons.1 hp
    obtain ⟨hone, heq, hrest⟩ := h.enter he
    rw [foldl_cons, ih hone hrest hl, heq, filter_insertKey Prod.fst hq]

end Resource

end AgenticCircuit.Gfsim
