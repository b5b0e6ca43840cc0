import AgenticCircuit.Gfsim.ResourceReturns

/-! # Releases and new reservations of one epoch

A release is admitted against the committed reservations of its owner.  Xfer enters the accepted
reservations first, and a release then goes through all reservations of the owner in the order of
`reservationLess`: a new reservation that comes early in that order gives before the committed ones
after it.

`SnapshotReleased` says that the releases are taken from the committed reservations, in order, and
that every accepted reservation is there with its full amount; `snapshot_released_iff` says when. -/

namespace AgenticCircuit.Gfsim

open List Resource

namespace Resource

/-- Xfer takes the releases from the committed reservations, in the order of `reservationLess`, and
enters the accepted reservations with their amounts. -/
structure SnapshotReleased (r : Resource) (epoch : Epoch) : Prop where
  granted : ∀ p ∈ r.acceptedProposals, (p.transactionId, p) ∈ (r.doXfer epoch).reservations
  taken : (r.doXfer epoch).reservations.filter (fun e => r.hasReservation e.1) =
    holding.drain r.reservations (demands r.releaseProposals)
  amounts : ∀ owner, total ((r.doXfer epoch).reservations.filter fun e =>
    r.hasReservation e.1 && e.2.ownerId = owner) + demands r.releaseProposals owner = r.held owner

/-- Before each accepted reservation, the committed reservations of its owner hold what the owner
releases. -/
def Covered (r : Resource) : Prop :=
  ∀ p ∈ r.acceptedProposals,
    demands r.releaseProposals p.ownerId ≤
      total (r.reservations.filter fun e => e.2.ownerId = p.ownerId ∧ e.2.key < p.key)

variable {r : Resource}

/-! ### Releases are admitted against the snapshot -/

/-- The committed reservations hold the pending releases. -/
def Holds (r : Resource) : Prop := ∀ owner, demands r.releaseProposals owner ≤ r.held owner

theorem Holds.step {r' : Resource} (hinv : ResourceInv r) (h : Holds r) (hstep : Step r r') :
    Holds r' := by
  have hempty : ∀ {r' : Resource}, r'.releaseProposals = [] → Holds r' := fun hnone owner => by
    rw [hnone]
    exact Nat.zero_le _
  cases hstep with
  | proposeReserve request =>
    unfold proposeReserve
    split <;> exact h
  | proposeRelease owner amount =>
    rw [hinv.proposeRelease_eq]
    split
    · exact h
    · rename_i hadmitted
      rw [not_or, not_lt] at hadmitted
      have howned : (r.ownedAmounts owner).sum ≤ r.held owner := by
        refine List.Sublist.sum_le_sum (List.Sublist.map _ ?_) fun _ _ => Nat.zero_le _
        refine monotone_filter_right _ fun e he => ?_
        rw [Bool.and_eq_true] at he
        exact he.1
      intro o
      have hperm : (r.releaseProposals ++ [(⟨owner, amount⟩ : ReleaseProposal)]).Perm
          (⟨owner, amount⟩ :: r.releaseProposals) := perm_append_singleton _ _
      show demands (r.releaseProposals ++ [⟨owner, amount⟩]) o ≤ r.held o
      rw [demands_perm hperm, demands_cons, Pi.add_apply]
      by_cases howner : owner = o
      · have hdemand : demand ⟨owner, amount⟩ o = amount := if_pos howner
        subst howner
        omega
      · have hdemand : demand ⟨owner, amount⟩ o = 0 := if_neg howner
        rw [hdemand, Nat.zero_add]
        exact h o
  | proposeCancel owner transactionId =>
    unfold proposeCancel
    split
    · exact h
    · split <;> exact h
  | doArbitrate hleaf =>
    obtain ⟨u, hu, hleaf⟩ := (Body.leaf_bind _).mp hleaf
    obtain ⟨code, rfl⟩ := observeAll_leaf (fun _ _ _ => observeAccepted_leaf) hu
    obtain ⟨code', rfl⟩ := observeAll_leaf (fun _ _ _ => observeRejected_leaf) hleaf
    exact h
  | doXfer epoch | reset => exact hempty rfl

theorem Holds.reachable {id : ObjectId} {totalCapacity : UInt32} {observationSink : Bool}
    (h : Relation.ReflTransGen Step (construct id totalCapacity observationSink) r) : Holds r := by
  induction h with
  | refl => exact fun owner => Nat.zero_le _
  | tail hreach hstep ih => exact ih.step (.reachable hreach) hstep

/-! ### Xfer -/

/-- The entries of the accepted reservations. -/
def granted (r : Resource) : List (ℕ × Reservation) :=
  r.acceptedProposals.map fun p => (p.transactionId, p)

/-- The reservations after an Xfer without cancellations. -/
theorem ResourceInv.doXfer_perm (h : ResourceInv r) (hcancel : r.cancellationProposals = [])
    (epoch : Epoch) :
    ∃ entered : List (ℕ × Reservation), entered.Perm (r.granted ++ r.reservations) ∧
      (entered.map Prod.fst).Nodup ∧ entered.filter (fun e => r.hasReservation e.1) =
        r.reservations ∧
      (r.doXfer epoch).reservations = holding.drain entered (demands r.releaseProposals) := by
  have hledger := h.ledger.applyAccepteds h.enters
  refine ⟨_, h.ledger.applyAccepteds_perm h.enters, hledger.nodup, ?_, ?_⟩
  · rw [h.ledger.applyAccepteds_filter h.enters]
    · refine filter_eq_self.2 fun e he => ?_
      exact Option.isSome_iff_ne_none.2 fun hnone => by
        have hne := lookup_eq_none_iff.1 hnone e he
        simp at hne
    · intro p hp
      refine Option.isSome_eq_false_iff.2 (Option.isNone_iff_eq_none.2 ?_)
      refine lookup_eq_none_iff.2 fun e he => ?_
      simpa using ((h.enters.proposals p hp).2.2 e he).symm
  show r.applied.reservations = _
  rw [Resource.applied, hcancel, foldl_nil, hledger.applyReleases_eq h.releases]
  rfl

theorem mem_drain_iff {entered : List (ℕ × Reservation)} (hnodup : (entered.map Prod.fst).Nodup)
    {n : ObjectId → ℕ} {e : ℕ × Reservation} (he : e ∈ entered) (hpos : e.2.amount ≠ 0) :
    e ∈ holding.drain entered n ↔ holding.kept entered n e = holding.amount e := by
  rw [Allotment.mem_drain]
  constructor
  · rintro ⟨x, hx, -, heq⟩
    have hfst : x.1 = e.1 := (congrArg Prod.fst heq).symm
    obtain rfl : x = e := inj_on_of_nodup_map hnodup hx he hfst
    exact (congrArg holding.amount heq).symm
  · intro hkept
    refine ⟨e, he, ?_, ?_⟩
    · rw [hkept]
      exact hpos
    · rw [hkept, Allotment.setAmount_amount]

theorem covered_iff :
    Covered r ↔ holding.Covers r.reservations (demands r.releaseProposals) r.granted := by
  have hbelow (p : Reservation) :
      total (r.reservations.filter fun e => e.2.ownerId = p.ownerId ∧ e.2.key < p.key) =
        holding.below r.reservations p.ownerId p.key :=
    congrArg total (filter_congr fun e _ =>
      decide_eq_decide.2 (and_congr_right fun _ => WithTop.coe_lt_coe.symm))
  constructor
  · intro h e he
    obtain ⟨p, hp, rfl⟩ := mem_map.1 he
    exact (h p hp).trans_eq (hbelow p)
  · intro h p hp
    exact (h _ (mem_map_of_mem hp)).trans_eq (hbelow p).symm

end Resource

/-- **Releases from the snapshot.**  In an epoch without cancellations, Xfer takes the releases from
the committed reservations and enters the accepted reservations in full exactly when before each
accepted reservation the committed ones of its owner hold what the owner releases. -/
theorem snapshot_released_iff {id : ObjectId} {totalCapacity : UInt32} {observationSink : Bool}
    {r : Resource} (hreach : Relation.ReflTransGen Step
      (construct id totalCapacity observationSink) r)
    (hcancel : r.cancellationProposals = []) (epoch : Epoch) :
    r.SnapshotReleased epoch ↔ r.Covered := by
  have hinv := ResourceInv.reachable hreach
  have hholds := Holds.reachable hreach
  obtain ⟨entered, hperm, hnodup, hold, hafter⟩ := hinv.doXfer_perm hcancel epoch
  have hkept := Allotment.kept_perm (H := holding) (n := demands r.releaseProposals)
    hperm
  rw [covered_iff]
  -- an accepted reservation has an amount and stands in what Xfer enters
  have hgranted : ∀ p ∈ r.acceptedProposals, p.amount ≠ 0 ∧ (p.transactionId, p) ∈ entered :=
    fun p hp => ⟨(hinv.proposals p (hinv.accepted p hp)).2.1.ne',
      hperm.mem_iff.2 (mem_append_left _ (mem_map_of_mem hp))⟩
  constructor
  · intro h
    refine Allotment.covers_of_kept fun e he => ?_
    obtain ⟨p, hp, rfl⟩ := mem_map.1 he
    obtain ⟨hpos, hin⟩ := hgranted p hp
    have hpresent := h.granted p hp
    rw [hafter, mem_drain_iff hnodup hin hpos, hkept] at hpresent
    exact ⟨hpos, hpresent⟩
  · intro hcovers
    have htaken : (r.doXfer epoch).reservations.filter (fun e => r.hasReservation e.1) =
        holding.drain r.reservations (demands r.releaseProposals) := by
      rw [hafter, Allotment.drain, hkept, filter_filterMap]
      conv_rhs => rw [Allotment.drain, ← hold, filterMap_filter]
      refine filterMap_congr fun e _ => ?_
      rw [hcovers.kept_old e, hold]
      by_cases hcommitted : r.hasReservation e.1 = true
      · split
        · rfl
        · exact Option.filter_some_pos hcommitted
      · split
        · rfl
        · exact Option.filter_some_neg (eq_false_of_ne_true hcommitted)
    refine ⟨fun p hp => ?_, htaken, fun owner => ?_⟩
    · obtain ⟨hpos, hin⟩ := hgranted p hp
      rw [hafter, mem_drain_iff hnodup hin hpos, hkept]
      exact hcovers.kept_new (mem_map_of_mem hp)
    · have hfilter : (r.doXfer epoch).reservations.filter
          (fun e => r.hasReservation e.1 && e.2.ownerId = owner) =
          (holding.drain r.reservations (demands r.releaseProposals)).filter
            fun e => e.2.ownerId = owner := by
        rw [← htaken, filter_filter]
        exact filter_congr fun e _ => Bool.and_comm _ _
      have hheld := hholds owner
      have hdrained : total ((holding.drain r.reservations
          (demands r.releaseProposals)).filter fun e => e.2.ownerId = owner) =
          r.held owner - demands r.releaseProposals owner := by
        rw [held_eq, ← hinv.ledger.distinct.below_drain]
        refine congrArg total (filter_congr fun e _ => decide_eq_decide.2 ?_)
        exact (and_iff_left (WithTop.coe_lt_top _)).symm
      rw [hfilter, hdrained]
      omega

/-- Owner 1 holds 6 under transaction 5, has 2 more accepted under another and releases 3. -/
def Resource.renewed (transactionId : ℕ) : Resource :=
  let committed := ((construct 0 10 false).proposeReserve (requestOf 5 6)).2.commit ⟨0, 0⟩
  let proposed := ((committed.proposeReserve (requestOf transactionId 2)).2.proposeRelease 1 3).2
  (proposed.doArbitrate.exec (Config.ofKinds []) {}).2

theorem Resource.renewed_reachable (transactionId : ℕ) : Relation.ReflTransGen Step
    (construct 0 10 false) (renewed transactionId) :=
  .tail (.tail (.tail (.tail (.tail (.single (.proposeReserve _)) (.doArbitrate (Body.exec_leaf _ _ _)))
    (.doXfer _)) (.proposeReserve _)) (.proposeRelease _ _)) (.doArbitrate (Body.exec_leaf _ _ _))

/-- The new transaction is after the committed one, which gives. -/
theorem snapshot_released_later : (renewed 7).SnapshotReleased ⟨1, 0⟩ := by
  refine (snapshot_released_iff (renewed_reachable 7) (by decide +kernel) ⟨1, 0⟩).2
    fun p hp => ?_
  have haccepted : (renewed 7).acceptedProposals = [requestOf 7 2] := by decide +kernel
  rw [haccepted, mem_singleton] at hp
  subst hp
  decide +kernel

/-- The new transaction is before the committed one: it gives its 2, and the committed one 1. -/
theorem grant_released :
    Relation.ReflTransGen Step (construct 0 10 false) (renewed 4) ∧
    (renewed 4).acceptedProposals = [requestOf 4 2] ∧
    (renewed 4).releaseProposals = [⟨1, 3⟩] ∧
    (renewed 4).cancellationProposals = [] ∧
    ((renewed 4).doXfer ⟨1, 0⟩).reservations = [(5, requestOf 5 5)] ∧
    ¬ (renewed 4).SnapshotReleased ⟨1, 0⟩ := by
  have haccepted : (renewed 4).acceptedProposals = [requestOf 4 2] := by decide +kernel
  have hafter : ((renewed 4).doXfer ⟨1, 0⟩).reservations = [(5, requestOf 5 5)] := by
    decide +kernel
  refine ⟨renewed_reachable 4, haccepted, by decide +kernel, by decide +kernel, hafter, ?_⟩
  intro hsnapshot
  have hgranted := hsnapshot.granted (requestOf 4 2) (haccepted ▸ mem_singleton_self _)
  rw [hafter] at hgranted
  exact absurd hgranted (by decide +kernel)

end AgenticCircuit.Gfsim
