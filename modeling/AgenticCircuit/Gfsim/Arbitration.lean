import AgenticCircuit.Gfsim.ResourceReturns
import AgenticCircuit.Gfsim.Scheduler

/-! # Arbitration in the order of the keys

`Resource::doArbitrate` and `Scheduler::doArbitrate` sort what has been proposed and go through it
once.  The keys of proposals that have been admitted are distinct, so the sorted list does not
depend on the order of the proposing calls, and neither does anything that follows from it:
observations, commits, rejections and counters.

A resource accepts what still fits, also after it has rejected something; a scheduler accepts as
many as fit. -/

namespace AgenticCircuit.Gfsim

open List SchedulerEntry Logged

theorem mem_drop_iff {α κ : Type} [LinearOrder κ] {key : α → κ} {l : List α}
    (h : l.Pairwise fun a b => key a < key b) {e : α} (he : e ∈ l) (n : ℕ) :
    e ∈ l.drop n ↔ n ≤ (l.filter fun x => key x < key e).length := by
  induction l generalizing n with
  | nil => exact absurd he not_mem_nil
  | cons a l ih =>
    obtain ⟨ha, hl⟩ := pairwise_cons.1 h
    cases n with
    | zero => simp [he]
    | succ n =>
      rw [drop_succ_cons]
      rcases mem_cons.1 he with rfl | he
      · have hnone : (e :: l).filter (fun x => key x < key e) = [] := by
          refine filter_eq_nil_iff.2 fun x hx hlt => ?_
          rcases mem_cons.1 hx with rfl | hx
          · exact lt_irrefl _ (of_decide_eq_true hlt)
          · exact lt_asymm (ha x hx) (of_decide_eq_true hlt)
        rw [hnone]
        refine iff_of_false (fun hin => ?_) (by simp)
        exact lt_irrefl _ (ha e (mem_of_mem_drop hin))
      · have hbefore : (a :: l).filter (fun x => key x < key e) =
            a :: l.filter fun x => key x < key e :=
          filter_cons_of_pos (decide_eq_true (ha e he))
        rw [ih hl he, hbefore, length_cons]
        omega

/-! ### Resources -/

namespace Resource

/-- Some reservations are proposed; whether all of them have been admitted. -/
def proposeReserves : List Reservation → Resource → Bool × Resource
  | [], r => (true, r)
  | request :: requests, r =>
    let rest := proposeReserves requests (r.proposeReserve request).2
    ((r.proposeReserve request).1 && rest.1, rest.2)

/-- What `proposeReserve` asks of a request. -/
structure Admissible (r : Resource) (request : Reservation) : Prop where
  owner : request.ownerId ≠ kInvalidObjectId
  amount : request.amount ≠ 0
  capacity : request.amount ≤ r.totalCapacity
  times : ¬ request.readyTime < request.issueTime
  live : r.hasReservation request.transactionId = false
  proposed : ∀ p ∈ r.proposals, p.transactionId ≠ request.transactionId

/-- The outcome of proposing some requests in some order, and of their arbitration. -/
structure KeyOrdered (r : Resource) (requests : List Reservation) (epoch : Epoch) : Prop where
  /-- In every other order the requests are admitted as well, and arbitration, with what it observes
  and leaves to Xfer, is the same. -/
  free : ∀ requests' : List Reservation, requests.Perm requests' →
    (proposeReserves requests' r).1 = true ∧
    (proposeReserves requests' r).2.doArbitrate = (proposeReserves requests r).2.doArbitrate
  /-- A request is rejected if it does not fit into what the accepted ones before it leave. -/
  rejects : ∀ s, (proposeReserves requests r).2.doArbitrate.Leaf s → ∀ p ∈ requests,
    (p.transactionId ∈ (s.doXfer epoch).rejectedTransactions ↔
      r.totalCapacity - r.activeCapacity <
        p.amount + ((s.acceptedProposals.filter fun q => q.key < p.key).map
          Reservation.amount).sum)

variable {r : Resource} {request : Reservation} {l requests : List Reservation} {remaining : Word 32}

theorem proposeReserve_iff : (r.proposeReserve request).1 = true ↔ r.Admissible request := by
  unfold proposeReserve
  constructor
  · intro h
    split at h
    · exact absurd h Bool.false_ne_true
    · rename_i hadmitted
      simp only [Bool.or_eq_true, decide_eq_true_eq, not_or, any_eq_true, not_exists, not_and,
        not_lt, Bool.not_eq_true] at hadmitted
      obtain ⟨⟨⟨⟨⟨howner, hamount⟩, hcapacity⟩, htimes⟩, hlive⟩, hproposed⟩ := hadmitted
      exact ⟨howner, hamount, hcapacity, not_lt.2 htimes, hlive, hproposed⟩
  · intro h
    rw [if_neg]
    simp only [Bool.or_eq_true, decide_eq_true_eq, not_or, any_eq_true, not_exists, not_and,
      not_lt, Bool.not_eq_true]
    exact ⟨⟨⟨⟨⟨h.owner, h.amount⟩, h.capacity⟩, not_lt.1 h.times⟩, h.live⟩, h.proposed⟩

theorem proposeReserve_state (h : r.Admissible request) :
    (r.proposeReserve request).2 = { r with proposals := r.proposals ++ [request] } := by
  have hadmitted := proposeReserve_iff.2 h
  unfold proposeReserve at hadmitted ⊢
  split at hadmitted
  · exact absurd hadmitted Bool.false_ne_true
  · rename_i hif
    rw [if_neg hif]

theorem proposeReserves_iff :
    (proposeReserves requests r).1 = true ↔ (∀ request ∈ requests, r.Admissible request) ∧
      (requests.map Reservation.transactionId).Nodup := by
  induction requests generalizing r with
  | nil => simp [proposeReserves]
  | cons request requests ih =>
    rw [proposeReserves, Bool.and_eq_true, proposeReserve_iff, ih, forall_mem_cons,
      map_cons, nodup_cons]
    constructor
    · rintro ⟨hfirst, hrest, hnodup⟩
      rw [proposeReserve_state hfirst] at hrest
      refine ⟨⟨hfirst, fun q hq => ?_⟩, fun hin => ?_, hnodup⟩
      · obtain ⟨howner, hamount, hcapacity, htimes, hlive, hproposed⟩ := hrest q hq
        exact ⟨howner, hamount, hcapacity, htimes, hlive, fun p hp =>
          hproposed p (mem_append_left _ hp)⟩
      · obtain ⟨q, hq, heq⟩ := mem_map.1 hin
        exact (hrest q hq).proposed request (mem_append_right _ (mem_singleton_self _))
          heq.symm
    · rintro ⟨⟨hfirst, hrest⟩, hnew, hnodup⟩
      rw [proposeReserve_state hfirst]
      refine ⟨hfirst, fun q hq => ?_, hnodup⟩
      obtain ⟨howner, hamount, hcapacity, htimes, hlive, hproposed⟩ := hrest q hq
      refine ⟨howner, hamount, hcapacity, htimes, hlive, fun p hp => ?_⟩
      rcases mem_append.1 hp with hp | hp
      · exact hproposed p hp
      · rw [mem_singleton.1 hp]
        exact fun heq => hnew (mem_map.2 ⟨q, hq, heq.symm⟩)

theorem proposeReserves_state (h : (proposeReserves requests r).1 = true) :
    (proposeReserves requests r).2 = { r with proposals := r.proposals ++ requests } := by
  induction requests generalizing r with
  | nil => simp [proposeReserves]
  | cons request requests ih =>
    rw [proposeReserves, Bool.and_eq_true, proposeReserve_iff] at h
    rw [proposeReserves]
    rw [ih h.2, proposeReserve_state h.1]
    simp

/-! #### The loop -/

theorem arbitrate_subset :
    (∀ p ∈ (arbitrate l remaining).1, p ∈ l) ∧ ∀ p ∈ (arbitrate l remaining).2.1, p ∈ l := by
  induction l generalizing remaining with
  | nil => exact ⟨nofun, nofun⟩
  | cons a l ih =>
    unfold arbitrate
    split
    · refine ⟨fun p hp => ?_, fun p hp => mem_cons_of_mem a (ih.2 p hp)⟩
      rcases mem_cons.1 hp with rfl | hp
      · exact mem_cons_self
      · exact mem_cons_of_mem a (ih.1 p hp)
    · refine ⟨fun p hp => mem_cons_of_mem a (ih.1 p hp), fun p hp => ?_⟩
      rcases mem_cons.1 hp with rfl | hp
      · exact mem_cons_self
      · exact mem_cons_of_mem a (ih.2 p hp)

/-- A proposal is rejected if it does not fit into what the accepted ones before it leave. -/
theorem arbitrate_rejects (h : l.Pairwise fun a b => a.key < b.key) (hword : remaining.val < 2 ^ 32)
    {p : Reservation} (hp : p ∈ l) : p ∈ (arbitrate l remaining).2.1 ↔ remaining.val < p.amount +
      (((arbitrate l remaining).1.filter fun q => q.key < p.key).map Reservation.amount).sum := by
  induction l generalizing remaining with
  | nil => exact absurd hp not_mem_nil
  | cons a l ih =>
    obtain ⟨ha, hl⟩ := pairwise_cons.1 h
    have hsubset (w : Word 32) := @arbitrate_subset l w
    -- nothing behind the head is before it
    have hnone (w : Word 32) : (arbitrate l w).1.filter (fun q => q.key < a.key) = [] :=
      filter_eq_nil_iff.2 fun q hq hlt =>
        lt_asymm (ha q ((hsubset w).1 q hq)) (of_decide_eq_true hlt)
    have hself : a ∉ l := fun hin => lt_irrefl _ (ha a hin)
    unfold arbitrate
    split
    · rename_i hle
      rw [Word.sub_eq hle hword]
      rcases mem_cons.1 hp with rfl | hp
      · rw [filter_cons_of_neg (by simp), hnone]
        refine iff_of_false (fun hin => hself ((hsubset _).2 p hin)) ?_
        simpa using hle
      · have hbefore (w : Word 32) : (a :: (arbitrate l w).1).filter (fun q => q.key < p.key) =
            a :: (arbitrate l w).1.filter fun q => q.key < p.key :=
          filter_cons_of_pos (decide_eq_true (ha p hp))
        rw [ih hl (by show remaining.val - a.amount < _; omega) hp, hbefore, map_cons,
          sum_cons]
        show remaining.val - a.amount < _ ↔ _
        omega
    · rename_i hle
      rcases mem_cons.1 hp with rfl | hp
      · rw [hnone]
        refine iff_of_true mem_cons_self ?_
        simpa using hle
      · have hne : p ≠ a := fun heq => hself (by rwa [heq] at hp)
        rw [mem_cons, or_iff_right hne]
        exact ih hl hword hp

/-! #### The order of the calls -/

theorem nodup_keys (h : (l.map Reservation.transactionId).Nodup) :
    (l.map Reservation.key).Nodup := by
  rw [List.Nodup, pairwise_map] at h ⊢
  exact h.imp fun hne heq => hne (Reservation.transactionId_of_key heq)

theorem arbitrated_congr {proposals proposals' : List Reservation}
    (hperm : proposals.Perm proposals') (hnodup : (proposals.map Reservation.transactionId).Nodup) :
    { r with proposals := proposals' }.arbitrated = { r with proposals := proposals }.arbitrated := by
  unfold arbitrated
  rw [insertAll_congr Reservation.key hperm (nodup_keys hnodup)]
  rfl

theorem ResourceInv.keyOrdered (h : ResourceInv r) (hcommitted : Committed r)
    (hadmitted : (proposeReserves requests r).1 = true) (epoch : Epoch) :
    KeyOrdered r requests epoch := by
  obtain ⟨hall, hnodup⟩ := proposeReserves_iff.1 hadmitted
  have hstate := proposeReserves_state hadmitted
  rw [hcommitted.proposals, nil_append] at hstate
  constructor
  · intro requests' hperm
    have hadmitted' : (proposeReserves requests' r).1 = true :=
      proposeReserves_iff.2 ⟨fun q hq => hall q (hperm.mem_iff.2 hq),
        (hperm.map _).nodup_iff.1 hnodup⟩
    have hstate' := proposeReserves_state hadmitted'
    rw [hcommitted.proposals, nil_append] at hstate'
    refine ⟨hadmitted', ?_⟩
    unfold Resource.doArbitrate
    rw [hstate, hstate', arbitrated_congr hperm hnodup]
  · intro s hleaf p hp
    obtain ⟨u, hu, hleaf⟩ := (Body.leaf_bind _).1 hleaf
    obtain ⟨code, rfl⟩ := observeAll_leaf (fun _ _ _ => observeAccepted_leaf) hu
    obtain ⟨code', rfl⟩ := observeAll_leaf (fun _ _ _ => observeRejected_leaf) hleaf
    have hl := h.ledger
    have hcapacity := hl.capacity
    have hword := hl.word
    rw [hstate]
    have havailable : ({ r with proposals := requests } : Resource).availableCapacity =
        ⟨r.totalCapacity - r.activeCapacity, r.wrapped⟩ := Word.sub_eq hcapacity hword
    have hascending := pairwise_lt_insertAll Reservation.key (nodup_keys hnodup)
    have hperm : (insertAll Reservation.key [] requests).Perm requests := insertAll_perm ..
    have hfree : (⟨r.totalCapacity - r.activeCapacity, r.wrapped⟩ : Word 32).val < 2 ^ 32 := by
      show r.totalCapacity - r.activeCapacity < 2 ^ 32
      omega
    have hrejects := arbitrate_rejects hascending hfree (hperm.mem_iff.2 hp)
    show p.transactionId ∈ (arbitrate (insertAll Reservation.key [] requests) _).2.1.map
      Reservation.transactionId ↔ _ < _ + (((arbitrate (insertAll Reservation.key [] requests)
        _).1.filter _).map Reservation.amount).sum
    rw [havailable, ← hrejects]
    refine ⟨fun hin => ?_, mem_map_of_mem⟩
    obtain ⟨q, hq, heq⟩ := mem_map.1 hin
    have hsame : q = p := inj_on_of_nodup_map hnodup
      (hperm.mem_iff.1 (arbitrate_subset.2 q hq)) hp heq
    rwa [hsame] at hq

end Resource

/-! ### Schedulers -/

/-- The arguments of `proposeSchedule`. -/
structure ScheduleRequest (α : Type) where
  value : α
  priority : ℕ
  portIndex : ℕ
  instanceIndex : ℕ
  ownerId : ObjectId
  transactionId : ℕ

variable {α : Type}

def ScheduleRequest.identity (request : ScheduleRequest α) : ObjectId × ℕ :=
  (request.ownerId, request.transactionId)

/-- The entry of a request that is arbitrated at an epoch. -/
def ScheduleRequest.entry (request : ScheduleRequest α) (epoch : Epoch) : SchedulerEntry α :=
  ⟨request.value, request.priority, epoch, request.portIndex, request.instanceIndex,
    request.ownerId, request.transactionId⟩

namespace FiniteScheduler

/-- Some entries are proposed; whether all of them have been admitted. -/
def proposeSchedules : List (ScheduleRequest α) → FiniteScheduler α → Bool × FiniteScheduler α
  | [], s => (true, s)
  | q :: requests, s =>
    let first := s.proposeSchedule q.value q.priority q.portIndex q.instanceIndex q.ownerId
      q.transactionId
    let rest := proposeSchedules requests first.2
    (first.1 && rest.1, rest.2)

/-- A state between two epochs. -/
structure Committed (s : FiniteScheduler α) : Prop where
  proposals : s.proposals = []
  accepted : s.accepted = []
  rejected : s.rejected = []

/-- The outcome of proposing some entries in some order, and of their arbitration. -/
structure KeyOrdered (s : FiniteScheduler α) (requests : List (ScheduleRequest α)) (epoch : Epoch) :
    Prop where
  /-- In every other order the entries are admitted as well, and arbitration, with what it observes
  and leaves to Xfer, is the same. -/
  free : ∀ requests' : List (ScheduleRequest α), requests.Perm requests' →
    (proposeSchedules requests' s).1 = true ∧
    (proposeSchedules requests' s).2.doArbitrate epoch =
      (proposeSchedules requests s).2.doArbitrate epoch
  /-- An entry is rejected if the committed entries and those before it exhaust the capacity. -/
  rejects : ∀ s', ((proposeSchedules requests s).2.doArbitrate epoch).Leaf s' → ∀ q ∈ requests,
    (q.entry epoch ∈ s'.rejected ↔ s.capacity ≤ s.committed.length +
      (requests.filter fun p => (p.entry epoch).key < (q.entry epoch).key).length)

variable {s : FiniteScheduler α} {requests : List (ScheduleRequest α)}

theorem live_perm (s : FiniteScheduler α) (entry : SchedulerEntry α) :
    (live { s with proposals := s.proposals ++ [entry] }).Perm (entry :: live s) := by
  unfold live
  rw [List.append_assoc, singleton_append]
  exact perm_middle

theorem proposeSchedule_eq (q : ScheduleRequest α) :
    s.proposeSchedule q.value q.priority q.portIndex q.instanceIndex q.ownerId q.transactionId =
      if q.ownerId = kInvalidObjectId ∨
          q.identity ∈ (live s).map identity then (false, s)
      else (true, { s with proposals := s.proposals ++ [q.entry ⟨0, 0⟩] }) := by
  unfold proposeSchedule
  have hcondition : (decide (q.ownerId = kInvalidObjectId) ||
      s.containsIdentity q.ownerId q.transactionId) = true ↔
      q.ownerId = kInvalidObjectId ∨ q.identity ∈ (live s).map identity := by
    rw [Bool.or_eq_true, decide_eq_true_eq, containsIdentity_iff]
    exact Iff.rfl
  by_cases h : q.ownerId = kInvalidObjectId ∨
      q.identity ∈ (live s).map identity
  · rw [if_pos h, if_pos (hcondition.2 h)]
  · rw [if_neg h, if_neg fun hin => h (hcondition.1 hin)]
    rfl

theorem proposeSchedules_iff : (proposeSchedules requests s).1 = true ↔
      (∀ q ∈ requests, q.ownerId ≠ kInvalidObjectId ∧ q.identity ∉ (live s).map identity) ∧
      (requests.map ScheduleRequest.identity).Nodup := by
  induction requests generalizing s with
  | nil => simp [proposeSchedules]
  | cons q requests ih =>
    rw [proposeSchedules, Bool.and_eq_true, proposeSchedule_eq, forall_mem_cons,
      map_cons, nodup_cons]
    by_cases h : q.ownerId = kInvalidObjectId ∨
        q.identity ∈ (live s).map identity
    · rw [if_pos h]
      refine iff_of_false (fun hand => Bool.false_ne_true hand.1) ?_
      rintro ⟨⟨⟨howner, hnew⟩, -⟩, -⟩
      exact h.elim howner hnew
    · rw [if_neg h, ih]
      have hlive := (live_perm s (q.entry ⟨0, 0⟩)).map identity
      have hsame : (q.entry ⟨0, 0⟩).identity = q.identity := rfl
      simp only [hlive.mem_iff, map_cons, mem_cons, not_or]
      rw [not_or] at h
      constructor
      · rintro ⟨-, hall, hnodup⟩
        refine ⟨⟨h, fun p hp => ⟨(hall p hp).1, (hall p hp).2.2⟩⟩, fun hin => ?_, hnodup⟩
        obtain ⟨p, hp, heq⟩ := mem_map.1 hin
        exact (hall p hp).2.1 heq
      · rintro ⟨⟨-, hall⟩, hnew, hnodup⟩
        refine ⟨trivial, fun p hp => ⟨(hall p hp).1, fun heq => ?_, (hall p hp).2⟩, hnodup⟩
        exact hnew (mem_map.2 ⟨p, hp, heq⟩)

theorem proposeSchedules_state (h : (proposeSchedules requests s).1 = true) :
    (proposeSchedules requests s).2 =
      { s with proposals := s.proposals ++ requests.map fun q => q.entry ⟨0, 0⟩ } := by
  induction requests generalizing s with
  | nil => simp [proposeSchedules]
  | cons q requests ih =>
    rw [proposeSchedules, Bool.and_eq_true] at h
    rw [proposeSchedules]
    rw [ih h.2]
    have hfirst := h.1
    rw [proposeSchedule_eq] at hfirst ⊢
    split at hfirst
    · exact absurd hfirst Bool.false_ne_true
    · rename_i hadmitted
      rw [if_neg hadmitted]
      simp

/-- The entries are arbitrated as a collection. -/
theorem Committed.keyOrdered (h : Committed s) (hadmitted : (proposeSchedules requests s).1 = true)
    (epoch : Epoch) : KeyOrdered s requests epoch := by
  obtain ⟨hall, hnodup⟩ := proposeSchedules_iff.1 hadmitted
  have hstate {requests : List (ScheduleRequest α)}
      (hadmitted : (proposeSchedules requests s).1 = true) :
      (proposeSchedules requests s).2 =
        { s with proposals := requests.map fun q => q.entry ⟨0, 0⟩ } := by
    rw [proposeSchedules_state hadmitted, h.proposals, nil_append]
  have hentries (requests : List (ScheduleRequest α)) :
      ({ s with proposals := requests.map fun q => q.entry ⟨0, 0⟩ } :
        FiniteScheduler α).sortedProposals epoch =
      insertAll key [] (requests.map fun q => q.entry epoch) := by
    unfold sortedProposals
    rw [map_map]
    rfl
  have hkeys : ((requests.map fun q => q.entry epoch).map key).Nodup := by
    refine nodup_keys ?_
    rw [map_map]
    exact hnodup
  constructor
  · intro requests' hperm
    have hadmitted' : (proposeSchedules requests' s).1 = true :=
      proposeSchedules_iff.2 ⟨fun q hq => hall q (hperm.mem_iff.2 hq),
        (hperm.map _).nodup_iff.1 hnodup⟩
    refine ⟨hadmitted', ?_⟩
    have hsorted := insertAll_congr key (hperm.map fun q => q.entry epoch) hkeys
    have harbitrated : (proposeSchedules requests' s).2.arbitrated epoch =
        (proposeSchedules requests s).2.arbitrated epoch := by
      rw [hstate hadmitted, hstate hadmitted']
      unfold arbitrated acceptedCount
      rw [hentries, hentries, hsorted]
      simp [hperm.length_eq]
    unfold doArbitrate
    rw [harbitrated]
  · intro s' hleaf q hq
    obtain ⟨code, rfl⟩ := doArbitrate_leaf hleaf
    rw [hstate hadmitted]
    have hperm : (insertAll key [] (requests.map fun q => q.entry epoch)).Perm
        (requests.map fun q => q.entry epoch) := insertAll_perm ..
    have hmem : q.entry epoch ∈
        insertAll key [] (requests.map fun q => q.entry epoch) :=
      hperm.mem_iff.2 (mem_map_of_mem hq)
    have hdrop := mem_drop_iff (pairwise_lt_insertAll key hkeys) hmem
    have hbefore : ((insertAll key [] (requests.map fun q => q.entry epoch)).filter
        fun x => x.key < (q.entry epoch).key).length =
        (requests.filter fun p => (p.entry epoch).key < (q.entry epoch).key).length := by
      rw [(hperm.filter _).length_eq, filter_map, length_map]
      rfl
    have hless : (requests.filter fun p =>
        (p.entry epoch).key < (q.entry epoch).key).length < requests.length := by
      refine length_filter_lt_length_iff_exists.2 ⟨q, hq, ?_⟩
      simp
    show q.entry epoch ∈ s.rejected ++ (({ s with
      proposals := requests.map fun q => q.entry ⟨0, 0⟩ } : FiniteScheduler α).sortedProposals
        epoch).drop ({ s with
      proposals := requests.map fun q => q.entry ⟨0, 0⟩ } : FiniteScheduler α).acceptedCount ↔ _
    rw [hentries, h.rejected, nil_append, hdrop, hbefore]
    unfold acceptedCount
    dsimp only
    rw [h.accepted, length_nil, length_map, Nat.add_zero]
    split <;> omega

end FiniteScheduler

/-- **Arbitration follows the keys.**  From every state between two epochs, proposals that have
been admitted are arbitrated alike in whatever order they were made, and each is rejected exactly
when it does not fit behind what precedes it in the order of the keys. -/
theorem arbitration_key_ordered :
    (∀ {id : ObjectId} {totalCapacity : UInt32} {observationSink : Bool} {r : Resource},
      Relation.ReflTransGen Resource.Step
        (Resource.construct id totalCapacity observationSink) r → r.Committed →
      ∀ requests : List Reservation, (Resource.proposeReserves requests r).1 = true →
      ∀ epoch, r.KeyOrdered requests epoch) ∧
    ∀ {α : Type} {s : FiniteScheduler α}, s.Committed →
      ∀ requests : List (ScheduleRequest α), (FiniteScheduler.proposeSchedules requests s).1 = true →
      ∀ epoch, s.KeyOrdered requests epoch := by
  refine ⟨fun hreach hcommitted requests hadmitted epoch => ?_, fun hcommitted requests hadmitted epoch =>
    hcommitted.keyOrdered hadmitted epoch⟩
  exact (Resource.ResourceInv.reachable hreach).keyOrdered hcommitted hadmitted epoch

/-- A request of 6 is rejected after one of 8, and one of 2 still fits; a scheduler with one place
takes the entry of priority 1. -/
theorem arbitration_key_ordered_greedy :
    (Resource.construct 0 10 false).KeyOrdered [requestOf 2 6, requestOf 3 2, requestOf 1 8] ⟨0, 0⟩ ∧
    (FiniteScheduler.construct ℕ 0 1 false).KeyOrdered
      [⟨50, 5, 0, 0, 1, 1⟩, ⟨10, 1, 0, 0, 1, 2⟩] ⟨0, 0⟩ :=
  ⟨arbitration_key_ordered.1 .refl ⟨rfl, rfl, rfl, rfl, rfl⟩ _ (by decide +kernel) _,
    arbitration_key_ordered.2 ⟨rfl, rfl, rfl⟩ _ (by decide +kernel) _⟩

end AgenticCircuit.Gfsim
