import AgenticCircuit.Noc.Registers

/-! # Allocation

The input-queued router.  An egress is allocated to an ingress by an arbiter of its own and
owned until a packet leaves through it; an ingress asks for the switch when it owns an egress.

* **`ownerNext_iff`**, **`pipeNext_iff`**: what one evaluation does to an owner and to a stage.
* **`allocated_step`**: an ingress is at the switch exactly when it owns an egress, and then it
  owns only one, as long as every packet is routed to one egress. -/

namespace AgenticCircuit.Noc

open List
open Dialect (greedyGrants_disjoint roundRobinGrants_eq_true)

/-! ### The arbiters of the egresses -/

section allocation

variable {φ : Type} {depth : ℕ} {n : Scheduler φ} {s : Net φ} {e : NoCEgress} {j k : ℕ}

theorem request_of_greedyGrants {occupied : String → Bool} {candidates : List (Bool × List String)}
    (h : (Dialect.greedyGrants occupied candidates).getD k false = true) :
    ∃ resources, candidates[k]? = some (true, resources) := by
  induction candidates generalizing occupied k with
  | nil => simp [Dialect.greedyGrants] at h
  | cons c rest ih =>
    obtain ⟨request, resources⟩ := c
    rw [Dialect.greedyGrants] at h
    cases k with
    | zero =>
      rw [getD_cons_zero] at h
      obtain rfl : request = true := (Bool.and_eq_true_iff.mp h).1
      exact ⟨resources, rfl⟩
    | succ k =>
      rw [getD_cons_succ] at h
      exact ih h

theorem vaRequest_of_vaGrants (h : (vaGrants n s e).getD k false = true) :
    ∃ i, n.ingresses[k]? = some i ∧ vaRequest n s e i = true := by
  unfold vaGrants at h
  cases harbitration : n.arbitration with
  | greedyFixedPriority =>
    rw [harbitration] at h
    obtain ⟨resources, hk⟩ := request_of_greedyGrants h
    rw [getElem?_map, getElem?_map, Option.map_map, Option.map_eq_some_iff] at hk
    obtain ⟨i, hi, hrequest⟩ := hk
    exact ⟨i, hi, congrArg Prod.fst hrequest⟩
  | roundRobin =>
    rw [harbitration] at h
    have hwinner := find?_some (roundRobinGrants_eq_true h)
    rw [getD_eq_getElem?_getD, getElem?_map] at hwinner
    cases hi : n.ingresses[k]? with
    | none => simp [hi] at hwinner
    | some i =>
      rw [hi] at hwinner
      exact ⟨i, rfl, hwinner⟩

theorem vaGrants_unique (hj : (vaGrants n s e).getD j false = true)
    (hk : (vaGrants n s e).getD k false = true) : j = k := by
  obtain ⟨_, hij, _⟩ := vaRequest_of_vaGrants hj
  obtain ⟨_, hik, _⟩ := vaRequest_of_vaGrants hk
  unfold vaGrants at hj hk
  cases harbitration : n.arbitration with
  | greedyFixedPriority =>
    rw [harbitration] at hj hk
    have hat {l : ℕ} {i : NoCIngress} (h : n.ingresses[l]? = some i) :
        ((n.ingresses.map (vaRequest n s e)).map fun r => (r, [vaPout n.node e.name]))[l]? =
          some (vaRequest n s e i, [vaPout n.node e.name]) := by
      rw [getElem?_map, getElem?_map, h]
      rfl
    -- all candidates use the same resource
    rcases Nat.lt_trichotomy j k with hlt | heq | hgt
    · exact absurd mem_cons_self (greedyGrants_disjoint hlt (hat hij) (hat hik) hj hk _
        mem_cons_self)
    · exact heq
    · exact absurd mem_cons_self (greedyGrants_disjoint hgt (hat hik) (hat hij) hk hj _
        mem_cons_self)
  | roundRobin =>
    rw [harbitration] at hj hk
    exact Option.some.inj ((roundRobinGrants_eq_true hj).symm.trans (roundRobinGrants_eq_true hk))

/-- The owner after the grants of the arbiter. -/
theorem owner_of_grants (grants : List Bool) (start : ℤ) (offset : ℕ) :
    (∀ k, grants.getD k false = false) ∧
        (grants.zipIdx offset).foldl
          (fun owner x => if x.1 then ((x.2 + 1 : ℕ) : ℤ) else owner) start = start ∨
      ∃ k, grants.getD k false = true ∧ (grants.zipIdx offset).foldl
          (fun owner x => if x.1 then ((x.2 + 1 : ℕ) : ℤ) else owner) start =
        (offset + k + 1 : ℕ) := by
  induction grants generalizing start offset with
  | nil => exact .inl ⟨fun k => by simp, rfl⟩
  | cons grant rest ih =>
    rw [zipIdx_cons, foldl_cons]
    rcases ih (if grant = true then ((offset + 1 : ℕ) : ℤ) else start) (offset + 1) with
      ⟨hnone, hfold⟩ | ⟨k, hk, hfold⟩
    · rw [hfold]
      cases grant with
      | false =>
        refine .inl ⟨fun k => ?_, rfl⟩
        cases k with
        | zero => rfl
        | succ k => exact hnone k
      | true => exact .inr ⟨0, rfl, rfl⟩
    · rw [hfold]
      refine .inr ⟨k + 1, hk, ?_⟩
      rw [show offset + 1 + k + 1 = offset + (k + 1) + 1 by omega]

/-- What happens to the owner of an egress: a packet leaves through it, it is allocated, or the
owner stays. -/
theorem ownerNext_cases (depth : ℕ) (n : Scheduler φ) (s : Net φ) (e : NoCEgress) :
    (firedInto depth n s (saRequests depth n s) e = true ∧
        ownerNext depth n s e = if creditEgress n e then iqWaitCredit else 0) ∨
      firedInto depth n s (saRequests depth n s) e = false ∧
        ((∀ k, (vaGrants n s e).getD k false = false) ∧
            ownerNext depth n s e = ownerEffective n s e ∨
          ∃ k, (vaGrants n s e).getD k false = true ∧ ownerNext depth n s e = (k + 1 : ℕ)) := by
  unfold ownerNext
  cases hfired : firedInto depth n s (saRequests depth n s) e with
  | true => exact .inl ⟨rfl, by rw [if_pos rfl]⟩
  | false =>
    refine .inr ⟨rfl, ?_⟩
    rw [if_neg (by decide)]
    rcases owner_of_grants (vaGrants n s e) (ownerEffective n s e) 0 with h | ⟨k, hk, hfold⟩
    · exact .inl h
    · rw [Nat.zero_add] at hfold
      exact .inr ⟨k, hk, hfold⟩

/-! ### The stages of an input-queued router -/

section stages

variable {i : NoCIngress}

section

variable (hpipeline : n.timing.routerPipeline = .inputQueued) (htidy : n.Tidy)
    (hdistinct : n.Distinct)

include hpipeline htidy hdistinct

theorem firedFrom_owner (hk : n.ingresses[k]? = some i) :
    firedFrom depth n s (saRequests depth n s) i = true ↔
      ∃ e ∈ n.egresses, firedInto depth n s (saRequests depth n s) e = true ∧
        ownerEffective n s e = (k + 1 : ℕ) := by
  have hi : i ∈ n.ingresses := mem_of_getElem? hk
  have hrequests : transferRequests depth n s = saRequests depth n s := by
    unfold transferRequests
    rw [hpipeline]
  have hplace {j : ℕ} (hj : n.ingresses[j]? = some i) : j = k :=
    (getElem?_inj (List.getElem?_eq_some_iff.mp hj).1
      (List.Nodup.of_map _ htidy.ingresses)).mp (hj.trans hk.symm)
  have hfrom : firedFrom depth n s (transferRequests depth n s) i = true ↔ _ :=
    firedFrom_iff htidy hdistinct hi
  rw [hrequests] at hfrom
  rw [hfrom]
  constructor
  · rintro ⟨e, he, hmoves⟩
    have hinto : firedInto depth n s (transferRequests depth n s) e = true ↔ _ :=
      firedInto_iff htidy hdistinct he
    have hrequest := hmoves.requested htidy hdistinct he hi
    rw [hrequests] at hinto hrequest
    obtain ⟨_, _, _, j, hj, howner⟩ := owns_of_saRequests hrequest
    rw [hplace hj] at howner
    exact ⟨e, he, hinto.mpr ⟨i, hi, hmoves⟩, howner⟩
  · rintro ⟨e, he, hfired, howner⟩
    have hinto : firedInto depth n s (transferRequests depth n s) e = true ↔ _ :=
      firedInto_iff htidy hdistinct he
    rw [hrequests] at hinto
    obtain ⟨i', hi', hmoves⟩ := hinto.mp hfired
    have hrequest := hmoves.requested htidy hdistinct he hi'
    rw [hrequests] at hrequest
    obtain ⟨_, _, _, j, hj, howner'⟩ := owns_of_saRequests hrequest
    obtain rfl : j = k := by omega
    rw [hk] at hj
    rw [Option.some.inj hj]
    exact ⟨e, he, hmoves⟩

/-- A packet leaves an ingress at the last stage. -/
theorem pipeEffective_of_fired (hi : i ∈ n.ingresses)
    (h : firedFrom depth n s (saRequests depth n s) i = true) : pipeEffective n s i = iqSaBase := by
  have hrequests : transferRequests depth n s = saRequests depth n s := by
    unfold transferRequests
    rw [hpipeline]
  rw [← hrequests, firedFrom_iff htidy hdistinct hi] at h
  obtain ⟨e, he, hmoves⟩ := h
  have hrequest := hmoves.requested htidy hdistinct he hi
  rw [hrequests] at hrequest
  exact (owns_of_saRequests hrequest).2.2.1

theorem owner_of_fired (he : e ∈ n.egresses)
    (h : firedInto depth n s (saRequests depth n s) e = true) :
    ∃ j, ownerEffective n s e = (j + 1 : ℕ) := by
  have hrequests : transferRequests depth n s = saRequests depth n s := by
    unfold transferRequests
    rw [hpipeline]
  rw [← hrequests, firedInto_iff htidy hdistinct he] at h
  obtain ⟨i, hi, hmoves⟩ := h
  have hrequest := hmoves.requested htidy hdistinct he hi
  rw [hrequests] at hrequest
  obtain ⟨_, _, _, j, _, howner⟩ := owns_of_saRequests hrequest
  exact ⟨j, howner⟩

end

theorem free_of_vaGrants (hk : n.ingresses[k]? = some i)
    (h : (vaGrants n s e).getD k false = true) : routeRequest n s e i = true ∧
      pipeEffective n s i = iqVaBase ∧ ownerEffective n s e = 0 := by
  obtain ⟨i', hi', hrequest⟩ := vaRequest_of_vaGrants h
  obtain rfl : i = i' := Option.some.inj (hk.symm.trans hi')
  simp only [vaRequest, Bool.and_eq_true, decide_eq_true_eq] at hrequest
  exact ⟨hrequest.1.1, hrequest.1.2, hrequest.2⟩

theorem ownerNext_iff (depth : ℕ) (hk : n.ingresses[k]? = some i) :
    ownerNext depth n s e = (k + 1 : ℕ) ↔ firedInto depth n s (saRequests depth n s) e = false ∧
        ((vaGrants n s e).getD k false = true ∨ ownerEffective n s e = (k + 1 : ℕ)) := by
  rcases ownerNext_cases depth n s e with
    ⟨hfired, hnext⟩ | ⟨hfired, ⟨hnone, hnext⟩ | ⟨j, hj, hnext⟩⟩
  · rw [hnext, hfired]
    have hrelease : (if creditEgress n e = true then iqWaitCredit else 0) ≠ ((k + 1 : ℕ) : ℤ) := by
      unfold iqWaitCredit
      split <;> omega
    exact iff_of_false hrelease (by simp)
  · rw [hnext, hfired, hnone k]
    simp
  · rw [hnext, hfired]
    constructor
    · intro heq
      obtain rfl : j = k := by omega
      exact ⟨rfl, .inl hj⟩
    · rintro ⟨_, hgrant | howner⟩
      · rw [vaGrants_unique hj hgrant]
      · obtain ⟨_, _, hrequest⟩ := vaRequest_of_vaGrants hj
        simp only [vaRequest, Bool.and_eq_true, decide_eq_true_eq] at hrequest
        omega

theorem pipeNext_iff (depth : ℕ) (hdelay : n.timing.vcAllocDelay ≤ 64) :
    iqSaBase ≤ pipeNext depth n s i k ↔ firedFrom depth n s (saRequests depth n s) i = false ∧
        (vaGranted n s k = true ∨ iqSaBase ≤ pipeEffective n s i) := by
  unfold pipeNext iqSaBase iqVaBase
  cases firedFrom depth n s (saRequests depth n s) i with
  | true => simp
  | false =>
    rw [if_neg (by decide)]
    cases vaGranted n s k with
    | true =>
      simp only [if_true, true_or, and_self, iff_true]
      omega
    | false =>
      simp only [Bool.false_eq_true, if_false, false_or, true_and]
      split
      · rename_i hstart
        rw [Bool.and_eq_true, decide_eq_true_eq] at hstart
        omega
      · rfl

/-- An ingress is at the switch if it owns an egress, and owns no second one. -/
structure Allocated (n : Scheduler φ) (owner : NoCEgress → ℤ) (stage : NoCIngress → ℤ) : Prop where
  owns : ∀ {k i}, n.ingresses[k]? = some i →
    (iqSaBase ≤ stage i ↔ ∃ e ∈ n.egresses, owner e = (k + 1 : ℕ))
  unique : ∀ {k i e e'}, n.ingresses[k]? = some i → e ∈ n.egresses → e' ∈ n.egresses →
    owner e = (k + 1 : ℕ) → owner e' = (k + 1 : ℕ) → e = e'

theorem allocated_step (hpipeline : n.timing.routerPipeline = .inputQueued) (htidy : n.Tidy)
    (hdistinct : n.Distinct) (hdelay : n.timing.vcAllocDelay ≤ 64)
    (hroute : ∀ {e e' i}, e ∈ n.egresses → e' ∈ n.egresses → routeRequest n s e i = true →
      routeRequest n s e' i = true → e = e')
    (h : Allocated n (ownerEffective n s) (pipeEffective n s))
    {owner : NoCEgress → ℤ} {stage : NoCIngress → ℤ}
    (howner : ∀ e ∈ n.egresses, owner e = ownerNext depth n s e)
    (hstage : ∀ {k i}, n.ingresses[k]? = some i → stage i = pipeNext depth n s i k) :
    Allocated n owner stage := by
  constructor
  · intro k i hk
    have hi : i ∈ n.ingresses := mem_of_getElem? hk
    have hfrom : firedFrom depth n s (saRequests depth n s) i = true ↔ _ :=
      firedFrom_owner hpipeline htidy hdistinct hk
    rw [hstage hk, pipeNext_iff depth hdelay]
    constructor
    · rintro ⟨hstays, hgranted | hsa⟩
      · obtain ⟨e, he, hgrant⟩ := any_eq_true.mp hgranted
        refine ⟨e, he, ?_⟩
        rw [howner e he, ownerNext_iff depth hk]
        refine ⟨Bool.eq_false_iff.mpr fun hfired => ?_, .inl hgrant⟩
        obtain ⟨j, hj⟩ := owner_of_fired hpipeline htidy hdistinct he hfired
        have hfree := (free_of_vaGrants hk hgrant).2.2
        omega
      · obtain ⟨e, he, heq⟩ := (h.owns hk).mp hsa
        refine ⟨e, he, ?_⟩
        rw [howner e he, ownerNext_iff depth hk]
        refine ⟨Bool.eq_false_iff.mpr fun hfired => ?_, .inr heq⟩
        rw [hfrom.mpr ⟨e, he, hfired, heq⟩] at hstays
        cases hstays
    · rintro ⟨e, he, heq⟩
      rw [howner e he, ownerNext_iff depth hk] at heq
      obtain ⟨hnot, hgrant | heq⟩ := heq
      · refine ⟨Bool.eq_false_iff.mpr fun hfired => ?_, .inl (any_eq_true.mpr ⟨e, he, hgrant⟩)⟩
        have hva := (free_of_vaGrants hk hgrant).2.1
        rw [pipeEffective_of_fired hpipeline htidy hdistinct hi hfired] at hva
        exact absurd hva (by decide)
      · refine ⟨Bool.eq_false_iff.mpr fun hfired => ?_, .inr ((h.owns hk).mpr ⟨e, he, heq⟩)⟩
        obtain ⟨e', he', hfired', heq'⟩ := hfrom.mp hfired
        rw [h.unique hk he he' heq heq', hfired'] at hnot
        cases hnot
  · intro k i e e' hk he he' heq heq'
    rw [howner e he, ownerNext_iff depth hk] at heq
    rw [howner e' he', ownerNext_iff depth hk] at heq'
    -- an ingress that is granted an egress does not own one yet
    have hearly {e e' : NoCEgress} (hgrant : (vaGrants n s e).getD k false = true)
        (he' : e' ∈ n.egresses) (heq' : ownerEffective n s e' = (k + 1 : ℕ)) : False := by
      have hsa := (h.owns hk).mpr ⟨e', he', heq'⟩
      rw [(free_of_vaGrants hk hgrant).2.1] at hsa
      exact absurd hsa (by decide)
    obtain ⟨_, hgrant | heq⟩ := heq
    · obtain ⟨_, hgrant' | heq'⟩ := heq'
      · exact hroute he he' (free_of_vaGrants hk hgrant).1 (free_of_vaGrants hk hgrant').1
      · exact (hearly hgrant he' heq').elim
    · obtain ⟨_, hgrant' | heq'⟩ := heq'
      · exact (hearly hgrant' he heq).elim
      · exact h.unique hk he he' heq heq'

end stages

end allocation

end AgenticCircuit.Noc
