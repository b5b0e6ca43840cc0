import AgenticCircuit.Noc.Network

/-! # When a transfer fires

A scheduler whose arbiter is asked for anything fires a transfer (`fires_of_request`).  In a
single-stage router without credits the arbiter is asked whenever a packet at the head of an
ingress is routed to an egress with room, under either arbitration (`fires_of_route`): the
round robin chooses a request because its pointer always names an ingress (`PointersInRange`). -/

namespace AgenticCircuit.Noc

open List
open Dialect (Policy)
open FifoNetwork (Flit Traffic Routes)
open Relation (ReflTransGen)

variable {φ : Type} {depth : ℕ} {N : Network φ} {n : Scheduler φ} {s t : Net φ} {e : NoCEgress}
  {i : NoCIngress}

theorem writable_iff : writable depth s e = true ↔ (s.traffic.queues e.queue).length < depth := by
  unfold writable space
  rw [decide_eq_true_eq]
  split
  · rename_i h
    omega
  · rename_i h
    omega

theorem fires_of_request (hdistinct : n.Distinct) (he : e ∈ n.egresses)
    (h : (i, true) ∈ n.ingresses.zip (transferRequests depth n s e)) :
    (evaluate depth n s).moves ≠ [] := by
  have hc := mem_candidates.mpr ⟨e, he, (i, true), h, rfl⟩
  obtain ⟨x, hx, hgrant, _⟩ := exists_grant hc rfl
  have hrequest := request_of_greedy hx hgrant
  obtain ⟨e', he', y, hy, hxy⟩ := mem_candidates.mp (mem_of_mem_zip hx)
  rw [hxy] at hrequest
  obtain ⟨hroute, hroom⟩ := transferRequests_route hy hrequest
  unfold routeRequest at hroute
  cases hhead : (s.traffic.queues y.1.queue).head? with
  | none => simp [hhead] at hroute
  | some a =>
    have hmem : (y.1.queue, e'.queue, a) ∈ (evaluate depth n s).moves := by
      rw [evaluate_moves, hdistinct.ported.mem_moves]
      refine ⟨x, hx, hgrant, ?_, ?_, hhead, writable_iff.mp hroom⟩
      · rw [hxy]
      · rw [hxy]
    exact ne_nil_of_mem hmem

/-! ### The round robin -/

theorem earlierPositions_eq {count start k : ℕ} (hstart : start < count) (hk : k < count) :
    earlierPositions count start ((start + k) % count) =
      (List.range k).map fun j => (start + j) % count := by
  have hoffset : ((start + k) % count + count - start) % count = k := by
    rcases Nat.lt_or_ge (start + k) count with hlt | hge
    · rw [Nat.mod_eq_of_lt hlt, show start + k + count - start = k + count by omega,
        Nat.add_mod_right, Nat.mod_eq_of_lt hk]
    · rw [Nat.mod_eq_sub_mod hge, Nat.mod_eq_of_lt (show start + k - count < count by omega),
        show start + k - count + count - start = k by omega, Nat.mod_eq_of_lt hk]
  rw [earlierPositions, hoffset]

theorem exists_rrSelected {requests : List Bool} {start target : ℕ}
    (hstart : start < requests.length) (hrequest : requests[target]? = some true) :
    ∃ chosen < requests.length, rrSelected requests start chosen = true := by
  have htarget : target < requests.length := (List.getElem?_eq_some_iff.mp hrequest).1
  -- the first request at or after the pointer
  have hexists : ∃ k, k < requests.length ∧
      requests.getD ((start + k) % requests.length) false = true := by
    rcases Nat.lt_or_ge target start with hlt | hge
    · refine ⟨target + requests.length - start, by omega, ?_⟩
      rw [show start + (target + requests.length - start) = target + requests.length by omega,
        Nat.add_mod_right, Nat.mod_eq_of_lt htarget, getD_eq_getElem?_getD, hrequest]
      rfl
    · refine ⟨target - start, by omega, ?_⟩
      rw [show start + (target - start) = target by omega, Nat.mod_eq_of_lt htarget,
        getD_eq_getElem?_getD, hrequest]
      rfl
  classical
  obtain ⟨hk, hfirst⟩ := Nat.find_spec hexists
  refine ⟨(start + Nat.find hexists) % requests.length, Nat.mod_lt _ (by omega), ?_⟩
  refine any_eq_true.mpr ⟨start, mem_range.mpr hstart, ?_⟩
  rw [earlierPositions_eq hstart hk, hfirst]
  simp only [decide_true, Bool.true_and, Bool.and_true, Bool.not_eq_true', any_eq_false,
    mem_map, mem_range, forall_exists_index, and_imp, forall_apply_eq_imp_iff₂]
  exact fun j hj hbefore => Nat.find_min hexists hj ⟨by omega, hbefore⟩

/-- A route with room is requested from the arbiter, for this or another ingress. -/
theorem exists_transferRequest (hpipeline : n.timing.routerPipeline = .singleStageElastic)
    (hwait : n.timing.waitForTailCredit = false)
    (hpointer : n.arbitration = .roundRobin →
      ∃ start < n.ingresses.length, rrPointer n s e = (start : ℤ))
    (hi : i ∈ n.ingresses) (hroute : routeRequest n s e i = true)
    (hroom : writable depth s e = true) :
    ∃ i', (i', true) ∈ n.ingresses.zip (transferRequests depth n s e) := by
  obtain ⟨k, hk⟩ := getElem?_of_mem hi
  have hrequest : request depth n s e i = true := by
    simp [request, creditEgress, hwait, hroute, hroom]
  have hat : (n.ingresses.map (request depth n s e))[k]? = some true := by
    rw [getElem?_map, hk]
    exact congrArg some hrequest
  unfold transferRequests
  rw [hpipeline]
  dsimp only
  unfold arbiterRequests
  cases harbitration : n.arbitration with
  | greedyFixedPriority =>
    exact ⟨i, mem_of_getElem? (getElem?_zip_eq_some.mpr ⟨hk, hat⟩)⟩
  | roundRobin =>
    obtain ⟨start, hstart, hpoint⟩ := hpointer harbitration
    rw [hpoint]
    have hlength : start < (n.ingresses.map (request depth n s e)).length := by
      simpa using hstart
    obtain ⟨chosen, hchosen, hselected⟩ := exists_rrSelected hlength hat
    rw [length_map] at hchosen
    refine ⟨n.ingresses[chosen], mem_of_getElem? (i := chosen)
      (getElem?_zip_eq_some.mpr ⟨getElem?_eq_getElem hchosen, ?_⟩)⟩
    rw [getElem?_map, getElem?_range (by simpa using hchosen)]
    exact congrArg some hselected

/-! ### The pointers -/

namespace Network

/-- Every round-robin pointer names an ingress of its router. -/
def PointersInRange (N : Network φ) (s : Net φ) : Prop :=
  ∀ n ∈ N.schedulers, ∀ e ∈ n.egresses, ∀ v ∈ s.registers (.rr n.node e.name),
    ∃ start < n.ingresses.length, v = (start : ℤ)

end Network

theorem rrPointer_range (h : ∀ v ∈ s.registers (.rr n.node e.name),
      ∃ start < n.ingresses.length, v = (start : ℤ)) (hsome : n.ingresses ≠ []) :
    ∃ start < n.ingresses.length, rrPointer n s e = (start : ℤ) := by
  unfold rrPointer tryRecv
  cases hq : s.registers (.rr n.node e.name) with
  | nil => exact ⟨0, length_pos_iff.mpr hsome, rfl⟩
  | cons v rest => exact h v (hq ▸ mem_cons_self)

theorem rrNext_range (h : ∃ start < n.ingresses.length, rrPointer n s e = (start : ℤ)) :
    ∃ start < n.ingresses.length, rrNext depth n s e = (start : ℤ) := by
  unfold rrNext
  generalize (grantsAt n (arbiterRequests depth n s) e).zipIdx = granted
  generalize rrPointer n s e = pointer at h
  induction granted generalizing pointer with
  | nil => exact h
  | cons x rest ih =>
    refine ih _ ?_
    dsimp only
    split
    · obtain ⟨start, hstart, _⟩ := h
      exact ⟨_, Nat.mod_lt _ (by omega), rfl⟩
    · exact h

theorem mem_commitRegister {tokens sent : List ℤ} {received : ℕ} {v : ℤ}
    (h : v ∈ commitRegister tokens sent received) : v ∈ tokens ∨ v ∈ sent := by
  rcases mem_append.mp (mem_of_mem_drop h) with h | h
  · exact .inl h
  · exact .inr (mem_of_mem_take h)

namespace Network

variable {x : Register × ℤ}

theorem mem_proposals_sent {active : ℕ → Bool}
    (hx : x ∈ (N.proposals active s).flatMap Proposals.sent) :
    ∃ n ∈ N.schedulers, active n.node = true ∧ x ∈ (evaluate N.depth n s).sent := by
  obtain ⟨p, hp, hx⟩ := mem_flatMap.mp hx
  obtain ⟨n, hn, rfl⟩ := mem_map.mp hp
  obtain ⟨hn, hactive⟩ := mem_filter.mp hn
  exact ⟨n, hn, hactive, hx⟩

/-- Single-stage routers without credits, each with an ingress. -/
structure Plain (N : Network φ) : Prop where
  pipeline : ∀ n ∈ N.schedulers, n.timing.routerPipeline = .singleStageElastic
  wait : ∀ n ∈ N.schedulers, n.timing.waitForTailCredit = false
  ingresses : ∀ n ∈ N.schedulers, n.ingresses ≠ []

theorem Plain.sent (h : N.Plain) (hn : n ∈ N.schedulers) (hx : x ∈ (evaluate N.depth n s).sent) :
    ∃ e ∈ n.egresses, x = (.rr n.node e.name, rrNext N.depth n s e) := by
  unfold evaluate at hx
  rw [h.pipeline n hn] at hx
  have hnone : n.egresses.filter (creditEgress n) = [] := by
    simp [creditEgress, h.wait n hn]
  simp only [nocScheduler, hnone, returnedCredits, h.wait n hn, Bool.not_false, if_true] at hx
  split at hx
  · obtain ⟨e, he, rfl⟩ := mem_map.mp hx
    exact ⟨e, he, rfl⟩
  · cases hx

theorem Plain.pointersInRange (h : N.Plain) (hwired : N.Wired) (hs : N.Reachable s) :
    N.PointersInRange s := by
  induction hs with
  | refl => exact fun _ _ _ _ _ hv => by cases hv
  | @tail s t _ hstep ih =>
    cases hstep with
    | accept | consume => exact ih
    | evaluate active =>
      intro n hn e he v hv
      rcases mem_commitRegister hv with hv | hv
      · exact ih n hn e he v hv
      obtain ⟨x, hx, rfl⟩ := mem_map.mp hv
      obtain ⟨hx, hq⟩ := mem_filter.mp hx
      obtain ⟨n', hn', _, hx⟩ := mem_proposals_sent hx
      obtain ⟨e', he', rfl⟩ := h.sent hn' hx
      obtain ⟨hnode, hname⟩ := Register.rr.inj (of_decide_eq_true hq)
      obtain rfl := hwired.eq_of_node hn' hn hnode
      exact rrNext_range (rrPointer_range (ih n' hn' e' he') (h.ingresses n' hn'))

/-- A packet at the head of an ingress whose egress has room makes some transfer fire. -/
theorem Plain.fires_of_route (h : N.Plain) (hwired : N.Wired) (hs : N.Reachable s)
    (hn : n ∈ N.schedulers) {i : NoCIngress} {e : NoCEgress} (hi : i ∈ n.ingresses)
    (he : e ∈ n.egresses) {a : Flit Channel φ} (hhead : (s.traffic.queues i.queue).head? = some a)
    (hroute : n.route e.name a.payload = true)
    (hroom : (s.traffic.queues e.queue).length < N.depth) : N.Fires s := by
  have hrequest : routeRequest n s e i = true := by simp [routeRequest, hhead, hroute]
  obtain ⟨i', hi'⟩ := exists_transferRequest (h.pipeline n hn) (h.wait n hn)
    (fun _ => rrPointer_range (h.pointersInRange hwired hs n hn e he) (h.ingresses n hn)) hi
    hrequest (writable_iff.mpr hroom)
  exact ⟨n, hn, fires_of_request (hwired.distinct hn) he hi'⟩

end Network

end AgenticCircuit.Noc
