import AgenticCircuit.Noc.Allocation
import AgenticCircuit.Noc.MeshXY

/-! # Credits

The links of a mesh whose senders wait for credits.  A link holds at most one packet whose
credit has not come back: when the sender waits, the packet or its credit is on the way, and
otherwise neither is (`LinkOk`), and a step of both routers keeps this (`LinkOk.commit`). -/

namespace AgenticCircuit.Noc

open List Option Network
open FifoNetwork (Flit Traffic)

namespace MeshNoC

variable {φ : Type} {P : MeshNoC φ} {s : Net φ} {n m : ℕ} {p : Port}

/-! ### The ports of a router -/

/-- The egress of a router towards a neighbor. -/
def linkEgress (P : MeshNoC φ) (n m : ℕ) (p : Port) : NoCEgress where
  name := p
  queue := .link n m p
  vcStateQueue := if P.inputQueued || P.timing.waitForTailCredit then some (.vc n p) else none
  receiveCreditQueue := if P.timing.waitForTailCredit then some (.credit m n p) else none

/-- The ingress of a router from a neighbor. -/
def linkIngress (P : MeshNoC φ) (n m : ℕ) (p : Port) : NoCIngress where
  name := p
  queue := .link m n (opposite p)
  returnCreditQueue := if P.timing.waitForTailCredit then some (.credit n m (opposite p)) else none

def localEgress (P : MeshNoC φ) (n : ℕ) : NoCEgress where
  name := .loc
  queue := .localOut n
  vcStateQueue := if P.inputQueued then some (.vc n .loc) else none

variable {e : NoCEgress} {credit q state : Register}

theorem mem_egresses_iff : e ∈ P.egresses n ↔ e = P.localEgress n ∨
    ∃ p ∈ meshDirections, ∃ m, P.neighbor n p = some m ∧ e = P.linkEgress n m p := by
  unfold egresses
  simp only [mem_cons, mem_filterMap, map_eq_some_iff, eq_comm (a := e)]
  rfl

theorem mem_ingresses_iff {i : NoCIngress} : i ∈ P.ingresses n ↔
    (∃ p ∈ meshDirections, ∃ m, P.neighbor n p = some m ∧ i = P.linkIngress n m p) ∨
      i = { name := .loc, queue := .localIn n } := by
  unfold ingresses
  simp only [mem_append, mem_singleton, mem_filterMap, map_eq_some_iff,
    eq_comm (a := i)]
  rfl

theorem neighbor_directions (h : P.neighbor n p = some m) : p ∈ meshDirections := by
  cases p with
  | loc | cw => cases h
  | north | east | south | west => decide

/-- The ports of a node, named as its queues. -/
def ports (P : MeshNoC φ) (n : ℕ) : List Port :=
  meshDirections.filter fun p => (P.neighbor n p).isSome

theorem map_name_filterMap {β : Type} {name : β → Port} {f : Port → ℕ → β}
    (hname : ∀ p m, name (f p m) = p) :
    (meshDirections.filterMap fun p => (P.neighbor n p).map (f p)).map name = P.ports n := by
  rw [map_filterMap, ports, ← filterMap_eq_filter]
  refine congrArg (List.filterMap · meshDirections) (funext fun p => ?_)
  cases hneighbor : P.neighbor n p with
  | none => simp [Option.guard, hneighbor]
  | some m => simp [hneighbor, hname p m]

theorem names_egresses : (P.egresses n).map NoCEgress.name = .loc :: P.ports n := by
  unfold egresses
  rw [map_cons, map_name_filterMap fun _ _ => rfl]

theorem names_ingresses : (P.ingresses n).map NoCIngress.name = P.ports n ++ [.loc] := by
  unfold ingresses
  rw [map_append, map_name_filterMap fun _ _ => rfl]
  rfl

theorem loc_not_mem_ports : Port.loc ∉ P.ports n := by
  intro h
  exact absurd (mem_filter.mp h).1 (by decide)

theorem nodup_ports : (P.ports n).Nodup :=
  List.Nodup.filter _ (by decide)

theorem mesh_tidy {n : Scheduler φ} (hn : n ∈ P.network.schedulers) : n.Tidy := by
  obtain ⟨node, _, rfl⟩ := mem_schedulers.mp hn
  constructor
  case ingresses =>
    change ((P.ingresses node).map NoCIngress.name).Nodup
    rw [names_ingresses]
    refine nodup_append.mpr ⟨nodup_ports, nodup_singleton _, ?_⟩
    rintro x hx y hy rfl
    rw [mem_singleton.mp hy] at hx
    exact loc_not_mem_ports hx
  case egresses =>
    change ((P.egresses node).map NoCEgress.name).Nodup
    rw [names_egresses]
    exact nodup_cons.mpr ⟨loc_not_mem_ports, nodup_ports⟩
  case state =>
    intro e q he hq
    rcases mem_egresses_iff.mp he with rfl | ⟨p, _, m, _, rfl⟩
    · exact (some.inj (ite_none_right_eq_some.mp hq).2).symm
    · exact (some.inj (ite_none_right_eq_some.mp hq).2).symm
  case receives =>
    intro e q he hq
    rcases mem_egresses_iff.mp he with rfl | ⟨p, _, m, _, rfl⟩
    · cases hq
    · exact ⟨m, (some.inj (ite_none_right_eq_some.mp hq).2).symm⟩
  case returns =>
    intro i q hi hq
    rcases mem_ingresses_iff.mp hi with ⟨p, _, m, _, rfl⟩ | rfl
    · exact ⟨m, (some.inj (ite_none_right_eq_some.mp hq).2).symm⟩
    · cases hq

/-! ### The declared state queues -/

/-- The state queues that `_mesh_declaration` declares for a node. -/
def stateQueues (P : MeshNoC φ) (n : ℕ) : List Register :=
  (if P.inputQueued then (.loc :: P.ports n).flatMap fun p => [.vc n p, .pipe n p]
    else if P.timing.waitForTailCredit then (P.ports n).map (.vc n) else []) ++
  if P.arbitration = .roundRobin then
    (.loc :: P.ports n).map (if P.inputQueued then .vaRr n else .rr n)
  else []

theorem inputQueued_iff : P.inputQueued = true ↔ P.timing.routerPipeline = .inputQueued := by
  unfold inputQueued
  exact decide_eq_true_iff

theorem creditEgress_link :
    creditEgress (P.scheduler n) (P.linkEgress n m p) = P.timing.waitForTailCredit := by
  unfold creditEgress
  change (P.timing.waitForTailCredit && (P.linkEgress n m p).receiveCreditQueue.isSome) = _
  unfold linkEgress
  cases P.timing.waitForTailCredit <;> rfl

theorem creditEgress_local : creditEgress (P.scheduler n) (P.localEgress n) = false := by
  unfold creditEgress
  exact Bool.and_false _

theorem mem_stateEgresses (he : e ∈ P.egresses n) (hq : e.vcStateQueue = some q) :
    e ∈ (P.scheduler n).stateEgresses := by
  unfold Scheduler.stateEgresses
  cases hpipeline : (P.scheduler n).timing.routerPipeline with
  | inputQueued => exact he
  | singleStageElastic =>
    have hsingle : P.inputQueued = false := by
      unfold inputQueued
      exact decide_eq_false (by rw [show P.timing.routerPipeline = _ from hpipeline]; decide)
    refine mem_filter.mpr ⟨he, ?_⟩
    rcases mem_egresses_iff.mp he with rfl | ⟨p, _, m, _, rfl⟩
    · simp [localEgress, hsingle] at hq
    · rw [creditEgress_link]
      obtain ⟨hwait, _⟩ := ite_none_right_eq_some.mp hq
      rwa [hsingle, Bool.false_or] at hwait

theorem mem_ports : p ∈ P.ports n ↔ ∃ m, P.neighbor n p = some m := by
  unfold ports
  rw [mem_filter, isSome_iff_exists]
  exact ⟨And.right, fun ⟨m, hm⟩ => ⟨neighbor_directions hm, m, hm⟩⟩

theorem vc_mem_stateQueues (he : e ∈ P.egresses n) (hq : e.vcStateQueue = some q) :
    q ∈ (P.scheduler n).stateQueues :=
  mem_append_left _ (mem_filterMap.mpr ⟨e, mem_stateEgresses he hq, hq⟩)

theorem stateQueues_subset (hq : q ∈ P.stateQueues n) : q ∈ (P.scheduler n).stateQueues := by
  have hlink {p : Port} (hp : p ∈ P.ports n)
      (hstate : (P.inputQueued || P.timing.waitForTailCredit) = true) :
      .vc n p ∈ (P.scheduler n).stateQueues := by
    obtain ⟨m, hm⟩ := mem_ports.mp hp
    exact vc_mem_stateQueues (mem_egresses_iff.mpr (.inr ⟨p, neighbor_directions hm, m, hm, rfl⟩))
      (if_pos hstate)
  rcases mem_append.mp hq with hq | hq
  · split at hq
    · rename_i hiq
      obtain ⟨p, hp, hq⟩ := mem_flatMap.mp hq
      rcases mem_cons.mp hq with rfl | hq
      · rcases mem_cons.mp hp with rfl | hp
        · exact vc_mem_stateQueues (mem_egresses_iff.mpr (.inl rfl)) (if_pos hiq)
        · exact hlink hp (by rw [hiq]; rfl)
      · rw [mem_singleton.mp hq]
        refine mem_append_right _ (mem_append_left _ ?_)
        have hname : p ∈ (P.ingresses n).map NoCIngress.name := by
          rw [names_ingresses, mem_append, mem_singleton]
          exact (mem_cons.mp hp).symm
        obtain ⟨i, hi, rfl⟩ := mem_map.mp hname
        unfold Scheduler.pipeQueues
        rw [show (P.scheduler n).timing.routerPipeline = .inputQueued from inputQueued_iff.mp hiq]
        exact mem_map.mpr ⟨i, hi, rfl⟩
    · split at hq
      · rename_i hwait
        obtain ⟨p, hp, rfl⟩ := mem_map.mp hq
        exact hlink hp (by rw [hwait, Bool.or_true])
      · cases hq
  · refine mem_append_right _ (mem_append_right _ ?_)
    obtain ⟨harbitration, hq⟩ := mem_ite_nil_right.mp hq
    unfold Scheduler.pointerQueues
    rw [if_pos (show (P.scheduler n).arbitration = .roundRobin from harbitration)]
    obtain ⟨p, hp, rfl⟩ := mem_map.mp hq
    rw [← names_egresses] at hp
    obtain ⟨e, he, rfl⟩ := mem_map.mp hp
    refine mem_map.mpr ⟨e, he, ?_⟩
    have htiming : (P.scheduler n).timing = P.timing := rfl
    rw [htiming]
    unfold inputQueued
    cases P.timing.routerPipeline <;> rfl

/-! ### Credits -/

/-- The state of an egress that waits for a credit. -/
def waitState (P : MeshNoC φ) : ℤ :=
  match P.timing.routerPipeline with
  | .singleStageElastic => vcWait
  | .inputQueued => iqWaitCredit

theorem vcEffective_eq_wait (hstate : e.vcStateQueue = some state)
    (hcredit : e.receiveCreditQueue = some credit)
    (hvalues : ∀ v ∈ s.registers credit, v = (P.timing.creditDelay : ℤ)) :
    vcEffective s e = vcWait ↔ s.registers credit = [] ∧ (tryRecv s state).1 = vcWait := by
  unfold vcEffective recvFrom
  rw [hstate, hcredit]
  simp only [map_some, getD_some]
  cases hq : s.registers credit with
  | nil =>
    have hnone : tryRecv s credit = (0, false) := by simp [tryRecv, hq]
    simp only [hnone, Bool.false_eq_true, if_false, true_and]
    generalize (tryRecv s state).1 = v
    unfold vcWait
    split
    · omega
    · rfl
  | cons v rest =>
    have hsome : tryRecv s credit = (v, true) := by simp [tryRecv, hq]
    have hv := hvalues v (hq ▸ mem_cons_self)
    simp only [hsome, if_true, cons_ne_nil, false_and, iff_false, vcWait]
    omega

theorem ownerEffective_eq_wait (hegress : creditEgress (P.scheduler n) e = true)
    (hstate : e.vcStateQueue = some state) (hcredit : e.receiveCreditQueue = some credit)
    (hvalues : ∀ v ∈ s.registers credit, v = (P.timing.creditDelay : ℤ)) :
    ownerEffective (P.scheduler n) s e = iqWaitCredit ↔
      s.registers credit = [] ∧ (tryRecv s state).1 = iqWaitCredit := by
  have hdelay := P.creditDelay_le
  unfold ownerEffective recvFrom
  rw [hegress, hstate, hcredit]
  simp only [map_some, getD_some]
  cases hq : s.registers credit with
  | nil =>
    have hnone : tryRecv s credit = (0, false) := by simp [tryRecv, hq]
    simp only [hnone, Bool.false_eq_true, if_false, true_and, Bool.and_eq_true, decide_eq_true_eq]
    generalize (tryRecv s state).1 = v
    split
    · omega
    · rfl
  | cons v rest =>
    have hsome : tryRecv s credit = (v, true) := by simp [tryRecv, hq]
    have hv := hvalues v (hq ▸ mem_cons_self)
    simp only [hsome, if_true, cons_ne_nil, false_and, iff_false, iqWaitCredit]
    omega

theorem egressEffective_eq_wait (hwait : P.timing.waitForTailCredit = true)
    (hvalues : ∀ v ∈ s.registers (.credit m n p), v = (P.timing.creditDelay : ℤ)) :
    egressEffective (P.scheduler n) s (P.linkEgress n m p) = P.waitState ↔
      s.registers (.credit m n p) = [] ∧ (tryRecv s (.vc n p)).1 = P.waitState := by
  have hstate : (P.linkEgress n m p).vcStateQueue = some (.vc n p) :=
    if_pos (by rw [hwait, Bool.or_true])
  have hcredit : (P.linkEgress n m p).receiveCreditQueue = some (.credit m n p) := if_pos hwait
  unfold egressEffective waitState
  change (match P.timing.routerPipeline with
    | .singleStageElastic => vcEffective s (P.linkEgress n m p)
    | .inputQueued => ownerEffective (P.scheduler n) s (P.linkEgress n m p)) = _ ↔ _
  cases P.timing.routerPipeline with
  | singleStageElastic => exact vcEffective_eq_wait hstate hcredit hvalues
  | inputQueued =>
    exact ownerEffective_eq_wait (creditEgress_link.trans hwait) hstate hcredit hvalues

/-- No packet enters a link whose sender waits. -/
theorem ne_wait_of_fires (hwait : P.timing.waitForTailCredit = true)
    (hn : P.scheduler n ∈ P.network.schedulers) (hm : P.neighbor n p = some m)
    (hfired : firedInto P.queueDepth (P.scheduler n) s
      (transferRequests P.queueDepth (P.scheduler n) s) (P.linkEgress n m p) = true) :
    egressEffective (P.scheduler n) s (P.linkEgress n m p) ≠ P.waitState := by
  have he : P.linkEgress n m p ∈ (P.scheduler n).egresses :=
    mem_egresses_iff.mpr (.inr ⟨p, neighbor_directions hm, m, hm, rfl⟩)
  obtain ⟨i, hi, hmoves⟩ :=
    (firedInto_iff (mesh_tidy hn) (mesh_wired.distinct hn) he).mp hfired
  have hrequest := hmoves.requested (mesh_tidy hn) (mesh_wired.distinct hn) he hi
  have hcreditEgress : creditEgress (P.scheduler n) (P.linkEgress n m p) = true :=
    creditEgress_link.trans hwait
  unfold transferRequests at hrequest
  unfold egressEffective waitState
  change (match P.timing.routerPipeline with
    | .singleStageElastic => vcEffective s (P.linkEgress n m p)
    | .inputQueued => ownerEffective (P.scheduler n) s (P.linkEgress n m p)) ≠ _
  cases hpipeline : P.timing.routerPipeline with
  | singleStageElastic =>
    rw [show (P.scheduler n).timing.routerPipeline = _ from hpipeline] at hrequest
    have hgate := request_of_arbiterRequests hrequest
    unfold request at hgate
    rw [if_pos hcreditEgress, Bool.and_eq_true, decide_eq_true_eq] at hgate
    dsimp only
    rw [hgate.2]
    decide
  | inputQueued =>
    rw [show (P.scheduler n).timing.routerPipeline = _ from hpipeline] at hrequest
    obtain ⟨_, _, _, k, _, howner⟩ := owns_of_saRequests hrequest
    dsimp only
    unfold iqWaitCredit
    omega

/-- After an evaluation the sender of a link waits if it has sent a packet or waited before. -/
theorem egressNext_eq_wait (hwait : P.timing.waitForTailCredit = true) :
    egressNext P.queueDepth (P.scheduler n) s (P.linkEgress n m p) = P.waitState ↔
      firedInto P.queueDepth (P.scheduler n) s
          (transferRequests P.queueDepth (P.scheduler n) s) (P.linkEgress n m p) = true ∨
        egressEffective (P.scheduler n) s (P.linkEgress n m p) = P.waitState := by
  unfold egressNext egressEffective waitState transferRequests
  change (match P.timing.routerPipeline with
    | .singleStageElastic => _
    | .inputQueued => _) = _ ↔ _
  cases hpipeline : P.timing.routerPipeline with
  | singleStageElastic =>
    rw [show (P.scheduler n).timing.routerPipeline = _ from hpipeline]
    dsimp only
    split
    · rename_i hfired
      simp [hfired]
    · rename_i hfired
      simp [hfired]
  | inputQueued =>
    rw [show (P.scheduler n).timing.routerPipeline = _ from hpipeline]
    rcases ownerNext_cases P.queueDepth (P.scheduler n) s (P.linkEgress n m p) with
      ⟨hfired, hnext⟩ | ⟨hfired, ⟨_, hnext⟩ | ⟨k, hk, hnext⟩⟩
    · rw [hnext, creditEgress_link, hwait]
      simp [hfired]
    · rw [hnext, hfired]
      simp
    · -- only a free egress is allocated
      obtain ⟨i, _, hrequest⟩ := vaRequest_of_vaGrants hk
      simp only [vaRequest, Bool.and_eq_true, decide_eq_true_eq] at hrequest
      rw [hnext, hfired, hrequest.2]
      simp only [Bool.false_eq_true, false_or, iqWaitCredit]
      omega

/-- Of a link with credits: the sender waits and one packet or credit is on the way, or it does
not wait and there is none. -/
structure LinkOk (P : MeshNoC φ) (s : Net φ) (n m : ℕ) (p : Port) : Prop where
  waits : (tryRecv s (.vc n p)).1 = P.waitState ↔
    (s.traffic.queues (.link n m p)).length + (s.registers (.credit m n p)).length = 1
  one : (s.traffic.queues (.link n m p)).length + (s.registers (.credit m n p)).length ≤ 1
  values : ∀ v ∈ s.registers (.credit m n p), v = (P.timing.creditDelay : ℤ)

theorem opposite_opposite (p : Port) : opposite (opposite p) = p := by
  cases p <;> rfl

theorem length_commitRegister (tokens sent : List ℤ) (received : ℕ) :
    (commitRegister tokens sent received).length =
      tokens.length + min (registerDepth - tokens.length) sent.length -
        min received tokens.length := by
  simp [commitRegister]

theorem scheduler_mem (hn : n < P.width * P.height) : P.scheduler n ∈ P.network.schedulers :=
  mem_schedulers.mpr ⟨n, hn, rfl⟩

section link

variable {active : ℕ → Bool}

section

variable (hwait : P.timing.waitForTailCredit = true) (hn : n < P.width * P.height)
    (hm : P.neighbor n p = some m)

include hwait hn hm

theorem sentTo_credit : P.network.sentTo active s (.credit m n p) =
      if .link n m p ∈ P.network.departures active s then [(P.timing.creditDelay : ℤ)] else [] := by
  have hscheduler := scheduler_mem (neighbor_lt hn hm)
  have hi : P.linkIngress m n (opposite p) ∈ (P.scheduler m).ingresses := by
    have hback := neighbor_opposite hn hm
    exact mem_ingresses_iff.mpr (.inl ⟨_, neighbor_directions hback, n, hback, rfl⟩)
  have hqueue : (P.linkIngress m n (opposite p)).queue = .link n m p := by
    rw [linkIngress, opposite_opposite]
  have hcredit : (P.linkIngress m n (opposite p)).returnCreditQueue = some (.credit m n p) := by
    rw [linkIngress, if_pos hwait, opposite_opposite]
  have hsources : (P.linkIngress m n (opposite p)).queue ∈ P.network.departures active s ↔ _ :=
    mem_departures mesh_wired (fun _ => mesh_tidy) hscheduler hi
  rw [hqueue] at hsources
  split
  · rename_i hmem
    obtain ⟨hactive, hfired⟩ := hsources.mp hmem
    exact sentTo_of_mem mesh_wired (fun _ => mesh_tidy) hscheduler hactive
      (sent_credit hwait hi hcredit hfired)
  · rename_i hmem
    refine sentTo_eq_nil fun n' hn' hactive v hx => hmem (hsources.mpr ?_)
    -- only the router at the end of the link sends its credits
    have hnode : (m : ℕ) = n'.node := (mesh_tidy hn').writer_of_sent hx
    obtain rfl := mesh_wired.eq_of_node hn' hscheduler hnode.symm
    exact ⟨hactive, (mesh_tidy hscheduler).fired_of_credit hi hcredit hx⟩

theorem LinkOk.commit (htokens : (s.registers (.vc n p)).length ≤ 1) (h : P.LinkOk s n m p) :
    P.LinkOk (P.network.commit active s) n m p := by
  have hscheduler := scheduler_mem hn
  have he : P.linkEgress n m p ∈ (P.scheduler n).egresses :=
    mem_egresses_iff.mpr (.inr ⟨p, neighbor_directions hm, m, hm, rfl⟩)
  have hstate : (P.linkEgress n m p).vcStateQueue = some (.vc n p) :=
    if_pos (by rw [hwait, Bool.or_true])
  have hcredit : (P.linkEgress n m p).receiveCreditQueue = some (.credit m n p) := if_pos hwait
  have hread : (.credit m n p) ∈ (evaluate P.queueDepth (P.scheduler n) s).received := by
    refine perm_received.symm.subset (mem_append_right _ (mem_filterMap.mpr
      ⟨_, mem_filter.mpr ⟨he, creditEgress_link.trans hwait⟩, hcredit⟩))
  have harrivals : .link n m p ∈ P.network.arrivals active s ↔ _ :=
    mem_arrivals mesh_wired (fun _ => mesh_tidy) hscheduler he
  have hlink : ((P.network.commit active s).traffic.queues (.link n m p)).length + _ = _ :=
    mesh_wired.length_commit (.link n m p)
  have hregisters : (P.network.commit active s).registers (.credit m n p) = _ :=
    registers_commit
  rw [sentTo_credit hwait hn hm,
    count_received mesh_wired (fun _ => mesh_tidy) hscheduler hread] at hregisters
  have hlength := congrArg List.length hregisters
  rw [length_commitRegister] at hlength
  have hvalue : (tryRecv (P.network.commit active s) (.vc n p)).1 =
      if active (P.scheduler n).node = true then
        egressNext P.queueDepth (P.scheduler n) s (P.linkEgress n m p)
      else (tryRecv s (.vc n p)).1 := by
    split
    · rename_i hactive
      exact tryRecv_write mesh_wired (fun _ => mesh_tidy) hscheduler hactive
        (vc_mem_stateQueues he hstate) (sent_egress (mem_stateEgresses he hstate) hstate) htokens
    · rename_i hactive
      unfold tryRecv
      rw [registers_keep (fun _ => mesh_tidy) (eq_false_of_ne_true hactive)
        (eq_false_of_ne_true hactive)]
  have hnext := egressNext_eq_wait (s := s) (n := n) (m := m) (p := p) hwait
  have heffective := egressEffective_eq_wait hwait h.values
  have hfires := ne_wait_of_fires (s := s) hwait hscheduler hm
  rw [← length_eq_zero_iff] at heffective
  rw [departures, (mesh_wired.nodup_sources active s).count, ← departures,
    arrivals, (mesh_wired.nodup_destinations active s).count, ← arrivals] at hlink
  unfold registerDepth at hlength
  obtain ⟨hwaits, hone, hvalues⟩ := h
  rw [hwaits] at heffective
  -- a credit is sent for a packet that leaves the link
  obtain ⟨out, hout, hsource, hcredits⟩ : ∃ out ≤ 1,
      (if .link n m p ∈ P.network.departures active s then 1 else 0) = out ∧
      (if .link n m p ∈ P.network.departures active s then [(P.timing.creditDelay : ℤ)]
        else []).length = out := by
    split
    · exact ⟨1, le_rfl, rfl, rfl⟩
    · exact ⟨0, Nat.zero_le _, rfl, rfl⟩
  rw [hcredits] at hlength
  have hboth : ((tryRecv (P.network.commit active s) (.vc n p)).1 = P.waitState ↔
      ((P.network.commit active s).traffic.queues (.link n m p)).length +
        ((P.network.commit active s).registers (.credit m n p)).length = 1) ∧
      ((P.network.commit active s).traffic.queues (.link n m p)).length +
        ((P.network.commit active s).registers (.credit m n p)).length ≤ 1 := by
    rw [hvalue]
    by_cases hactive : active (P.scheduler n).node = true
    · have hinto : .link n m p ∈ P.network.arrivals active s ↔
          firedInto P.queueDepth (P.scheduler n) s
            (transferRequests P.queueDepth (P.scheduler n) s) (P.linkEgress n m p) = true :=
        harrivals.trans (and_iff_right hactive)
      rw [if_pos hactive] at hlength ⊢
      rw [hnext]
      by_cases hfired : firedInto P.queueDepth (P.scheduler n) s
          (transferRequests P.queueDepth (P.scheduler n) s) (P.linkEgress n m p) = true
      · -- the sender did not wait, or has just received the credit
        have hfree := hfires hfired
        rw [if_pos (hinto.mpr hfired)] at hlink
        rw [Ne, heffective] at hfree
        simp only [hfired, true_or, true_iff]
        omega
      · rw [if_neg (mt hinto.mp hfired)] at hlink
        simp only [hfired, false_or, heffective, Bool.false_eq_true]
        omega
    · have hinto : .link n m p ∉ P.network.arrivals active s := fun hmem =>
        hactive (harrivals.mp hmem).1
      rw [if_neg hactive] at hlength ⊢
      rw [if_neg hinto] at hlink
      omega
  refine ⟨hboth.1, hboth.2, fun v hv => ?_⟩
  rw [hregisters] at hv
  rcases mem_commitRegister hv with hv | hv
  · exact hvalues v hv
  · split at hv
    · exact mem_singleton.mp hv
    · cases hv

end

end link

end MeshNoC

end AgenticCircuit.Noc
