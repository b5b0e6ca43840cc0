import AgenticCircuit.Noc.Credits

/-! # The state of the routers

What the routers of a mesh keep between evaluations, in every state of every run.

* **`OwnerValue`**, **`StageValue`**: the ranges of the encoded states.
* **`CreditInv`** is the invariant, kept by every step.
* **`credit_wellFormed`**: one token in every state queue, no send refused, one packet under way
  on a link with credits, and one egress owned by an ingress at the switch. -/

namespace AgenticCircuit.Noc

open List Option Network
open FifoNetwork (Flit Traffic)

namespace MeshNoC

variable {φ : Type} {P : MeshNoC φ} {s : Net φ} {n m : ℕ} {p : Port}
variable {e : NoCEgress} {i : NoCIngress} {q : Register}

/-! ### Owners and stages -/

/-- The states of an egress: waiting for a credit, aging one, free, or owned by an ingress. -/
def OwnerValue (P : MeshNoC φ) (n : ℕ) (v : ℤ) : Prop :=
  v = iqWaitCredit ∨ (-(P.timing.creditDelay : ℤ) ≤ v ∧ v ≤ -1) ∨ v = 0 ∨
    (1 ≤ v ∧ v ≤ (P.ingresses n).length)

/-- The states of an ingress: idle, or counting down to an allocation or to the switch. -/
def StageValue (P : MeshNoC φ) (v : ℤ) : Prop :=
  v = 0 ∨ (iqVaBase ≤ v ∧ v ≤ iqVaBase + P.timing.vcAllocDelay) ∨
    (iqSaBase ≤ v ∧ v ≤ iqSaBase + P.timing.swAllocDelay)

def owner (s : Net φ) (n : ℕ) (e : NoCEgress) : ℤ := (tryRecv s (.vc n e.name)).1

def stage (s : Net φ) (n : ℕ) (i : NoCIngress) : ℤ := (tryRecv s (.pipe n i.name)).1

theorem pipeEffective_eq : pipeEffective (P.scheduler n) s i =
    if (iqVaBase < stage s n i ∧ stage s n i < iqSaBase) ∨ iqSaBase < stage s n i then
      stage s n i - 1
    else stage s n i := by
  unfold pipeEffective stage
  simp only [Bool.or_eq_true, Bool.and_eq_true, decide_eq_true_eq]
  rfl

theorem StageValue.effective (h : P.StageValue (stage s n i)) :
    P.StageValue (pipeEffective (P.scheduler n) s i) ∧
      (iqSaBase ≤ pipeEffective (P.scheduler n) s i ↔ iqSaBase ≤ stage s n i) := by
  have hva := P.vcAllocDelay_le
  have hsa := P.swAllocDelay_le
  rw [pipeEffective_eq]
  unfold StageValue iqVaBase iqSaBase at *
  split
  · omega
  · omega

theorem StageValue.next {k : ℕ} (h : P.StageValue (stage s n i)) :
    P.StageValue (pipeNext P.queueDepth (P.scheduler n) s i k) := by
  obtain ⟨heffective, _⟩ := h.effective
  unfold pipeNext
  dsimp only
  split
  · exact .inl rfl
  split
  · exact .inr (.inr ⟨by omega, le_rfl⟩)
  split
  · exact .inr (.inl ⟨by omega, le_rfl⟩)
  · exact heffective

section

variable (hiq : P.inputQueued = true)
    (he : e ∈ P.egresses n)
    (hlinks : P.timing.waitForTailCredit = true → ∀ {p m}, P.neighbor n p = some m →
      P.LinkOk s n m p)

include hiq he hlinks

/-- The state of an egress as an evaluation finds it. -/
theorem ownerEffective_cases : ownerEffective (P.scheduler n) s e = owner s n e ∨
      (owner s n e = iqWaitCredit ∧
        ownerEffective (P.scheduler n) s e = -(P.timing.creditDelay : ℤ)) ∨
      (iqWaitCredit < owner s n e ∧ owner s n e < 0 ∧
        ownerEffective (P.scheduler n) s e = owner s n e + 1) := by
  rcases mem_egresses_iff.mp he with rfl | ⟨p, _, m, hm, rfl⟩
  · left
    unfold ownerEffective recvFrom owner
    rw [creditEgress_local]
    simp [localEgress, hiq]
  · have hstate : (P.linkEgress n m p).vcStateQueue = some (.vc n p) := by
      simp [linkEgress, hiq]
    unfold ownerEffective recvFrom owner
    rw [creditEgress_link, hstate]
    change _ = (tryRecv s (.vc n p)).1 ∨ ((tryRecv s (.vc n p)).1 = _ ∧ _) ∨
      (_ < (tryRecv s (.vc n p)).1 ∧ (tryRecv s (.vc n p)).1 < 0 ∧ _ = (tryRecv s (.vc n p)).1 + 1)
    cases hwait : P.timing.waitForTailCredit with
    | false =>
      left
      simp
    | true =>
      have hcredit : (P.linkEgress n m p).receiveCreditQueue = some (.credit m n p) :=
        if_pos hwait
      rw [hcredit]
      simp only [map_some, getD_some, if_true, Bool.and_eq_true, decide_eq_true_eq]
      obtain ⟨hwaits, hone, hvalues⟩ := hlinks hwait hm
      cases hq : s.registers (.credit m n p) with
      | nil =>
        have hnone : tryRecv s (.credit m n p) = (0, false) := by simp [tryRecv, hq]
        rw [hnone]
        simp only [Bool.false_eq_true, if_false]
        split
        · rename_i hcounting
          exact .inr (.inr ⟨hcounting.1, hcounting.2, rfl⟩)
        · exact .inl rfl
      | cons v rest =>
        have hsome : tryRecv s (.credit m n p) = (v, true) := by simp [tryRecv, hq]
        rw [hsome]
        -- a credit on the way means that the sender waits
        have hstay : (tryRecv s (.vc n p)).1 = P.waitState := by
          rw [hwaits]
          rw [hq, length_cons] at hone ⊢
          omega
        refine .inr (.inl ⟨hstay.trans ?_, ?_⟩)
        · unfold waitState
          rw [inputQueued_iff.mp hiq]
        · rw [if_pos rfl, hvalues v (hq ▸ mem_cons_self)]
          omega

theorem OwnerValue.effective (h : P.OwnerValue n (owner s n e)) :
    P.OwnerValue n (ownerEffective (P.scheduler n) s e) ∧ ∀ k : ℕ,
      ownerEffective (P.scheduler n) s e = (k + 1 : ℕ) ↔ owner s n e = (k + 1 : ℕ) := by
  have hdelay := P.creditDelay_le
  unfold OwnerValue iqWaitCredit at *
  rcases ownerEffective_cases hiq he hlinks with heq | ⟨hwait, heq⟩ | ⟨hlow, hneg, heq⟩
  · rw [heq]
    exact ⟨h, fun _ => Iff.rfl⟩
  · unfold iqWaitCredit at hwait
    rw [heq]
    exact ⟨by omega, fun k => by omega⟩
  · unfold iqWaitCredit at hlow
    rw [heq]
    exact ⟨by omega, fun k => by omega⟩

end

theorem OwnerValue.next (h : P.OwnerValue n (ownerEffective (P.scheduler n) s e)) :
    P.OwnerValue n (ownerNext P.queueDepth (P.scheduler n) s e) := by
  rcases ownerNext_cases P.queueDepth (P.scheduler n) s e with
    ⟨_, hnext⟩ | ⟨_, ⟨_, hnext⟩ | ⟨k, hk, hnext⟩⟩
  · rw [hnext]
    split
    · exact .inl rfl
    · exact .inr (.inr (.inl rfl))
  · rwa [hnext]
  · rw [hnext]
    obtain ⟨i, hi, _⟩ := vaRequest_of_vaGrants hk
    have hlt : k < (P.ingresses n).length := (List.getElem?_eq_some_iff.mp hi).1
    exact .inr (.inr (.inr ⟨by omega, by omega⟩))

theorem egress_of_routes {e' : NoCEgress} (he : e ∈ P.egresses n)
    (he' : e' ∈ P.egresses n) (h : routeRequest (P.scheduler n) s e i = true)
    (h' : routeRequest (P.scheduler n) s e' i = true) (hn : n < P.width * P.height) : e = e' := by
  unfold routeRequest at h h'
  cases hhead : (s.traffic.queues i.queue).head? with
  | none => simp [hhead] at h
  | some a =>
    rw [hhead] at h h'
    have hname : e.name = e'.name := route_unique (P := P) h h'
    exact inj_on_of_nodup_map (mesh_tidy (scheduler_mem hn)).egresses he he' hname

/-! ### Runs -/

/-- What holds of the state queues in every state of a run. -/
structure CreditInv (P : MeshNoC φ) (s : Net φ) : Prop where
  tokens : ∀ {n}, n < P.width * P.height → ∀ q ∈ (P.scheduler n).stateQueues,
    (s.registers q).length = if s.evaluated n = true then 1 else 0
  links : P.timing.waitForTailCredit = true → ∀ {n p m}, n < P.width * P.height →
    P.neighbor n p = some m → P.LinkOk s n m p
  owners : P.inputQueued = true → ∀ {n}, n < P.width * P.height → ∀ e ∈ P.egresses n,
    P.OwnerValue n (owner s n e)
  stages : P.inputQueued = true → ∀ {n}, n < P.width * P.height → ∀ i ∈ P.ingresses n,
    P.StageValue (stage s n i)
  allocated : P.inputQueued = true → ∀ {n}, n < P.width * P.height →
    Allocated (P.scheduler n) (owner s n) (stage s n)

theorem CreditInv.length_le (h : P.CreditInv s) (hn : n < P.width * P.height)
    (hq : q ∈ (P.scheduler n).stateQueues) : (s.registers q).length ≤ 1 := by
  rw [h.tokens hn q hq]
  split
  · exact le_rfl
  · exact Nat.zero_le _

theorem pipe_mem_stateQueues (hiq : P.inputQueued = true)
    (hi : i ∈ P.ingresses n) : .pipe n i.name ∈ (P.scheduler n).stateQueues := by
  refine mem_append_right _ (mem_append_left _ ?_)
  unfold Scheduler.pipeQueues
  rw [show (P.scheduler n).timing.routerPipeline = .inputQueued from inputQueued_iff.mp hiq]
  exact mem_map.mpr ⟨i, hi, rfl⟩

theorem vcStateQueue_of_inputQueued (hiq : P.inputQueued = true)
    (he : e ∈ P.egresses n) : e.vcStateQueue = some (.vc n e.name) := by
  rcases mem_egresses_iff.mp he with rfl | ⟨p, _, m, _, rfl⟩
  · simp [localEgress, hiq]
  · simp [linkEgress, hiq]

theorem creditInv_initial : P.CreditInv (initial : Net φ) where
  tokens := fun _ _ _ => rfl
  links := by
    intro _ n p m _ _
    refine ⟨?_, Nat.zero_le _, nofun⟩
    unfold waitState
    change (0 : ℤ) = _ ↔ 0 + 0 = 1
    cases P.timing.routerPipeline <;> decide
  owners := fun _ _ _ _ _ => .inr (.inr (.inl rfl))
  stages := fun _ _ _ _ _ => .inl rfl
  allocated := by
    intro _ n _
    constructor
    · intro k i _
      constructor
      · intro hsa
        exact absurd hsa (by change ¬ iqSaBase ≤ 0; decide)
      · rintro ⟨e, _, heq⟩
        change (0 : ℤ) = (k + 1 : ℕ) at heq
        omega
    · intro k i e e' _ _ _ heq _
      change (0 : ℤ) = (k + 1 : ℕ) at heq
      omega

theorem CreditInv.of_local {t : Net φ} (h : P.CreditInv s)
    (hregisters : t.registers = s.registers) (hevaluated : t.evaluated = s.evaluated)
    (hlinks : ∀ n m p, t.traffic.queues (.link n m p) = s.traffic.queues (.link n m p)) :
    P.CreditInv t := by
  have hrecv (q : Register) : tryRecv t q = tryRecv s q := by
    unfold tryRecv
    rw [hregisters]
  have howner (n : ℕ) : (owner t n : NoCEgress → ℤ) = owner s n :=
    funext fun e => congrArg Prod.fst (hrecv _)
  have hstage (n : ℕ) : (stage t n : NoCIngress → ℤ) = stage s n :=
    funext fun i => congrArg Prod.fst (hrecv _)
  constructor
  case tokens =>
    intro n hn q hq
    rw [hregisters, hevaluated]
    exact h.tokens hn q hq
  case links =>
    intro hwait n p m hn hm
    obtain ⟨hwaits, hone, hvalues⟩ := h.links hwait hn hm
    refine ⟨?_, ?_, ?_⟩
    · rw [hrecv, hlinks, hregisters]
      exact hwaits
    · rw [hlinks, hregisters]
      exact hone
    · rw [hregisters]
      exact hvalues
  case owners =>
    intro hiq n hn
    rw [howner]
    exact h.owners hiq hn
  case stages =>
    intro hiq n hn
    rw [hstage]
    exact h.stages hiq hn
  case allocated =>
    intro hiq n hn
    rw [howner, hstage]
    exact h.allocated hiq hn

section evaluate

variable {active : ℕ → Bool}

theorem tryRecv_inactive (hwriter : active q.writer ≠ true) (hreader : active q.reader ≠ true) :
    tryRecv (P.network.commit active s) q = tryRecv s q := by
  unfold tryRecv
  rw [registers_keep (fun _ => mesh_tidy) (eq_false_of_ne_true hwriter)
    (eq_false_of_ne_true hreader)]

section

variable (h : P.CreditInv s) (hiq : P.inputQueued = true) (hn : n < P.width * P.height)
    (hactive : active n = true)

include h hiq hn hactive

theorem CreditInv.owner_commit (he : e ∈ P.egresses n) : owner (P.network.commit active s) n e =
      ownerNext P.queueDepth (P.scheduler n) s e := by
  have hq := vcStateQueue_of_inputQueued hiq he
  have hsent : (_, egressNext P.queueDepth (P.scheduler n) s e) ∈ _ :=
    sent_egress (mem_stateEgresses he hq) hq
  unfold egressNext at hsent
  rw [show (P.scheduler n).timing.routerPipeline = .inputQueued from inputQueued_iff.mp hiq]
    at hsent
  exact tryRecv_write mesh_wired (fun _ => mesh_tidy) (scheduler_mem hn) hactive
    (vc_mem_stateQueues he hq) hsent (h.length_le hn (vc_mem_stateQueues he hq))

theorem CreditInv.stage_commit {k : ℕ} (hk : (P.ingresses n)[k]? = some i) :
    stage (P.network.commit active s) n i = pipeNext P.queueDepth (P.scheduler n) s i k := by
  have hq := pipe_mem_stateQueues hiq (mem_of_getElem? hk)
  exact tryRecv_write mesh_wired (fun _ => mesh_tidy) (scheduler_mem hn) hactive hq
    (sent_pipe (inputQueued_iff.mp hiq) hk) (h.length_le hn hq)

end

theorem CreditInv.commit (h : P.CreditInv s) : P.CreditInv (P.network.commit active s) := by
  have hkeep {n : ℕ} (hactive : active n ≠ true) :
      (owner (P.network.commit active s) n : NoCEgress → ℤ) = owner s n ∧
        (stage (P.network.commit active s) n : NoCIngress → ℤ) = stage s n :=
    ⟨funext fun e => congrArg Prod.fst (tryRecv_inactive hactive hactive),
      funext fun i => congrArg Prod.fst (tryRecv_inactive hactive hactive)⟩
  constructor
  case tokens =>
    intro n hn q hq
    obtain ⟨hwriter, hreader, _⟩ := (mesh_tidy (scheduler_mem hn)).mem_stateQueues hq
    change q.writer = n at hwriter
    change q.reader = n at hreader
    by_cases hactive : active n = true
    · obtain ⟨v, hv⟩ : ∃ v, (q, v) ∈ (evaluate P.queueDepth (P.scheduler n) s).sent :=
        exists_sent_of_state hq
      rw [registers_write mesh_wired (fun _ => mesh_tidy) (scheduler_mem hn) hactive hq hv
        (h.length_le hn hq)]
      change 1 = if (s.evaluated n || active n) = true then 1 else 0
      rw [hactive, Bool.or_true, if_pos rfl]
    · have hfalse := eq_false_of_ne_true hactive
      rw [registers_keep (fun _ => mesh_tidy) (by rwa [hwriter]) (by rwa [hreader])]
      change _ = if (s.evaluated n || active n) = true then 1 else 0
      rw [hfalse, Bool.or_false]
      exact h.tokens hn q hq
  case links =>
    intro hwait n p m hn hm
    have he : P.linkEgress n m p ∈ P.egresses n :=
      mem_egresses_iff.mpr (.inr ⟨p, neighbor_directions hm, m, hm, rfl⟩)
    have hq : (P.linkEgress n m p).vcStateQueue = some (.vc n p) :=
      if_pos (by rw [hwait, Bool.or_true])
    exact (h.links hwait hn hm).commit hwait hn hm (h.length_le hn (vc_mem_stateQueues he hq))
  case owners =>
    intro hiq n hn e he
    by_cases hactive : active n = true
    · rw [h.owner_commit hiq hn hactive he]
      have heffective := (h.owners hiq hn e he).effective hiq he fun hwait => h.links hwait hn
      exact heffective.1.next
    · rw [(hkeep hactive).1]
      exact h.owners hiq hn e he
  case stages =>
    intro hiq n hn i hi
    by_cases hactive : active n = true
    · obtain ⟨k, hk⟩ := getElem?_of_mem hi
      rw [h.stage_commit hiq hn hactive hk]
      exact (h.stages hiq hn i hi).next
    · rw [(hkeep hactive).2]
      exact h.stages hiq hn i hi
  case allocated =>
    intro hiq n hn
    by_cases hactive : active n = true
    · have hscheduler := scheduler_mem hn
      have howners {e : NoCEgress} (he : e ∈ P.egresses n) :=
        (h.owners hiq hn e he).effective hiq he fun hwait => h.links hwait hn
      have hnow : Allocated (P.scheduler n) (ownerEffective (P.scheduler n) s)
          (pipeEffective (P.scheduler n) s) := by
        constructor
        · intro k i hk
          rw [(h.stages hiq hn i (mem_of_getElem? hk)).effective.2, (h.allocated hiq hn).owns hk]
          refine exists_congr fun e => and_congr_right fun he => ?_
          exact ((howners he).2 k).symm
        · intro k i e e' hk he he' heq heq'
          exact (h.allocated hiq hn).unique hk he he' (((howners he).2 k).mp heq)
            (((howners he').2 k).mp heq')
      exact allocated_step (inputQueued_iff.mp hiq) (mesh_tidy hscheduler)
        (mesh_wired.distinct hscheduler) P.vcAllocDelay_le
        (fun he he' hr hr' => egress_of_routes he he' hr hr' hn) hnow
        (fun e he => h.owner_commit hiq hn hactive he)
        fun hk => h.stage_commit hiq hn hactive hk
    · rw [(hkeep hactive).1, (hkeep hactive).2]
      exact h.allocated hiq hn

end evaluate

theorem creditInv_of_reachable (hs : P.network.Reachable s) : P.CreditInv s := by
  induction hs with
  | refl => exact creditInv_initial
  | tail _ hstep ih =>
    cases hstep with
    | evaluate active => exact ih.commit
    | accept a hn hroom =>
      exact ih.of_local rfl rfl fun _ _ _ => Traffic.accept_queues_of_ne nofun
    | consume hn hhead =>
      exact ih.of_local rfl rfl fun _ _ _ => (Traffic.consume_queues hhead).2 _ nofun

/-! ### The state of the routers -/

/-- The state of the routers of a mesh in a state of a run. -/
structure WellFormed (P : MeshNoC φ) (s : Net φ) : Prop where
  /-- The ranges of the encoded states do not meet. -/
  apart : iqWaitCredit < -(P.timing.creditDelay : ℤ) ∧
    iqVaBase + P.timing.vcAllocDelay < iqSaBase
  /-- A state queue holds one token once its scheduler has been evaluated. -/
  tokens : ∀ n < P.width * P.height, s.evaluated n = true → ∀ q ∈ P.stateQueues n,
    ∃ v, s.registers q = [v]
  /-- Every send of an evaluation is accepted. -/
  writes : ∀ n < P.width * P.height, ∀ {k x},
    (evaluate P.queueDepth (P.scheduler n) s).sent[k]? = some x →
      sendAccepted s ((evaluate P.queueDepth (P.scheduler n) s).sent.take k) x.1 = true
  /-- A link holds one packet whose credit has not come back to its sender: the packet itself is
  still there, or its credit is. -/
  links : P.timing.waitForTailCredit = true → ∀ n < P.width * P.height, ∀ {p m},
    P.neighbor n p = some m →
      (s.traffic.queues (.link n m p)).length + (s.registers (.credit m n p)).length ≤ 1
  /-- No credit queue overflows. -/
  asserted : ∀ n < P.width * P.height,
    ∀ accepted ∈ (evaluate P.queueDepth (P.scheduler n) s).asserted, accepted = true
  owners : P.inputQueued = true → ∀ n < P.width * P.height, ∀ e ∈ P.egresses n,
    ∀ v ∈ s.registers (.vc n e.name), P.OwnerValue n v
  stages : P.inputQueued = true → ∀ n < P.width * P.height, ∀ i ∈ P.ingresses n,
    ∀ v ∈ s.registers (.pipe n i.name), P.StageValue v
  /-- An ingress is at the switch if it owns one egress, and else owns none. -/
  allocated : P.inputQueued = true → ∀ n < P.width * P.height, s.evaluated n = true →
    ∀ {k i}, (P.ingresses n)[k]? = some i → ∀ v ∈ s.registers (.pipe n i.name),
      (iqSaBase ≤ v ↔ ∃! e, e ∈ P.egresses n ∧ s.registers (.vc n e.name) = [((k + 1 : ℕ) : ℤ)]) ∧
        ∀ e ∈ P.egresses n, ∀ e' ∈ P.egresses n,
          s.registers (.vc n e.name) = [((k + 1 : ℕ) : ℤ)] →
            s.registers (.vc n e'.name) = [((k + 1 : ℕ) : ℤ)] → e = e'
  /-- The arbiters of the egresses grant an ingress once. -/
  granted : P.inputQueued = true → ∀ n < P.width * P.height, ∀ e ∈ P.egresses n,
    ∀ e' ∈ P.egresses n, ∀ {k}, (vaGrants (P.scheduler n) s e).getD k false = true →
      (vaGrants (P.scheduler n) s e').getD k false = true → e = e'

theorem not_mem_take {κ : Type} {l : List κ} (h : l.Nodup) {k : ℕ} {a : κ} (hk : l[k]? = some a) :
    a ∉ l.take k := by
  intro hmem
  obtain ⟨j, hj⟩ := getElem?_of_mem hmem
  obtain ⟨hlt, _⟩ := List.getElem?_eq_some_iff.mp hj
  rw [length_take] at hlt
  rw [getElem?_take_of_lt (by omega)] at hj
  have heq := (getElem?_inj (by omega) h).mp (hj.trans hk.symm)
  omega

variable {before : List (Register × ℤ)}

theorem sendAccepted_of_fresh
    (hlength : (s.registers q).length ≤ 1) (hfresh : q ∉ before.map Prod.fst) :
    sendAccepted s before q = true := by
  have hcount : before.countP (fun x => x.1 = q) = 0 := by
    rw [countP_eq_zero]
    intro x hx heq
    exact hfresh (mem_map.mpr ⟨x, hx, of_decide_eq_true heq⟩)
  unfold sendAccepted registerDepth
  rw [decide_eq_true_iff, hcount]
  omega

section

variable (h : P.CreditInv s) (hn : n < P.width * P.height) {accepted : Bool}

include h hn

theorem CreditInv.credit_length (hi : i ∈ P.ingresses n) (hwait : P.timing.waitForTailCredit = true)
    (hq : i.returnCreditQueue = some q) : (s.registers q).length ≤ 1 := by
  rcases mem_ingresses_iff.mp hi with ⟨p, _, m, hm, rfl⟩ | rfl
  · obtain rfl := some.inj (ite_none_right_eq_some.mp hq).2
    have hone := (h.links hwait (neighbor_lt hn hm) (neighbor_opposite hn hm)).one
    omega
  · cases hq

theorem CreditInv.sent_length {x : Register × ℤ}
    (hx : x ∈ (evaluate P.queueDepth (P.scheduler n) s).sent) : (s.registers x.1).length ≤ 1 := by
  rcases mem_append.mp (perm_sent.subset (mem_map_of_mem hx)) with hq | hq
  · exact h.length_le hn hq
  · obtain ⟨u, hu, huq⟩ := mem_map.mp hq
    obtain ⟨hwait, i, hi, _, hqueue, _⟩ := mem_returnedCredits.mp hu
    rw [← huq]
    exact h.credit_length hn hi hwait hqueue

theorem CreditInv.accepted_credits {requests : NoCEgress → List Bool}
    (hbefore : ∀ x ∈ before, ∀ a b p, x.1 ≠ .credit a b p)
    (ha :
      accepted ∈ creditAssertions s before (returnedCredits P.queueDepth (P.scheduler n) s requests)) :
    accepted = true := by
  have htidy := mesh_tidy (scheduler_mem hn)
  obtain ⟨⟨⟨q, v⟩, k⟩, hx, rfl⟩ := mem_map.mp ha
  have hk := mem_zipIdx_iff_getElem?.mp hx
  obtain ⟨hwait, i, hi, _, hqueue, _⟩ := mem_returnedCredits.mp (mem_of_getElem? hk)
  refine sendAccepted_of_fresh (h.credit_length hn hi hwait hqueue) ?_
  rw [map_append, map_take, mem_append]
  rintro (hmem | hmem)
  · obtain ⟨x, hx, hxq⟩ := mem_map.mp hmem
    obtain ⟨m, hm⟩ := htidy.returns hi hqueue
    exact hbefore x hx _ _ _ (hxq.trans hm)
  · refine not_mem_take (htidy.nodup_credits requests) ?_ hmem
    rw [getElem?_map, hk]
    rfl

theorem CreditInv.asserted
    (ha : accepted ∈ (evaluate P.queueDepth (P.scheduler n) s).asserted) : accepted = true := by
  unfold evaluate at ha
  cases hpipeline : (P.scheduler n).timing.routerPipeline with
  | singleStageElastic =>
    rw [hpipeline] at ha
    refine h.accepted_credits hn ?_ ha
    intro x hx a b p heq
    obtain ⟨e, he, hx⟩ := mem_filterMap.mp hx
    obtain ⟨q, hq, rfl⟩ := map_eq_some_iff.mp hx
    have hvc := (mesh_tidy (scheduler_mem hn)).state (mem_filter.mp he).1 hq
    rw [hvc] at heq
    cases heq
  | inputQueued =>
    rw [hpipeline] at ha
    exact h.accepted_credits hn (fun _ hx => by cases hx) ha

end

/-- A token is the value that is read. -/
theorem tryRecv_of_mem (hlength : (s.registers q).length ≤ 1) {v : ℤ}
    (hv : v ∈ s.registers q) : (tryRecv s q).1 = v ∧ s.registers q = [v] := by
  unfold tryRecv
  match hq : s.registers q, hlength with
  | [], _ =>
    rw [hq] at hv
    cases hv
  | [w], _ =>
    rw [hq] at hv
    rw [mem_singleton.mp hv]
    exact ⟨rfl, rfl⟩

/-- The state of the routers is well formed in every state of every run, for either pipeline,
with credits or without. -/
theorem credit_wellFormed (P : MeshNoC φ) {s : Net φ} (hs : P.network.Reachable s) :
    P.WellFormed s := by
  have h := creditInv_of_reachable hs
  constructor
  case apart =>
    have hcredit := P.creditDelay_le
    have hva := P.vcAllocDelay_le
    unfold iqWaitCredit iqVaBase iqSaBase
    omega
  case tokens =>
    intro n hn hevaluated q hq
    have hlength := h.tokens hn q (stateQueues_subset hq)
    rw [if_pos hevaluated] at hlength
    exact List.length_eq_one_iff.mp hlength
  case writes =>
    intro n hn k x hk
    refine sendAccepted_of_fresh (h.sent_length hn (mem_of_getElem? hk)) ?_
    rw [map_take]
    refine not_mem_take (mesh_tidy (scheduler_mem hn)).nodup_sent ?_
    rw [getElem?_map]
    exact congrArg (Option.map Prod.fst) hk
  case links =>
    intro hwait n hn p m hm
    exact (h.links hwait hn hm).one
  case asserted => exact fun n hn accepted ha => h.asserted hn ha
  case owners =>
    intro hiq n hn e he v hv
    have hq := vc_mem_stateQueues he (vcStateQueue_of_inputQueued hiq he)
    rw [← (tryRecv_of_mem (h.length_le hn hq) hv).1]
    exact h.owners hiq hn e he
  case stages =>
    intro hiq n hn i hi v hv
    rw [← (tryRecv_of_mem (h.length_le hn (pipe_mem_stateQueues hiq hi)) hv).1]
    exact h.stages hiq hn i hi
  case allocated =>
    intro hiq n hn hevaluated k i hk v hv
    have hallocated := h.allocated hiq hn
    have howned {e : NoCEgress} (he : e ∈ P.egresses n) :
        s.registers (.vc n e.name) = [((k + 1 : ℕ) : ℤ)] ↔ owner s n e = (k + 1 : ℕ) := by
      have hq := vc_mem_stateQueues he (vcStateQueue_of_inputQueued hiq he)
      have hlength := h.tokens hn _ hq
      rw [if_pos hevaluated] at hlength
      obtain ⟨w, hw⟩ := List.length_eq_one_iff.mp hlength
      unfold owner tryRecv
      rw [hw]
      simp
    have hi := mem_of_getElem? hk
    rw [← (tryRecv_of_mem (h.length_le hn (pipe_mem_stateQueues hiq hi)) hv).1]
    have hunique : ∀ e ∈ P.egresses n, ∀ e' ∈ P.egresses n,
        s.registers (.vc n e.name) = [((k + 1 : ℕ) : ℤ)] →
          s.registers (.vc n e'.name) = [((k + 1 : ℕ) : ℤ)] → e = e' := by
      intro e he e' he' heq heq'
      exact hallocated.unique hk he he' ((howned he).mp heq) ((howned he').mp heq')
    refine ⟨(hallocated.owns hk).trans ⟨?_, ?_⟩, hunique⟩
    · rintro ⟨e, he, heq⟩
      have howns := (howned he).mpr heq
      exact ⟨e, ⟨he, howns⟩, fun e' he' => hunique e' he'.1 e he he'.2 howns⟩
    · rintro ⟨e, ⟨he, heq⟩, _⟩
      exact ⟨e, he, (howned he).mp heq⟩
  case granted =>
    intro hiq n hn e he e' he' k hgrant hgrant'
    obtain ⟨i, hk, _⟩ := vaRequest_of_vaGrants hgrant
    exact egress_of_routes he he' (free_of_vaGrants hk hgrant).1
      (free_of_vaGrants hk hgrant').1 hn

/-- Two input-queued nodes side by side, with credits that take a tick. -/
def inputQueuedPair : MeshNoC (BitVec 32) :=
  { sideBySide with
    timing :=
      { flowControl := .credit
        routerPipeline := .inputQueued
        creditDelay := 1
        vcAllocDelay := 1
        swAllocDelay := 1
        waitForTailCredit := true }
    creditDelay_le := by decide
    vcAllocDelay_le := by decide
    swAllocDelay_le := by decide
    readyValid_plain := by decide
    singleStage_direct := by decide
    inputQueued_delays := by decide
    creditDelay_waits := by decide }

/-- The left node has a packet for the right one, and the routers have been evaluated. -/
def started : Net (BitVec 32) := inputQueuedPair.network.commit (fun _ => true)
  ⟨Traffic.empty.accept (.localIn 0) 1#32, fun _ => [], fun _ => false⟩

/-- A packet the other way follows; five evaluations later the first one has arrived. -/
def crossing : Net (BitVec 32) := (inputQueuedPair.network.commit fun _ => true)^[5]
  { started with traffic := started.traffic.accept (.localIn 1) 0#32 }

theorem crossing_reachable : inputQueuedPair.network.Reachable crossing := by
  have hn (node : ℕ) (h : node < 2) :
      inputQueuedPair.scheduler node ∈ inputQueuedPair.network.schedulers :=
    mem_schedulers.mpr ⟨node, h, rfl⟩
  have hstarted : inputQueuedPair.network.Reachable started :=
    (Relation.ReflTransGen.single (.accept 1#32 (hn 0 (by decide)) (by decide))).tail (.evaluate _)
  have hroom : (started.traffic.queues (.localIn 1)).length < 1 := by decide +kernel
  exact Network.Reachable.commits (hstarted.tail (.accept 0#32 (hn 1 (by decide)) hroom)) _ 5

/-- A packet is on a link, whose ingress owns the local output; the credit for the packet that has
arrived is on its way back. -/
theorem credit_wellFormed_inputQueuedPair : inputQueuedPair.WellFormed crossing ∧
    (crossing.traffic.queues (.link 1 0 .west)).map Flit.payload = [0#32] ∧
    crossing.registers (.vc 0 .loc) = [1] ∧ crossing.registers (.credit 1 0 .east) = [1] ∧
    (crossing.traffic.queues (.localOut 1)).map Flit.payload = [1#32] :=
  ⟨credit_wellFormed inputQueuedPair crossing_reachable, by decide +kernel⟩

end MeshNoC

end AgenticCircuit.Noc
