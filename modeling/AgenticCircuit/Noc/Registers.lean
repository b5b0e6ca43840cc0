import AgenticCircuit.Noc.Mesh
import Mathlib.Data.List.Perm.Basic

/-! # The state queues of a router

What one evaluation of a scheduler sends to and receives from its state queues, and what the
queues of a network hold after a commit.

* **`Tidy`** schedulers name their queues as the generators do.
* **`sent_nodup`**, **`received_nodup`**: an evaluation uses no queue twice.
* **`Moves`**: a transfer between two ports fires; `firedInto` and `firedFrom` say whether one
  fires at a port.
* **`registers_write`**, **`registers_keep`**, **`length_link`**: the queues after a commit. -/

namespace AgenticCircuit.Noc

open List Register NoCEgress Proposals
open Prod (fst snd)
open Dialect (Policy)
open FifoNetwork (Flit Traffic Routes)

variable {φ : Type}

/-- The node that sends to a state queue. -/
def Register.writer : Register → ℕ
  | .credit source _ _ => source
  | .vc node _ | .pipe node _ | .rr node _ | .vaRr node _ => node

/-- The node that receives from a state queue. -/
def Register.reader : Register → ℕ
  | .credit _ target _ => target
  | .vc node _ | .pipe node _ | .rr node _ | .vaRr node _ => node

/-- The ports of a scheduler have names of their own, and its queues are named after them. -/
structure Scheduler.Tidy (n : Scheduler φ) : Prop where
  ingresses : (n.ingresses.map NoCIngress.name).Nodup
  egresses : (n.egresses.map name).Nodup
  state : ∀ {e q}, e ∈ n.egresses → e.vcStateQueue = some q → q = .vc n.node e.name
  receives : ∀ {e q}, e ∈ n.egresses → e.receiveCreditQueue = some q →
    ∃ m, q = .credit m n.node e.name
  returns : ∀ {i q}, i ∈ n.ingresses → i.returnCreditQueue = some q →
    ∃ m, q = .credit n.node m (opposite i.name)

open Scheduler

section schedulers

variable {depth : ℕ} {n : Scheduler φ} {s : Net φ} {e e' : NoCEgress} {i i' : NoCIngress}
  {q : Register}

/-! ### Sends and receives -/

variable {β : Type} {l : List NoCEgress} {requests : NoCEgress → List Bool}
    {x : NoCEgress × NoCIngress} {k : ℕ}

theorem nodup_filterMap_of_key {κ γ : Type} {l : List β} {key : β → κ} {f : β → Option γ}
    (h : (l.map key).Nodup)
    (hf : ∀ x ∈ l, ∀ y ∈ l, ∀ c, f x = some c → f y = some c → key x = key y) :
    (l.filterMap f).Nodup := by
  have hpair : l.Pairwise fun x y => x ∈ l ∧ y ∈ l ∧ key x ≠ key y :=
    Pairwise.imp_of_mem (fun hx hy hne => ⟨hx, hy, hne⟩) (pairwise_map.mp h)
  refine Pairwise.filterMap f ?_ hpair
  rintro x y ⟨hx, hy, hne⟩ b hb c hc rfl
  exact hne (hf x hx y hy b hb hc)

/-- The queues of the round-robin pointers. -/
def Scheduler.pointerQueues (n : Scheduler φ) : List Register :=
  if n.arbitration = .roundRobin then
    n.egresses.map fun e => match n.timing.routerPipeline with
      | .singleStageElastic => .rr n.node e.name
      | .inputQueued => .vaRr n.node e.name
  else []

/-- The egresses whose state an evaluation reads and writes back. -/
def Scheduler.stateEgresses (n : Scheduler φ) : List NoCEgress :=
  match n.timing.routerPipeline with
  | .singleStageElastic => n.egresses.filter (creditEgress n)
  | .inputQueued => n.egresses

/-- The queues of the stages of the ingresses. -/
def Scheduler.pipeQueues (n : Scheduler φ) : List Register :=
  match n.timing.routerPipeline with
  | .singleStageElastic => []
  | .inputQueued => n.ingresses.map fun i => .pipe n.node i.name

/-- The queues that an evaluation reads and writes back. -/
def Scheduler.stateQueues (n : Scheduler φ) : List Register :=
  n.stateEgresses.filterMap vcStateQueue ++ (n.pipeQueues ++ n.pointerQueues)

/-- The queues to which an evaluation may return a credit. -/
def Scheduler.creditQueues (depth : ℕ) (n : Scheduler φ) (s : Net φ) : List Register :=
  (returnedCredits depth n s (transferRequests depth n s)).map Prod.fst

theorem mem_returnedCredits {x : Register × ℤ} :
    x ∈ returnedCredits depth n s requests ↔ n.timing.waitForTailCredit = true ∧
      ∃ i ∈ n.ingresses, firedFrom depth n s requests i = true ∧
        i.returnCreditQueue = some x.1 ∧ x.2 = (n.timing.creditDelay : ℤ) := by
  unfold returnedCredits
  cases n.timing.waitForTailCredit with
  | false => simp
  | true =>
    simp only [Bool.not_true, if_false, Bool.false_eq_true, mem_filterMap, true_and]
    refine exists_congr fun i => and_congr_right fun _ => ?_
    split
    · rename_i hfired
      rw [Option.map_eq_some_iff]
      constructor
      · rintro ⟨q, hq, rfl⟩
        exact ⟨hfired, hq, rfl⟩
      · rintro ⟨_, hq, hvalue⟩
        exact ⟨x.1, hq, Prod.ext rfl hvalue.symm⟩
    · rename_i hfired
      simp [hfired]

theorem Scheduler.Tidy.nodup_credits (h : n.Tidy) (requests : NoCEgress → List Bool) :
    ((returnedCredits depth n s requests).map fst).Nodup := by
  unfold returnedCredits
  split
  · exact nodup_nil
  · rw [map_filterMap]
    refine nodup_filterMap_of_key h.ingresses fun x hx y hy c hc hd => ?_
    have hqueue {i : NoCIngress} (hi : i ∈ n.ingresses)
        (hc : (if firedFrom depth n s requests i = true then
          i.returnCreditQueue.map fun q => (q, (n.timing.creditDelay : ℤ)) else none).map
          fst = some c) : i.returnCreditQueue = some c := by
      obtain ⟨u, hu, rfl⟩ := Option.map_eq_some_iff.mp hc
      obtain ⟨_, hu⟩ := Option.ite_none_right_eq_some.mp hu
      obtain ⟨q, hq, rfl⟩ := Option.map_eq_some_iff.mp hu
      exact hq
    obtain ⟨m, hm⟩ := h.returns hx (hqueue hx hc)
    obtain ⟨m', hm'⟩ := h.returns hy (hqueue hy hd)
    exact opposite_injective (credit.inj (hm.symm.trans hm')).2.2

theorem Scheduler.Tidy.nodup_states (h : n.Tidy) (hl : l.Sublist n.egresses) :
    (l.filterMap vcStateQueue).Nodup := by
  refine nodup_filterMap_of_key (h.egresses.sublist (hl.map _)) fun x hx y hy q hq hq' => ?_
  have heq := (h.state (hl.subset hx) hq).symm.trans (h.state (hl.subset hy) hq')
  exact (vc.inj heq).2

theorem Scheduler.Tidy.nodup_receives (h : n.Tidy) (hl : l.Sublist n.egresses) :
    (l.filterMap receiveCreditQueue).Nodup := by
  refine nodup_filterMap_of_key (h.egresses.sublist (hl.map _)) fun x hx y hy q hq hq' => ?_
  obtain ⟨m, hm⟩ := h.receives (hl.subset hx) hq
  obtain ⟨m', hm'⟩ := h.receives (hl.subset hy) hq'
  exact (credit.inj (hm.symm.trans hm')).2.2

theorem Scheduler.Tidy.nodup_pointers (h : n.Tidy) : n.pointerQueues.Nodup := by
  unfold pointerQueues
  split
  · refine Nodup.map_on ?_ (Nodup.of_map _ h.egresses)
    intro x hx y hy heq
    have hname : x.name = y.name := by
      cases hpipeline : n.timing.routerPipeline with
      | singleStageElastic =>
        rw [hpipeline] at heq
        exact (rr.inj heq).2
      | inputQueued =>
        rw [hpipeline] at heq
        exact (vaRr.inj heq).2
    exact inj_on_of_nodup_map h.egresses hx hy hname
  · exact nodup_nil

theorem stateEgresses_sublist : n.stateEgresses.Sublist n.egresses := by
  unfold stateEgresses
  cases n.timing.routerPipeline with
  | singleStageElastic => exact filter_sublist
  | inputQueued => exact Sublist.refl _

theorem Scheduler.Tidy.nodup_pipes (h : n.Tidy) : n.pipeQueues.Nodup := by
  unfold pipeQueues
  cases n.timing.routerPipeline with
  | singleStageElastic => exact nodup_nil
  | inputQueued =>
    refine Nodup.map_on ?_ (Nodup.of_map _ h.ingresses)
    intro x hx y hy heq
    exact inj_on_of_nodup_map h.ingresses hx hy (pipe.inj heq).2

theorem Scheduler.Tidy.mem_states (h : n.Tidy)
    (hq : q ∈ n.stateEgresses.filterMap vcStateQueue) : ∃ p, q = .vc n.node p := by
  obtain ⟨e, he, hq⟩ := mem_filterMap.mp hq
  exact ⟨_, h.state (stateEgresses_sublist.subset he) hq⟩

theorem mem_pipeQueues (hq : q ∈ n.pipeQueues) : ∃ p, q = .pipe n.node p := by
  unfold pipeQueues at hq
  cases hpipeline : n.timing.routerPipeline with
  | singleStageElastic =>
    rw [hpipeline] at hq
    cases hq
  | inputQueued =>
    rw [hpipeline] at hq
    obtain ⟨i, _, rfl⟩ := mem_map.mp hq
    exact ⟨_, rfl⟩

theorem mem_pointerQueues (hq : q ∈ n.pointerQueues) :
    (∃ p, q = .rr n.node p) ∨ ∃ p, q = .vaRr n.node p := by
  unfold pointerQueues at hq
  split at hq
  · obtain ⟨e, _, rfl⟩ := mem_map.mp hq
    cases n.timing.routerPipeline with
    | singleStageElastic => exact .inl ⟨_, rfl⟩
    | inputQueued => exact .inr ⟨_, rfl⟩
  · cases hq

theorem Scheduler.Tidy.mem_stateQueues (h : n.Tidy) (hq : q ∈ n.stateQueues) :
    q.writer = n.node ∧ q.reader = n.node ∧ ∀ a b p, q ≠ .credit a b p := by
  rcases mem_append.mp hq with hq | hq
  · obtain ⟨p, rfl⟩ := h.mem_states hq
    exact ⟨rfl, rfl, nofun⟩
  rcases mem_append.mp hq with hq | hq
  · obtain ⟨p, rfl⟩ := mem_pipeQueues hq
    exact ⟨rfl, rfl, nofun⟩
  · rcases mem_pointerQueues hq with ⟨p, rfl⟩ | ⟨p, rfl⟩
    · exact ⟨rfl, rfl, nofun⟩
    · exact ⟨rfl, rfl, nofun⟩

theorem Scheduler.Tidy.nodup_stateQueues (h : n.Tidy) : n.stateQueues.Nodup := by
  refine nodup_append.mpr ⟨h.nodup_states stateEgresses_sublist,
    nodup_append.mpr ⟨h.nodup_pipes, h.nodup_pointers, ?_⟩, ?_⟩
  · rintro x hx y hy rfl
    obtain ⟨p, rfl⟩ := mem_pipeQueues hx
    rcases mem_pointerQueues hy with ⟨_, hy⟩ | ⟨_, hy⟩
    · cases hy
    · cases hy
  · rintro x hx y hy rfl
    obtain ⟨p, rfl⟩ := h.mem_states hx
    rcases mem_append.mp hy with hy | hy
    · obtain ⟨_, hy⟩ := mem_pipeQueues hy
      cases hy
    · rcases mem_pointerQueues hy with ⟨_, hy⟩ | ⟨_, hy⟩
      · cases hy
      · cases hy

theorem map_fst_states {l : List β} {f : β → Option Register} {g : β → ℤ} :
    (l.filterMap fun e => (f e).map fun q => (q, g e)).map fst = l.filterMap f := by
  rw [map_filterMap]
  refine congrArg (filterMap · l) (funext fun e => ?_)
  cases f e with
  | none => rfl
  | some q => rfl

theorem map_fst_pipes {g : NoCIngress → ℕ → ℤ} :
    (n.ingresses.zipIdx.map fun x => (pipe n.node x.1.name, g x.1 x.2)).map fst =
      n.ingresses.map fun i => .pipe n.node i.name := by
  have hfst := congrArg (List.map fun i : NoCIngress => pipe n.node i.name)
    (zipIdx_map_fst 0 n.ingresses)
  rw [map_map] at hfst ⊢
  exact hfst

theorem map_fst_pointers {c : Prop} [Decidable c] {f : NoCEgress → Register} {g : NoCEgress → ℤ} :
    (if c then l.map fun e => (f e, g e) else []).map fst =
      if c then l.map f else [] := by
  split
  · rw [map_map]
    rfl
  · rfl

theorem perm_sent : ((evaluate depth n s).sent.map fst).Perm
    (n.stateQueues ++ n.creditQueues depth s) := by
  unfold evaluate stateQueues creditQueues stateEgresses
    pipeQueues pointerQueues transferRequests
  cases n.timing.routerPipeline with
  | singleStageElastic =>
    simp only [nocScheduler, map_append, map_fst_states, map_fst_pointers, append_assoc]
    exact Perm.append_left _ perm_append_comm
  | inputQueued =>
    simp only [nocIqScheduler, map_append, map_fst_states, map_fst_pointers, map_fst_pipes]
    rw [append_assoc, append_assoc]
    exact perm_append_comm

theorem perm_received : (evaluate depth n s).received.Perm
    (n.stateQueues ++ (n.egresses.filter (creditEgress n)).filterMap
      receiveCreditQueue) := by
  have hcredits : (n.egresses.flatMap fun e => if creditEgress n e = true then
      e.receiveCreditQueue.toList else []) =
      (n.egresses.filter (creditEgress n)).filterMap receiveCreditQueue := by
    rw [filterMap_filter, filterMap_eq_flatMap_toList]
    refine congrArg (flatMap · n.egresses) (funext fun e => ?_)
    split
    · rfl
    · rfl
  unfold evaluate stateQueues stateEgresses pipeQueues
    pointerQueues
  cases n.timing.routerPipeline with
  | singleStageElastic =>
    simp only [nocScheduler, map_fst_pointers]
    have hsplit := flatMap_append_perm (n.egresses.filter (creditEgress n))
      (fun e => e.vcStateQueue.toList) fun e => e.receiveCreditQueue.toList
    rw [← filterMap_eq_flatMap_toList, ← filterMap_eq_flatMap_toList] at hsplit
    refine (hsplit.symm.append_right _).trans ?_
    rw [append_assoc, append_assoc]
    exact Perm.append_left _ perm_append_comm
  | inputQueued =>
    simp only [nocIqScheduler, map_fst_pointers, map_fst_pipes]
    have hsplit := flatMap_append_perm n.egresses (fun e => e.vcStateQueue.toList)
      fun e => if creditEgress n e = true then e.receiveCreditQueue.toList else []
    rw [hcredits, ← filterMap_eq_flatMap_toList] at hsplit
    refine ((hsplit.symm.append_left _).append_right _).trans ?_
    generalize n.egresses.filterMap vcStateQueue = states
    generalize filterMap receiveCreditQueue _ = credits
    generalize (n.ingresses.map fun i => pipe n.node i.name) = pipes
    rw [← append_assoc, append_assoc (pipes ++ states), append_assoc states]
    refine (perm_append_comm.append_right _).trans ?_
    rw [append_assoc, append_assoc]
    refine Perm.append_left _ (Perm.append_left _ perm_append_comm)

theorem Scheduler.Tidy.nodup_sent (h : n.Tidy) : ((evaluate depth n s).sent.map fst).Nodup := by
  refine perm_sent.nodup_iff.mpr (nodup_append.mpr ⟨h.nodup_stateQueues, h.nodup_credits _, ?_⟩)
  rintro x hx y hy rfl
  obtain ⟨u, hu, rfl⟩ := mem_map.mp hy
  obtain ⟨_, i, hi, _, hq, _⟩ := mem_returnedCredits.mp hu
  obtain ⟨m, hm⟩ := h.returns hi hq
  exact (h.mem_stateQueues hx).2.2 _ _ _ hm

theorem Scheduler.Tidy.nodup_received (h : n.Tidy) : (evaluate depth n s).received.Nodup := by
  refine perm_received.nodup_iff.mpr (nodup_append.mpr
    ⟨h.nodup_stateQueues, h.nodup_receives filter_sublist, ?_⟩)
  rintro x hx y hy rfl
  obtain ⟨e, he, hq⟩ := mem_filterMap.mp hy
  obtain ⟨m, hm⟩ := h.receives (mem_filter.mp he).1 hq
  exact (h.mem_stateQueues hx).2.2 _ _ _ hm

theorem Scheduler.Tidy.writer_of_sent (h : n.Tidy) {x : Register × ℤ}
    (hx : x ∈ (evaluate depth n s).sent) : x.1.writer = n.node := by
  rcases mem_append.mp (perm_sent.subset (mem_map_of_mem hx)) with hq | hq
  · exact (h.mem_stateQueues hq).1
  · obtain ⟨u, hu, huq⟩ := mem_map.mp hq
    obtain ⟨_, i, hi, _, hqueue, _⟩ := mem_returnedCredits.mp hu
    obtain ⟨m, hm⟩ := h.returns hi hqueue
    rw [← huq, hm]
    rfl

theorem Scheduler.Tidy.reader_of_received (h : n.Tidy)
    (hq : q ∈ (evaluate depth n s).received) : q.reader = n.node := by
  rcases mem_append.mp (perm_received.subset hq) with hq | hq
  · exact (h.mem_stateQueues hq).2.1
  · obtain ⟨e, he, hqueue⟩ := mem_filterMap.mp hq
    obtain ⟨m, hm⟩ := h.receives (mem_filter.mp he).1 hqueue
    rw [hm]
    rfl

theorem received_of_state (hq : q ∈ n.stateQueues) : q ∈ (evaluate depth n s).received :=
  perm_received.symm.subset (mem_append_left _ hq)

theorem exists_sent_of_state (hq : q ∈ n.stateQueues) :
    ∃ v, (q, v) ∈ (evaluate depth n s).sent := by
  obtain ⟨⟨_, v⟩, hx, rfl⟩ :=
    mem_map.mp (perm_sent.symm.subset (mem_append_left (n.creditQueues depth s) hq))
  exact ⟨v, hx⟩

/-- What an evaluation finds out about the state of an egress. -/
def egressEffective (n : Scheduler φ) (s : Net φ) (e : NoCEgress) : ℤ :=
  match n.timing.routerPipeline with
  | .singleStageElastic => vcEffective s e
  | .inputQueued => ownerEffective n s e

/-- The state that an evaluation writes back for an egress. -/
def egressNext (depth : ℕ) (n : Scheduler φ) (s : Net φ) (e : NoCEgress) : ℤ :=
  match n.timing.routerPipeline with
  | .singleStageElastic =>
    if firedInto depth n s (transferRequests depth n s) e then vcWait else vcEffective s e
  | .inputQueued => ownerNext depth n s e

theorem sent_egress (he : e ∈ n.stateEgresses) (hq : e.vcStateQueue = some q) :
    (q, egressNext depth n s e) ∈ (evaluate depth n s).sent := by
  unfold stateEgresses at he
  unfold evaluate egressNext transferRequests
  cases hpipeline : n.timing.routerPipeline with
  | singleStageElastic =>
    rw [hpipeline] at he
    dsimp only [nocScheduler]
    refine mem_append_left _ (mem_append_left _ (mem_filterMap.mpr ⟨e, he, ?_⟩))
    rw [hq]
    rfl
  | inputQueued =>
    rw [hpipeline] at he
    dsimp only [nocIqScheduler]
    refine mem_append_left _ (mem_append_left _ (mem_append_right _
      (mem_filterMap.mpr ⟨e, he, ?_⟩)))
    rw [hq]
    rfl

theorem sent_pipe (hpipeline : n.timing.routerPipeline = .inputQueued)
    (hk : n.ingresses[k]? = some i) :
    (.pipe n.node i.name, pipeNext depth n s i k) ∈ (evaluate depth n s).sent := by
  unfold evaluate
  rw [hpipeline]
  dsimp only [nocIqScheduler]
  refine mem_append_left _ (mem_append_right _ (mem_map.mpr ⟨(i, k), ?_, rfl⟩))
  refine mem_of_getElem? (i := k) ?_
  rw [getElem?_zipIdx, hk]
  simp

theorem sent_credit (hwait : n.timing.waitForTailCredit = true) (hi : i ∈ n.ingresses)
    (hq : i.returnCreditQueue = some q)
    (hfired : firedFrom depth n s (transferRequests depth n s) i = true) :
    (q, (n.timing.creditDelay : ℤ)) ∈ (evaluate depth n s).sent := by
  have hcredit : (q, (n.timing.creditDelay : ℤ)) ∈
      returnedCredits depth n s (transferRequests depth n s) :=
    mem_returnedCredits.mpr ⟨hwait, i, hi, hfired, hq, rfl⟩
  unfold evaluate
  unfold transferRequests at hcredit
  cases hpipeline : n.timing.routerPipeline with
  | singleStageElastic =>
    rw [hpipeline] at hcredit
    exact mem_append_left _ (mem_append_right _ hcredit)
  | inputQueued =>
    rw [hpipeline] at hcredit
    exact mem_append_left _ (mem_append_left _ (mem_append_left _ hcredit))

theorem Scheduler.Tidy.fired_of_credit (h : n.Tidy) (hi : i ∈ n.ingresses)
    (hq : i.returnCreditQueue = some q) {v : ℤ} (hx : (q, v) ∈ (evaluate depth n s).sent) :
    firedFrom depth n s (transferRequests depth n s) i = true := by
  rcases mem_append.mp (perm_sent.subset (mem_map_of_mem hx)) with hmem | hmem
  · obtain ⟨m, hm⟩ := h.returns hi hq
    exact absurd hm ((h.mem_stateQueues hmem).2.2 _ _ _)
  · obtain ⟨u, hu, huq⟩ := mem_map.mp hmem
    obtain ⟨_, i', hi', hfired, hq', _⟩ := mem_returnedCredits.mp hu
    obtain ⟨m, hm⟩ := h.returns hi hq
    obtain ⟨m', hm'⟩ := h.returns hi' hq'
    have hname : i'.name = i.name :=
      opposite_injective (credit.inj (hm'.symm.trans (huq.trans hm))).2.2
    rwa [inj_on_of_nodup_map h.ingresses hi' hi hname] at hfired

/-! ### Transfers between ports -/

theorem length_transferRequests : (transferRequests depth n s e).length = n.ingresses.length := by
  unfold transferRequests
  cases n.timing.routerPipeline with
  | singleStageElastic =>
    unfold arbiterRequests
    cases n.arbitration <;> simp
  | inputQueued => simp [saRequests]

/-- A transfer from `i` to `e` fires. -/
def Moves (depth : ℕ) (n : Scheduler φ) (s : Net φ) (e : NoCEgress) (i : NoCIngress) : Prop :=
  ∃ a, (i.queue, e.queue, a) ∈ (evaluate depth n s).moves

theorem forall₂_candidates (h : ∀ e, (requests e).length = n.ingresses.length) :
    Forall₂ (fun (x : NoCEgress × NoCIngress) (c : Candidate Channel) =>
        c.source = x.2.queue ∧ c.destination = x.1.queue)
      (n.egresses.flatMap fun e => n.ingresses.map fun i => (e, i)) (candidates n requests) := by
  have hrow (e : NoCEgress) {l : List NoCIngress} {flags : List Bool}
      (h : flags.length = l.length) :
      Forall₂ (fun (x : NoCEgress × NoCIngress) (c : Candidate Channel) =>
          c.source = x.2.queue ∧ c.destination = x.1.queue)
        (l.map fun i => (e, i)) ((l.zip flags).map fun x =>
          ⟨x.2, x.1.queue, e.queue, [pin n.node x.1.name, pout n.node e.name]⟩) := by
    induction l generalizing flags with
    | nil => exact .nil
    | cons i rest ih =>
      cases flags with
      | nil => simp at h
      | cons flag flags => exact .cons ⟨rfl, rfl⟩ (ih (by simpa using h))
  unfold candidates
  induction n.egresses with
  | nil => exact .nil
  | cons e rest ih => exact rel_append (hrow e (h e)) ih

theorem candidate_at (h : ∀ e, (requests e).length = n.ingresses.length) {c : Candidate Channel}
    (hx : (n.egresses.flatMap fun e => n.ingresses.map fun i => (e, i))[k]? = some x)
    (hc : (candidates n requests)[k]? = some c) :
    c.source = x.2.queue ∧ c.destination = x.1.queue := by
  obtain ⟨_, hat⟩ := forall₂_iff_get.mp (forall₂_candidates h)
  obtain ⟨hlt, rfl⟩ := List.getElem?_eq_some_iff.mp hx
  obtain ⟨hlt', rfl⟩ := List.getElem?_eq_some_iff.mp hc
  exact hat k hlt hlt'

theorem mem_pairs : x ∈ (n.egresses.flatMap fun e => n.ingresses.map fun i => (e, i)) ↔
      x.1 ∈ n.egresses ∧ x.2 ∈ n.ingresses := by
  simp [Prod.ext_iff]

section

variable (htidy : n.Tidy) (hdistinct : n.Distinct)

include htidy hdistinct

theorem mem_fires {x : NoCEgress × NoCIngress} :
    (x, true) ∈ fires depth n s (transferRequests depth n s) ↔
      x.1 ∈ n.egresses ∧ x.2 ∈ n.ingresses ∧ Moves depth n s x.1 x.2 := by
  have hlength (e : NoCEgress) : (transferRequests depth n s e).length = n.ingresses.length :=
    length_transferRequests
  unfold fires Moves
  rw [evaluate_moves, hdistinct.ported.transfers_eq]
  simp only [hdistinct.ported.mem_moves]
  constructor
  · intro h
    obtain ⟨k, hk⟩ := getElem?_of_mem h
    obtain ⟨hx, hflag⟩ := getElem?_zip_eq_some.mp hk
    rw [map_map, getElem?_map, Option.map_eq_some_iff] at hflag
    obtain ⟨⟨c, grant⟩, hc, hsome⟩ := hflag
    obtain ⟨a, ha⟩ := Option.isSome_iff_exists.mp hsome
    obtain ⟨hgrant, hroom, hhead⟩ := fired_eq_some.mp ha
    obtain ⟨hsource, hdestination⟩ :=
      candidate_at hlength hx (getElem?_zip_eq_some.mp hc).1
    obtain ⟨he, hi⟩ := mem_pairs.mp (mem_of_getElem? hx)
    rw [hsource] at hhead
    rw [hdestination] at hroom
    exact ⟨he, hi, a, (c, grant), mem_of_getElem? hc, hgrant, hsource, hdestination, hhead, hroom⟩
  · rintro ⟨he, hi, a, ⟨c, grant⟩, hc, hgrant, hsource, hdestination, hhead, hroom⟩
    obtain ⟨k, hk⟩ := getElem?_of_mem hc
    have hck := (getElem?_zip_eq_some.mp hk).1
    obtain ⟨y, hy⟩ : ∃ y,
        (n.egresses.flatMap fun e => n.ingresses.map fun i => (e, i))[k]? = some y := by
      obtain ⟨hlt, _⟩ := List.getElem?_eq_some_iff.mp hck
      rw [← (forall₂_candidates hlength).length_eq] at hlt
      exact ⟨_, getElem?_eq_getElem hlt⟩
    obtain ⟨hsource', hdestination'⟩ := candidate_at hlength hy hck
    obtain ⟨hye, hyi⟩ := mem_pairs.mp (mem_of_getElem? hy)
    -- the queues tell the ports
    have heq : y = x := by
      refine Prod.ext ?_ ?_
      · exact inj_on_of_nodup_map htidy.egresses hye he
          (hdistinct.2 _ hye _ he (hdestination'.symm.trans hdestination))
      · exact inj_on_of_nodup_map htidy.ingresses hyi hi
          (hdistinct.1 _ hyi _ hi (hsource'.symm.trans hsource))
    rw [heq] at hy
    refine mem_of_getElem? (i := k) (getElem?_zip_eq_some.mpr ⟨hy, ?_⟩)
    rw [map_map, getElem?_map, hk]
    refine congrArg some (Option.isSome_iff_exists.mpr ⟨a, fired_eq_some.mpr ⟨hgrant, ?_, ?_⟩⟩)
    · rw [hdestination]
      exact hroom
    · rw [hsource]
      exact hhead

theorem firedInto_iff (he : e ∈ n.egresses) :
    firedInto depth n s (transferRequests depth n s) e = true ↔
      ∃ i ∈ n.ingresses, Moves depth n s e i := by
  unfold firedInto
  rw [any_eq_true]
  constructor
  · rintro ⟨⟨⟨e', i⟩, flag⟩, hx, hfired⟩
    obtain ⟨hname, hflag⟩ := Bool.and_eq_true_iff.mp hfired
    obtain rfl : flag = true := hflag
    obtain ⟨he', hi, hmoves⟩ := (mem_fires htidy hdistinct).mp hx
    obtain rfl := inj_on_of_nodup_map htidy.egresses he' he (of_decide_eq_true hname)
    exact ⟨i, hi, hmoves⟩
  · rintro ⟨i, hi, hmoves⟩
    exact ⟨((e, i), true), (mem_fires htidy hdistinct).mpr ⟨he, hi, hmoves⟩, by simp⟩

theorem firedFrom_iff (hi : i ∈ n.ingresses) :
    firedFrom depth n s (transferRequests depth n s) i = true ↔
      ∃ e ∈ n.egresses, Moves depth n s e i := by
  unfold firedFrom
  rw [any_eq_true]
  constructor
  · rintro ⟨⟨⟨e, i'⟩, flag⟩, hx, hfired⟩
    obtain ⟨hname, hflag⟩ := Bool.and_eq_true_iff.mp hfired
    obtain rfl : flag = true := hflag
    obtain ⟨he, hi', hmoves⟩ := (mem_fires htidy hdistinct).mp hx
    obtain rfl := inj_on_of_nodup_map htidy.ingresses hi' hi (of_decide_eq_true hname)
    exact ⟨e, he, hmoves⟩
  · rintro ⟨e, he, hmoves⟩
    exact ⟨((e, i), true), (mem_fires htidy hdistinct).mpr ⟨he, hi, hmoves⟩, by simp⟩

theorem Moves.requested (he : e ∈ n.egresses) (hi : i ∈ n.ingresses) (h : Moves depth n s e i) :
    (i, true) ∈ n.ingresses.zip (transferRequests depth n s e) := by
  obtain ⟨a, h⟩ := h
  rw [evaluate_moves, hdistinct.ported.mem_moves] at h
  obtain ⟨x, hx, hgrant, hsource, hdestination, _⟩ := h
  have hrequest := request_of_greedy hx hgrant
  obtain ⟨e', he', y, hy, hxy⟩ := mem_candidates.mp (mem_of_mem_zip hx)
  rw [hxy] at hrequest hsource hdestination
  obtain rfl := inj_on_of_nodup_map htidy.egresses he' he (hdistinct.2 _ he' _ he hdestination)
  have hyi := (of_mem_zip (a := y.1) (b := y.2) hy).1
  have hname := hdistinct.1 _ hyi _ hi hsource
  have hport := inj_on_of_nodup_map htidy.ingresses hyi hi hname
  obtain ⟨i', flag⟩ := y
  obtain rfl : i' = i := hport
  obtain rfl : flag = true := hrequest
  exact hy

end

end schedulers

/-! ### The queues of a network after a commit -/

namespace Network

variable {N : Network φ} {s : Net φ} {active : ℕ → Bool} {n : Scheduler φ} {q : Register}

theorem mem_proposals {β : Type} {f : Proposals φ → List β} {b : β} :
    b ∈ (N.proposals active s).flatMap f ↔
      ∃ n ∈ N.schedulers, active n.node = true ∧ b ∈ f (evaluate N.depth n s) := by
  simp [proposals, and_assoc]

theorem nodup_sent (h : N.Wired) (htidy : ∀ n ∈ N.schedulers, n.Tidy) :
    (((N.proposals active s).flatMap sent).map fst).Nodup := by
  rw [map_flatMap]
  refine h.nodup_proposals (fun n hn => (htidy n hn).nodup_sent) ?_ active
  intro n hn n' hn' b hb hb'
  obtain ⟨x, hx, rfl⟩ := mem_map.mp hb
  obtain ⟨y, hy, heq⟩ := mem_map.mp hb'
  rw [← (htidy n hn).writer_of_sent hx, ← heq, (htidy n' hn').writer_of_sent hy]

theorem nodup_received (h : N.Wired) (htidy : ∀ n ∈ N.schedulers, n.Tidy) :
    ((N.proposals active s).flatMap received).Nodup := by
  refine h.nodup_proposals (fun n hn => (htidy n hn).nodup_received) ?_ active
  intro n hn n' hn' b hb hb'
  rw [← (htidy n hn).reader_of_received hb, (htidy n' hn').reader_of_received hb']

theorem filter_of_nodup_keys {l : List (Register × ℤ)} {v : ℤ} (h : (l.map fst).Nodup)
    (hx : (q, v) ∈ l) : (l.filter fun x => x.1 = q).map snd = [v] := by
  induction l with
  | nil => cases hx
  | cons y rest ih =>
    obtain ⟨hy, hrest⟩ := nodup_cons.mp h
    rcases mem_cons.mp hx with rfl | hx
    · have hnone : rest.filter (fun x => x.1 = q) = [] := by
        rw [filter_eq_nil_iff]
        intro x hx heq
        exact hy (mem_map.mpr ⟨x, hx, of_decide_eq_true heq⟩)
      simp [hnone]
    · have hne : y.1 ≠ q := fun heq => hy (mem_map.mpr ⟨_, hx, heq.symm⟩)
      simp [hne, ih hrest hx]

/-- The values sent to a queue in a step. -/
def sentTo (N : Network φ) (active : ℕ → Bool) (s : Net φ) (q : Register) : List ℤ :=
  (((N.proposals active s).flatMap sent).filter fun x => x.1 = q).map Prod.snd

theorem sentTo_of_mem (h : N.Wired) (htidy : ∀ n ∈ N.schedulers, n.Tidy) (hn : n ∈ N.schedulers)
    (hactive : active n.node = true) {v : ℤ} (hx : (q, v) ∈ (evaluate N.depth n s).sent) :
    N.sentTo active s q = [v] :=
  filter_of_nodup_keys (nodup_sent h htidy) (mem_proposals.mpr ⟨n, hn, hactive, hx⟩)

theorem sentTo_eq_nil (hnone : ∀ n ∈ N.schedulers, active n.node = true →
    ∀ v, (q, v) ∉ (evaluate N.depth n s).sent) : N.sentTo active s q = [] := by
  rw [sentTo, map_eq_nil_iff, filter_eq_nil_iff]
  rintro ⟨q', v⟩ hx heq
  obtain ⟨n, hn, hactive, hx⟩ := mem_proposals.mp hx
  obtain rfl : q' = q := of_decide_eq_true heq
  exact hnone n hn hactive v hx

theorem registers_commit : (N.commit active s).registers q =
    commitRegister (s.registers q) (N.sentTo active s q)
      (((N.proposals active s).flatMap received).count q) := rfl

section

variable (h : N.Wired) (htidy : ∀ n ∈ N.schedulers, n.Tidy) (hn : n ∈ N.schedulers)

include h htidy hn

theorem count_received (hq : q ∈ (evaluate N.depth n s).received) :
    ((N.proposals active s).flatMap received).count q = if active n.node = true then 1 else 0 := by
  split
  · rename_i hactive
    exact count_eq_one_of_mem (nodup_received h htidy) (mem_proposals.mpr ⟨n, hn, hactive, hq⟩)
  · rename_i hactive
    rw [count_eq_zero]
    intro hmem
    obtain ⟨n', hn', hactive', hq'⟩ := mem_proposals.mp hmem
    rw [← (htidy n hn).reader_of_received hq, (htidy n' hn').reader_of_received hq'] at hactive
    exact hactive hactive'

theorem registers_write (hactive : active n.node = true) (hq : q ∈ n.stateQueues) {v : ℤ}
    (hx : (q, v) ∈ (evaluate N.depth n s).sent) (hlength : (s.registers q).length ≤ 1) :
    (N.commit active s).registers q = [v] := by
  rw [registers_commit, sentTo_of_mem h htidy hn hactive hx,
    count_received h htidy hn (received_of_state hq), if_pos hactive]
  unfold commitRegister registerDepth
  match s.registers q, hlength with
  | [], _ => rfl
  | [_], _ => rfl

theorem tryRecv_write (hactive : active n.node = true) (hq : q ∈ n.stateQueues) {v : ℤ}
    (hx : (q, v) ∈ (evaluate N.depth n s).sent) (hlength : (s.registers q).length ≤ 1) :
    (tryRecv (N.commit active s) q).1 = v := by
  unfold tryRecv
  rw [registers_write h htidy hn hactive hq hx hlength]

end

theorem registers_keep (htidy : ∀ n ∈ N.schedulers, n.Tidy) (hwriter : active q.writer = false)
    (hreader : active q.reader = false) : (N.commit active s).registers q = s.registers q := by
  rw [registers_commit, sentTo_eq_nil, count_eq_zero.mpr]
  · simp [commitRegister]
  · intro hmem
    obtain ⟨n, hn, hactive, hq⟩ := mem_proposals.mp hmem
    rw [(htidy n hn).reader_of_received hq, hactive] at hreader
    cases hreader
  · intro n hn hactive v hx
    have hnode := (htidy n hn).writer_of_sent hx
    rw [hnode, hactive] at hwriter
    cases hwriter

/-- The queues that packets leave in a step. -/
def departures (N : Network φ) (active : ℕ → Bool) (s : Net φ) : List Channel :=
  ((N.proposals active s).flatMap Proposals.moves).map Prod.fst

/-- The queues that packets enter in a step. -/
def arrivals (N : Network φ) (active : ℕ → Bool) (s : Net φ) : List Channel :=
  ((N.proposals active s).flatMap Proposals.moves).map fun m => m.2.1

theorem mem_departures (h : N.Wired) (htidy : ∀ n ∈ N.schedulers, n.Tidy) (hn : n ∈ N.schedulers)
    {i : NoCIngress} (hi : i ∈ n.ingresses) : i.queue ∈ N.departures active s ↔
      active n.node = true ∧
        firedFrom N.depth n s (transferRequests N.depth n s) i = true := by
  rw [firedFrom_iff (htidy n hn) (h.distinct hn) hi]
  constructor
  · intro hmem
    obtain ⟨⟨_, d, a⟩, hm, rfl⟩ := mem_map.mp hmem
    obtain ⟨n', hn', hactive, hm⟩ := mem_proposals.mp hm
    obtain ⟨i', hi', e, he, hqueue, rfl, _⟩ := mem_evaluate_moves (h.distinct hn') hm
    obtain rfl := h.eq_of_node hn' hn (h.ingress hn' hn hi' hi hqueue).1
    exact ⟨hactive, e, he, a, hm⟩
  · rintro ⟨hactive, e, he, a, hm⟩
    exact mem_map.mpr ⟨_, mem_proposals.mpr ⟨n, hn, hactive, hm⟩, rfl⟩

theorem mem_arrivals (h : N.Wired) (htidy : ∀ n ∈ N.schedulers, n.Tidy)
    (hn : n ∈ N.schedulers) {e : NoCEgress} (he : e ∈ n.egresses) : e.queue ∈ N.arrivals active s ↔
      active n.node = true ∧
        firedInto N.depth n s (transferRequests N.depth n s) e = true := by
  rw [firedInto_iff (htidy n hn) (h.distinct hn) he]
  constructor
  · intro hmem
    obtain ⟨⟨c, _, a⟩, hm, rfl⟩ := mem_map.mp hmem
    obtain ⟨n', hn', hactive, hm⟩ := mem_proposals.mp hm
    obtain ⟨i, hi, e', he', rfl, hqueue, _⟩ := mem_evaluate_moves (h.distinct hn') hm
    obtain rfl := h.eq_of_node hn' hn (h.egress hn' hn he' he hqueue).1
    exact ⟨hactive, i, hi, a, hm⟩
  · rintro ⟨hactive, i, hi, a, hm⟩
    exact mem_map.mpr ⟨_, mem_proposals.mpr ⟨n, hn, hactive, hm⟩, rfl⟩

theorem Wired.length_commit (h : N.Wired) (c : Channel) :
    ((N.commit active s).traffic.queues c).length + (N.departures active s).count c =
      (s.traffic.queues c).length + (N.arrivals active s).count c := by
  have hsource : (N.departures active s).count c ≤ (s.traffic.queues c).length := by
    by_cases hmem : c ∈ N.departures active s
    · rw [departures, count_eq_one_of_mem (h.nodup_sources active s) hmem]
      obtain ⟨⟨_, d, a⟩, hm, rfl⟩ := mem_map.mp hmem
      obtain ⟨n, hn, _, hm⟩ := mem_proposals.mp hm
      obtain ⟨_, _, _, _, _, _, hhead, _⟩ := mem_evaluate_moves (h.distinct hn) hm
      exact length_pos_of_mem (mem_of_head? hhead)
    · rw [count_eq_zero.mpr hmem]
      exact Nat.zero_le _
  have hlength : ((N.commit active s).traffic.queues c).length =
      (s.traffic.queues c).length + (N.arrivals active s).count c -
        (N.departures active s).count c := by
    change (s.traffic.committed _ c).length = _
    unfold Traffic.committed departures arrivals
    rw [length_drop, length_append, length_map, count_eq_countP,
      count_eq_countP, countP_map, countP_map, ← countP_eq_length_filter]
    rfl
  omega

end Network

end AgenticCircuit.Noc
