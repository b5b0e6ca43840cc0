import AgenticCircuit.Noc.Router

/-! # Networks of routers

A network is a list of schedulers over one set of queues.  In every step some of the schedulers
are evaluated from the committed contents of the queues, and their proposals are committed at
once; producers fill the local inputs and consumers empty the local outputs at any time.

* **`Network.Step`** is one such step, **`Network.Reachable`** a state of a run.
* **`Wired`**: no two ports of the network share a queue.
* **`Conforms`**: the requests of the schedulers follow given routes.
* **`delivers_of_reachable`**: a wired network that follows routes that shorten delivers. -/

namespace AgenticCircuit.Noc

open List
open Dialect (Policy)
open FifoNetwork (Flit Traffic Routes)
open Relation (ReflTransGen)

variable {φ : Type}

/-! ### Steps -/

structure Network (φ : Type) where
  /-- The entries of every data queue. -/
  depth : ℕ
  schedulers : List (Scheduler φ)

/-- A state queue after a commit: as many of the sent values as fit are appended, then the
received ones are dropped. -/
def commitRegister (tokens sent : List ℤ) (received : ℕ) : List ℤ :=
  (tokens ++ sent.take (registerDepth - tokens.length)).drop (min received tokens.length)

namespace Network

variable (N : Network φ) (active : ℕ → Bool) (s : Net φ)

/-- No queue holds anything. -/
def initial : Net φ := ⟨Traffic.empty, fun _ => [], fun _ => false⟩

/-- The proposals of the schedulers that are evaluated. -/
def proposals : List (Proposals φ) :=
  (N.schedulers.filter fun n => active n.node).map fun n => evaluate N.depth n s

/-- The schedulers at the active nodes are evaluated and their proposals committed. -/
def commit : Net φ :=
  let ps := N.proposals active s
  { traffic := s.traffic.commit (ps.flatMap Proposals.moves)
    registers := fun q => commitRegister (s.registers q)
      (((ps.flatMap Proposals.sent).filter fun x => x.1 = q).map Prod.snd)
      ((ps.flatMap Proposals.received).count q)
    evaluated := fun k => s.evaluated k || active k }

inductive Step : Net φ → Net φ → Prop
  | evaluate {s : Net φ} (active : ℕ → Bool) : Step s (N.commit active s)
  | accept {s : Net φ} {n : Scheduler φ} (a : φ) (hn : n ∈ N.schedulers)
      (hroom : (s.traffic.queues (.localIn n.node)).length < N.depth) :
      Step s { s with traffic := s.traffic.accept (.localIn n.node) a }
  | consume {s : Net φ} {n : Scheduler φ} {a : Flit Channel φ} {rest : List (Flit Channel φ)}
      (hn : n ∈ N.schedulers) (hhead : s.traffic.queues (.localOut n.node) = a :: rest) :
      Step s { s with traffic := s.traffic.consume (.localOut n.node) a }

def Reachable (s : Net φ) : Prop := ReflTransGen N.Step initial s

theorem Reachable.commits {N : Network φ} {s : Net φ} (h : N.Reachable s) (active : ℕ → Bool)
    (k : ℕ) : N.Reachable ((N.commit active)^[k] s) := by
  induction k generalizing s with
  | zero => exact h
  | succ k ih => exact ih (h.tail (.evaluate active))

/-- Some `ac.try_transfer` fires when all schedulers are evaluated. -/
def Fires : Prop := ∃ n ∈ N.schedulers, (evaluate N.depth n s).moves ≠ []

/-- No two ports of the network share a queue. -/
structure Wired : Prop where
  nodes : (N.schedulers.map Scheduler.node).Nodup
  ingress : ∀ {n n' i i'}, n ∈ N.schedulers → n' ∈ N.schedulers → i ∈ n.ingresses →
    i' ∈ n'.ingresses → i.queue = i'.queue → n.node = n'.node ∧ i.name = i'.name
  egress : ∀ {n n' e e'}, n ∈ N.schedulers → n' ∈ N.schedulers → e ∈ n.egresses →
    e' ∈ n'.egresses → e.queue = e'.queue → n.node = n'.node ∧ e.name = e'.name

/-- The requests of the schedulers follow the routes `R`, and packets enter and leave at the
local queues. -/
structure Conforms (R : Routes Channel φ) : Prop where
  route : ∀ {n i e a}, n ∈ N.schedulers → i ∈ n.ingresses → e ∈ n.egresses →
    n.route e.name a = true → R.next i.queue a = some e.queue
  input : ∀ {n}, n ∈ N.schedulers → R.input (.localIn n.node)
  output : ∀ {n}, n ∈ N.schedulers → R.output (.localOut n.node)

end Network

/-- The node that reads a channel of the network. -/
def Channel.reader : Channel → Option ℕ
  | .localIn node => some node
  | .localOut _ => none
  | .link _ target _ => some target

/-! ### The candidates of a scheduler -/

section candidates

variable {depth : ℕ} {n : Scheduler φ} {s : Net φ} {requests : NoCEgress → List Bool}

variable {e : NoCEgress} {i : NoCIngress}

theorem mem_candidates {c : Candidate Channel} : c ∈ candidates n requests ↔
    ∃ e ∈ n.egresses, ∃ x ∈ n.ingresses.zip (requests e),
      c = ⟨x.2, x.1.queue, e.queue, [pin n.node x.1.name, pout n.node e.name]⟩ := by
  unfold candidates
  simp [eq_comm]

/-- Ports of one scheduler with the same queue have the same name. -/
def Scheduler.Distinct (n : Scheduler φ) : Prop :=
  (∀ i ∈ n.ingresses, ∀ i' ∈ n.ingresses, i.queue = i'.queue → i.name = i'.name) ∧
    ∀ e ∈ n.egresses, ∀ e' ∈ n.egresses, e.queue = e'.queue → e.name = e'.name

theorem Network.Wired.distinct {N : Network φ} (h : N.Wired) (hn : n ∈ N.schedulers) : n.Distinct :=
  ⟨fun _ hi _ hi' heq => (h.ingress hn hn hi hi' heq).2,
    fun _ he _ he' heq => (h.egress hn hn he he' heq).2⟩

theorem Scheduler.Distinct.ported (h : n.Distinct) : Ported (candidates n requests) := by
  intro c hc d hd hshare
  obtain ⟨e, he, x, hx, rfl⟩ := mem_candidates.mp hc
  obtain ⟨e', he', x', hx', rfl⟩ := mem_candidates.mp hd
  rcases hshare with heq | heq
  · have hname := h.1 _ (of_mem_zip (a := x.1) (b := x.2) hx).1 _
      (of_mem_zip (a := x'.1) (b := x'.2) hx').1 heq
    exact ⟨pin n.node x.1.name, by simp, by simp [hname]⟩
  · have hname := h.2 e he e' he' heq
    exact ⟨pout n.node e.name, by simp, by simp [hname]⟩

theorem rrSelected_request {requests : List Bool} {pointer : ℤ} {target : ℕ}
    (h : rrSelected requests pointer target = true) : requests.getD target false = true := by
  obtain ⟨start, _, hstart⟩ := any_eq_true.mp h
  exact (Bool.and_eq_true_iff.mp hstart).2

theorem request_route (h : request depth n s e i = true) :
    routeRequest n s e i = true ∧ writable depth s e = true := by
  unfold request at h
  split at h
  · exact Bool.and_eq_true_iff.mp (Bool.and_eq_true_iff.mp h).1
  · exact Bool.and_eq_true_iff.mp h

theorem request_of_arbiterRequests (h : (i, true) ∈ n.ingresses.zip (arbiterRequests depth n s e)) :
    request depth n s e i = true := by
  obtain ⟨k, hk⟩ := getElem?_of_mem h
  obtain ⟨hi, hr⟩ := getElem?_zip_eq_some.mp hk
  have hrequests : (n.ingresses.map (request depth n s e))[k]? = some (request depth n s e i) := by
    rw [getElem?_map, hi]
    rfl
  unfold arbiterRequests at hr
  cases harbitration : n.arbitration with
  | greedyFixedPriority =>
    rw [harbitration] at hr
    exact Option.some.inj (hrequests.symm.trans hr)
  | roundRobin =>
    rw [harbitration, getElem?_map, Option.map_eq_some_iff] at hr
    obtain ⟨target, htarget, hselected⟩ := hr
    obtain ⟨_, rfl⟩ := List.getElem?_eq_some_iff.mp htarget
    have hreq := rrSelected_request hselected
    rw [getElem_range, getD_eq_getElem?_getD, hrequests] at hreq
    exact hreq

/-- What an input-queued scheduler asks of its arbiter: the owner of an egress, at the last
stage. -/
theorem owns_of_saRequests (h : (i, true) ∈ n.ingresses.zip (saRequests depth n s e)) :
    routeRequest n s e i = true ∧ writable depth s e = true ∧ pipeEffective n s i = iqSaBase ∧
      ∃ k, n.ingresses[k]? = some i ∧ ownerEffective n s e = (k + 1 : ℕ) := by
  obtain ⟨k, hk⟩ := getElem?_of_mem h
  obtain ⟨hi, hr⟩ := getElem?_zip_eq_some.mp hk
  unfold saRequests at hr
  rw [getElem?_map, getElem?_zipIdx, hi] at hr
  have hand := Option.some.inj hr
  simp only [Bool.and_eq_true, decide_eq_true_eq, Nat.zero_add] at hand
  exact ⟨hand.1.1.1, hand.2, hand.1.1.2, k, hi, hand.1.2⟩

theorem transferRequests_route {x : NoCIngress × Bool}
    (hx : x ∈ n.ingresses.zip (transferRequests depth n s e)) (hrequest : x.2 = true) :
    routeRequest n s e x.1 = true ∧ writable depth s e = true := by
  obtain ⟨i, flag⟩ := x
  obtain rfl : flag = true := hrequest
  unfold transferRequests at hx
  cases hpipeline : n.timing.routerPipeline with
  | singleStageElastic =>
    rw [hpipeline] at hx
    exact request_route (request_of_arbiterRequests hx)
  | inputQueued =>
    rw [hpipeline] at hx
    obtain ⟨hroute, hroom, _⟩ := owns_of_saRequests hx
    exact ⟨hroute, hroom⟩

theorem mem_evaluate_moves (h : n.Distinct) {c d : Channel} {a : Flit Channel φ}
    (hm : (c, d, a) ∈ (evaluate depth n s).moves) :
    ∃ i ∈ n.ingresses, ∃ e ∈ n.egresses, i.queue = c ∧ e.queue = d ∧
      (s.traffic.queues c).head? = some a ∧ n.route e.name a.payload = true := by
  rw [evaluate_moves, h.ported.mem_moves] at hm
  obtain ⟨x, hx, hgrant, rfl, rfl, hhead, _⟩ := hm
  have hrequest := request_of_greedy hx hgrant
  obtain ⟨e, he, y, hy, hxy⟩ := mem_candidates.mp (mem_of_mem_zip hx)
  rw [hxy] at hrequest hhead ⊢
  have hroute := (transferRequests_route hy hrequest).1
  unfold routeRequest at hroute
  rw [hhead] at hroute
  exact ⟨y.1, (of_mem_zip (a := y.1) (b := y.2) hy).1, e, he, rfl, rfl, hhead, hroute⟩

end candidates

/-! ### Delivery -/

namespace Network

variable {N : Network φ} {R : Routes Channel φ} {toGo : Channel → φ → ℕ} {s t : Net φ}

theorem mem_proposals_moves {active : ℕ → Bool} {m : Channel × Channel × Flit Channel φ}
    (hm : m ∈ (N.proposals active s).flatMap Proposals.moves) :
    ∃ n ∈ N.schedulers, m ∈ (evaluate N.depth n s).moves := by
  obtain ⟨p, hp, hm⟩ := mem_flatMap.mp hm
  obtain ⟨n, hn, rfl⟩ := mem_map.mp hp
  exact ⟨n, (mem_filter.mp hn).1, hm⟩

theorem Wired.eq_of_node (h : N.Wired) {n n' : Scheduler φ} (hn : n ∈ N.schedulers)
    (hn' : n' ∈ N.schedulers) (heq : n.node = n'.node) : n = n' :=
  inj_on_of_nodup_map h.nodes hn hn' heq

/-- What the schedulers propose has no duplicates when nothing is proposed at two nodes. -/
theorem Wired.nodup_proposals (h : N.Wired) {β : Type} {f : Proposals φ → List β}
    (hnodup : ∀ n ∈ N.schedulers, (f (evaluate N.depth n s)).Nodup)
    (hnode : ∀ n ∈ N.schedulers, ∀ n' ∈ N.schedulers, ∀ b ∈ f (evaluate N.depth n s),
      b ∈ f (evaluate N.depth n' s) → n.node = n'.node) (active : ℕ → Bool) :
    ((N.proposals active s).flatMap f).Nodup := by
  rw [proposals, flatMap_map, nodup_flatMap]
  refine ⟨fun n hn => hnodup n (mem_filter.mp hn).1, ?_⟩
  have hnodes : (N.schedulers.filter fun n => active n.node).Pairwise
      fun n n' => n.node ≠ n'.node :=
    (pairwise_map.mp h.nodes).sublist filter_sublist
  refine List.Pairwise.imp_of_mem ?_ hnodes
  intro n n' hn hn' hne b hb hb'
  exact hne (hnode n (mem_filter.mp hn).1 n' (mem_filter.mp hn').1 b hb hb')

/-- No queue is left twice in one step. -/
theorem Wired.nodup_sources (h : N.Wired) (active : ℕ → Bool) (s : Net φ) :
    (((N.proposals active s).flatMap Proposals.moves).map Prod.fst).Nodup := by
  rw [map_flatMap]
  refine h.nodup_proposals (fun n hn => ?_) (fun n hn n' hn' c hc hc' => ?_) active
  · rw [evaluate_moves]
    exact (h.distinct hn).ported.nodup_sources
  · obtain ⟨⟨_, d, a⟩, hm, rfl⟩ := mem_map.mp hc
    obtain ⟨⟨_, d', a'⟩, hm', heq⟩ := mem_map.mp hc'
    obtain ⟨i, hi, _, _, hi_queue, _⟩ := mem_evaluate_moves (h.distinct hn) hm
    obtain ⟨i', hi', _, _, hi'_queue, _⟩ := mem_evaluate_moves (h.distinct hn') hm'
    exact (h.ingress hn hn' hi hi' (hi_queue.trans (heq.symm.trans hi'_queue.symm))).1

/-- No queue is entered twice in one step. -/
theorem Wired.nodup_destinations (h : N.Wired) (active : ℕ → Bool) (s : Net φ) :
    (((N.proposals active s).flatMap Proposals.moves).map fun m => m.2.1).Nodup := by
  rw [map_flatMap]
  refine h.nodup_proposals (fun n hn => ?_) (fun n hn n' hn' d hd hd' => ?_) active
  · rw [evaluate_moves]
    exact (h.distinct hn).ported.nodup_destinations
  · obtain ⟨⟨c, _, a⟩, hm, rfl⟩ := mem_map.mp hd
    obtain ⟨⟨c', _, a'⟩, hm', heq⟩ := mem_map.mp hd'
    obtain ⟨_, _, e, he, _, he_queue, _⟩ := mem_evaluate_moves (h.distinct hn) hm
    obtain ⟨_, _, e', he', _, he'_queue, _⟩ := mem_evaluate_moves (h.distinct hn') hm'
    exact (h.egress hn hn' he he' (he_queue.trans (heq.symm.trans he'_queue.symm))).1

/-- Every step is a sequence of single moves along the routes. -/
theorem Step.traffic_steps (h : N.Wired) (hR : N.Conforms R) (hshort : R.Shortens toGo)
    (hstep : N.Step s t) : ReflTransGen (Traffic.Step R) s.traffic t.traffic := by
  cases hstep with
  | evaluate active =>
    refine Traffic.commit_steps hshort (h.nodup_sources active s) ?_
    rintro ⟨c, d, a⟩ hm
    obtain ⟨n, hn, hm⟩ := mem_proposals_moves hm
    obtain ⟨i, hi, e, he, rfl, rfl, hhead, hroute⟩ := mem_evaluate_moves (h.distinct hn) hm
    exact ⟨hhead, hR.route hn hi he hroute⟩
  | accept a hn hroom => exact .single (.accept _ a (hR.input hn))
  | consume hn hhead => exact .single (.consume (hR.output hn) hhead)

theorem delivers_of_reachable (h : N.Wired) (hR : N.Conforms R) (hshort : R.Shortens toGo)
    (hs : N.Reachable s) : s.traffic.Delivers R := by
  induction hs with
  | refl => exact Traffic.empty_delivers
  | tail _ hstep ih => exact ih.steps hshort (hstep.traffic_steps h hR hshort)

end Network

end AgenticCircuit.Noc
