import AgenticCircuit.Noc.Progress
import Mathlib.Data.Nat.Size

/-! # The ring

`_ring_declaration`: nodes in a circle, each with a link to the next one.  A packet names its
destination in one bit field of its route value and travels clockwise.

* **`RingNoC`** are the parameters the frontend accepts.
* **`Jammed`**: every link is full and every packet at the head of a queue wants the next link.
* **`ring_fires_iff`**: in a ring with something to do and room at its outputs no transfer fires
  exactly when it is jammed, which a ring of two nodes never is.  A ring of three nodes jams
  after one round of injections (`ring_of_three_jams`). -/

namespace AgenticCircuit.Noc

open List Channel
open FifoNetwork (Flit Traffic Routes)

variable {φ : Type}

/-! ### Declaration -/

/-- The parameters of an accepted `RingNoC`. -/
structure RingNoC (φ : Type) where
  nodes : ℕ
  queueDepth : ℕ
  routeOffset : ℕ
  routeValue : φ → BitVec 32
  nodes_range : 2 ≤ nodes ∧ nodes ≤ 16
  queueDepth_range : 1 ≤ queueDepth ∧ queueDepth ≤ 64
  route_fits : routeOffset + max 1 (Nat.size (nodes - 1)) ≤ 32

namespace RingNoC

variable (P : RingNoC φ)

def routeWidth : ℕ := max 1 (Nat.size (P.nodes - 1))

/-- `%dst`. -/
def dst (a : φ) : ℕ :=
  (P.routeValue a >>> P.routeOffset &&& BitVec.ofNat 32 (2 ^ P.routeWidth - 1)).toNat

/-- The decoded request of the scheduler at `node` for an egress. -/
def route (node : ℕ) (e : Port) (a : φ) : Bool :=
  match e with
  | .loc => decide (P.dst a < P.nodes) && decide (P.dst a = node)
  | .cw => decide (P.dst a < P.nodes) && decide (P.dst a ≠ node)
  | .north | .east | .south | .west => false

def following (node : ℕ) : ℕ := (node + 1) % P.nodes

def previous (node : ℕ) : ℕ := (node + P.nodes - 1) % P.nodes

def scheduler (node : ℕ) : Scheduler φ where
  node := node
  ingresses := [{ name := .cw, queue := .link (P.previous node) node .cw },
    { name := .loc, queue := .localIn node }]
  egresses := [{ name := .loc, queue := .localOut node },
    { name := .cw, queue := .link node (P.following node) .cw }]
  route := P.route node

/-- `_ring_declaration`. -/
def network : Network φ where
  depth := P.queueDepth
  schedulers := (List.range P.nodes).map P.scheduler

/-! ### Routes -/

/-- Where the node that reads a channel sends a payload. -/
def next (c : Channel) (a : φ) : Option Channel :=
  c.reader.bind fun node =>
    if P.nodes ≤ node then none
    else if P.route node .loc a then some (.localOut node)
    else if P.route node .cw a then some (.link node (P.following node) .cw)
    else none

def routes : Routes Channel φ where
  next := P.next
  input c := ∃ node < P.nodes, c = .localIn node
  output c := ∃ node, c = .localOut node

/-- The links between a node and the destination of a payload. -/
def distance (node : ℕ) (a : φ) : ℕ := (P.dst a + P.nodes - node) % P.nodes

def toGo (c : Channel) (a : φ) : ℕ :=
  match c with
  | .localIn node => P.distance node a + 2
  | .link _ target _ => P.distance target a + 1
  | .localOut _ => 0

variable {P} {n m : ℕ} {p : Port} {a : φ} {i : NoCIngress}

theorem next_eq_some {c d : Channel} : P.next c a = some d ↔
    ∃ node < P.nodes, c.reader = some node ∧ P.dst a < P.nodes ∧
      (P.dst a = node ∧ d = .localOut node ∨
        P.dst a ≠ node ∧ d = .link node (P.following node) .cw) := by
  unfold next
  rw [Option.bind_eq_some_iff]
  constructor
  · rintro ⟨node, hreader, h⟩
    split at h
    · cases h
    rename_i hlt
    refine ⟨node, not_le.mp hlt, hreader, ?_⟩
    split at h
    · rename_i hloc
      simp only [route, Bool.and_eq_true, decide_eq_true_eq] at hloc
      exact ⟨hloc.1, .inl ⟨hloc.2, (Option.some.inj h).symm⟩⟩
    split at h
    · rename_i hcw
      simp only [route, Bool.and_eq_true, decide_eq_true_eq] at hcw
      exact ⟨hcw.1, .inr ⟨hcw.2, (Option.some.inj h).symm⟩⟩
    · cases h
  · rintro ⟨node, hlt, hreader, hvalid, ⟨hdst, rfl⟩ | ⟨hdst, rfl⟩⟩
    · refine ⟨node, hreader, ?_⟩
      simp [not_le.mpr hlt, route, hdst]
    · refine ⟨node, hreader, ?_⟩
      simp [not_le.mpr hlt, route, hvalid, hdst]

theorem distance_following (hn : n < P.nodes) (hd : P.dst a < P.nodes) (hne : P.dst a ≠ n) :
    P.distance (P.following n) a + 1 = P.distance n a := by
  unfold distance following
  rcases lt_or_ge (P.dst a) n with hlt | hge
  · rw [Nat.mod_eq_of_lt (show P.dst a + P.nodes - n < P.nodes by omega)]
    rcases lt_or_ge (n + 1) P.nodes with hin | hout
    · rw [Nat.mod_eq_of_lt hin,
        Nat.mod_eq_of_lt (show P.dst a + P.nodes - (n + 1) < P.nodes by omega)]
      omega
    · obtain hlast : n + 1 = P.nodes := by omega
      rw [hlast, Nat.mod_self, Nat.sub_zero, Nat.add_mod_right, Nat.mod_eq_of_lt hd]
      omega
  · rw [Nat.mod_eq_of_lt (show n + 1 < P.nodes by omega),
      show P.dst a + P.nodes - n = P.dst a - n + P.nodes by omega, Nat.add_mod_right,
      show P.dst a + P.nodes - (n + 1) = P.dst a - (n + 1) + P.nodes by omega,
      Nat.add_mod_right, Nat.mod_eq_of_lt (show P.dst a - n < P.nodes by omega),
      Nat.mod_eq_of_lt (show P.dst a - (n + 1) < P.nodes by omega)]
    omega

theorem ring_shortens : P.routes.Shortens P.toGo where
  decreases := by
    intro c d a h
    obtain ⟨node, hlt, hreader, hvalid, ⟨_, rfl⟩ | ⟨hne, rfl⟩⟩ := next_eq_some.mp h
    · cases c with
      | localIn | link => exact Nat.zero_lt_succ _
      | localOut => cases hreader
    · have hcloser := distance_following hlt hvalid hne
      cases c with
      | localIn =>
        cases hreader
        change P.distance (P.following node) a + 1 < P.distance node a + 2
        omega
      | link =>
        cases hreader
        change P.distance (P.following node) a + 1 < P.distance node a + 1
        omega
      | localOut => cases hreader
  output := by
    rintro c ⟨node, rfl⟩ a
    rfl

/-! ### The emitted schedulers -/

theorem mem_schedulers {n : Scheduler φ} :
    n ∈ P.network.schedulers ↔ ∃ node < P.nodes, n = P.scheduler node := by
  simp [network, eq_comm]

theorem mem_ingresses (hi : i ∈ (P.scheduler n).ingresses) :
    i.name = .cw ∧ i.queue = .link (P.previous n) n .cw ∨
      i.name = .loc ∧ i.queue = .localIn n := by
  rcases mem_cons.mp hi with rfl | hi
  · exact .inl ⟨rfl, rfl⟩
  · rw [mem_singleton.mp hi]
    exact .inr ⟨rfl, rfl⟩

theorem mem_egresses {e : NoCEgress} (he : e ∈ (P.scheduler n).egresses) :
    e.name = .loc ∧ e.queue = .localOut n ∨
      e.name = .cw ∧ e.queue = .link n (P.following n) .cw := by
  rcases mem_cons.mp he with rfl | he
  · exact .inl ⟨rfl, rfl⟩
  · rw [mem_singleton.mp he]
    exact .inr ⟨rfl, rfl⟩

theorem ingress_reader (hi : i ∈ (P.scheduler n).ingresses) : i.queue.reader = some n := by
  rcases mem_ingresses hi with ⟨_, h⟩ | ⟨_, h⟩
  · rw [h]
    rfl
  · rw [h]
    rfl

theorem ring_wired : P.network.Wired where
  nodes := by
    rw [network, map_map]
    exact nodup_range.map fun _ _ h => h
  ingress := by
    intro n n' i i' hn hn' hi hi' heq
    obtain ⟨node, _, rfl⟩ := mem_schedulers.mp hn
    obtain ⟨node', _, rfl⟩ := mem_schedulers.mp hn'
    have hnode : some node = some node' := by
      rw [← ingress_reader hi, ← ingress_reader hi', heq]
    refine ⟨Option.some.inj hnode, ?_⟩
    rcases mem_ingresses hi with ⟨hname, h⟩ | ⟨hname, h⟩
    · rcases mem_ingresses hi' with ⟨hname', _⟩ | ⟨_, h'⟩
      · rw [hname, hname']
      · rw [h, h'] at heq
        cases heq
    · rcases mem_ingresses hi' with ⟨_, h'⟩ | ⟨hname', _⟩
      · rw [h, h'] at heq
        cases heq
      · rw [hname, hname']
  egress := by
    intro n n' e e' hn hn' he he' heq
    obtain ⟨node, _, rfl⟩ := mem_schedulers.mp hn
    obtain ⟨node', _, rfl⟩ := mem_schedulers.mp hn'
    rcases mem_egresses he with ⟨hname, h⟩ | ⟨hname, h⟩
    · rcases mem_egresses he' with ⟨hname', h'⟩ | ⟨_, h'⟩
      · rw [h, h'] at heq
        exact ⟨localOut.inj heq, hname.trans hname'.symm⟩
      · rw [h, h'] at heq
        cases heq
    · rcases mem_egresses he' with ⟨_, h'⟩ | ⟨hname', h'⟩
      · rw [h, h'] at heq
        cases heq
      · rw [h, h'] at heq
        exact ⟨(link.inj heq).1, hname.trans hname'.symm⟩

theorem ring_conforms : P.network.Conforms P.routes where
  route := by
    intro n i e a hn hi he hroute
    obtain ⟨node, hlt, rfl⟩ := mem_schedulers.mp hn
    rcases mem_egresses he with ⟨hname, h⟩ | ⟨hname, h⟩
    · rw [hname] at hroute
      simp only [scheduler, route, Bool.and_eq_true, decide_eq_true_eq] at hroute
      exact next_eq_some.mpr ⟨node, hlt, ingress_reader hi, hroute.1, .inl ⟨hroute.2, h⟩⟩
    · rw [hname] at hroute
      simp only [scheduler, route, Bool.and_eq_true, decide_eq_true_eq] at hroute
      exact next_eq_some.mpr ⟨node, hlt, ingress_reader hi, hroute.1, .inr ⟨hroute.2, h⟩⟩
  input := by
    intro n hn
    obtain ⟨node, hlt, rfl⟩ := mem_schedulers.mp hn
    exact ⟨node, hlt, rfl⟩
  output := fun _ => ⟨_, rfl⟩

/-! ### Where packets are -/

section runs

variable {a : Flit Channel φ} {s : Net φ}

theorem delivers (hs : P.network.Reachable s) : s.traffic.Delivers P.routes :=
  Network.delivers_of_reachable ring_wired ring_conforms ring_shortens hs

theorem heading (hs : P.network.Reachable s) (ha : a ∈ s.traffic.queues (.link n m p)) :
    n < P.nodes ∧ p = .cw ∧ m = P.following n ∧ P.dst a.payload < P.nodes ∧
      P.dst a.payload ≠ n := by
  have hdelivers := delivers hs
  have hentered := hdelivers.entered a ((hdelivers.kept a).mpr ⟨_, .inl ha⟩)
  rcases hdelivers.exists_previous (.inl ha) with horigin | ⟨d, k, hk, hnext⟩
  · obtain ⟨node, _, heq⟩ := hentered
    rw [heq] at horigin
    cases horigin
  · obtain ⟨node, hnode, _, hvalid, ⟨_, heq⟩ | ⟨hne, heq⟩⟩ := next_eq_some.mp hnext
    · cases heq
    · obtain ⟨rfl, rfl, rfl⟩ := link.inj heq
      exact ⟨hnode, rfl, rfl, hvalid, hne⟩

theorem previous_following (hn : n < P.nodes) : P.previous (P.following n) = n := by
  unfold previous following
  rcases lt_or_ge (n + 1) P.nodes with hin | hout
  · rw [Nat.mod_eq_of_lt hin, show n + 1 + P.nodes - 1 = n + P.nodes by omega,
      Nat.add_mod_right, Nat.mod_eq_of_lt hn]
  · rw [show n + 1 = P.nodes by omega, Nat.mod_self, zero_add,
      Nat.mod_eq_of_lt (by omega)]
    omega

theorem following_lt : P.following n < P.nodes := Nat.mod_lt _ (by have := P.nodes_range; omega)

variable {c : Channel}

theorem exists_ingress (hs : P.network.Reachable s) (ha : a ∈ s.traffic.queues c)
    (hc : c.reader = some n) : n < P.nodes ∧ ∃ i ∈ (P.scheduler n).ingresses, i.queue = c := by
  cases c with
  | localOut => cases hc
  | localIn node =>
    cases hc
    refine ⟨?_, _, mem_cons_of_mem _ mem_cons_self, rfl⟩
    have hdelivers := delivers hs
    obtain ⟨node, hnode, heq⟩ :=
      hdelivers.entered a ((hdelivers.kept a).mpr ⟨_, .inl ha⟩)
    rcases hdelivers.exists_previous (.inl ha) with horigin | ⟨d, k, hk, hnext⟩
    · rw [heq] at horigin
      obtain rfl := localIn.inj horigin
      exact hnode
    · obtain ⟨_, _, _, _, ⟨_, h⟩ | ⟨_, h⟩⟩ := next_eq_some.mp hnext
      · cases h
      · cases h
  | link source target p =>
    cases hc
    obtain ⟨hsource, rfl, rfl, _⟩ := heading hs ha
    refine ⟨following_lt, _, mem_cons_self, ?_⟩
    exact congrArg (fun k => link k _ .cw) (previous_following hsource)

/-! ### Jams -/

/-- Every link is full, and no packet at the head of a queue has arrived. -/
def Jammed (P : RingNoC φ) (s : Net φ) : Prop :=
  (∀ node < P.nodes, P.queueDepth ≤
    (s.traffic.queues (.link node (P.following node) .cw)).length) ∧
  ∀ c node a, c.reader = some node → (s.traffic.queues c).head? = some a → P.dst a.payload ≠ node

theorem plain : P.network.Plain := by
  refine ⟨fun n hn => ?_, fun n hn => ?_, fun n hn => ?_⟩
  all_goals obtain ⟨node, _, rfl⟩ := mem_schedulers.mp hn
  · rfl
  · rfl
  · exact cons_ne_nil _ _

/-- A packet at the head of a queue that cannot move waits for a full link. -/
theorem blocked (hs : P.network.Reachable s) (hfires : ¬ P.network.Fires s)
    (hspace : ∀ node < P.nodes, (s.traffic.queues (.localOut node)).length < P.queueDepth)
    (hc : c.reader = some n) (hhead : (s.traffic.queues c).head? = some a)
    (hvalid : P.dst a.payload < P.nodes) : n < P.nodes ∧ P.dst a.payload ≠ n ∧
      P.queueDepth ≤ (s.traffic.queues (.link n (P.following n) .cw)).length := by
  have ha : a ∈ s.traffic.queues c := mem_of_head? hhead
  obtain ⟨hn, i, hi, rfl⟩ := exists_ingress hs ha hc
  have hscheduler : P.scheduler n ∈ P.network.schedulers := mem_schedulers.mpr ⟨n, hn, rfl⟩
  have hne : P.dst a.payload ≠ n := by
    intro heq
    refine hfires (plain.fires_of_route ring_wired hs hscheduler hi mem_cons_self hhead ?_
      (hspace n hn))
    simp [scheduler, route, heq, hn]
  refine ⟨hn, hne, not_lt.mp fun hroom => ?_⟩
  refine hfires (plain.fires_of_route ring_wired hs hscheduler hi
    (mem_cons_of_mem _ mem_cons_self) hhead ?_ hroom)
  simp [scheduler, route, hvalid, hne]

theorem jammed_of_not_fires (hs : P.network.Reachable s) (hfires : ¬ P.network.Fires s)
    (hvalid : ∀ c, ∀ a ∈ s.traffic.queues c, P.dst a.payload < P.nodes)
    (hspace : ∀ node < P.nodes, (s.traffic.queues (.localOut node)).length < P.queueDepth)
    (hqueued : s.traffic.queues c ≠ []) (hc : c.reader = some n) : P.Jammed s := by
  have hwaits {c : Channel} {n : ℕ} (hqueued : s.traffic.queues c ≠ [])
      (hc : c.reader = some n) : n < P.nodes ∧
        P.queueDepth ≤ (s.traffic.queues (.link n (P.following n) .cw)).length := by
    obtain ⟨a, rest, hqueue⟩ := exists_cons_of_ne_nil hqueued
    have hhead : (s.traffic.queues c).head? = some a := by rw [hqueue]; rfl
    obtain ⟨hn, _, hfull⟩ := blocked hs hfires hspace hc hhead
      (hvalid c a (mem_of_head? hhead))
    exact ⟨hn, hfull⟩
  obtain ⟨hn, hfirst⟩ := hwaits hqueued hc
  -- from one full link to the next, all around the ring
  have haround : ∀ k, P.queueDepth ≤ (s.traffic.queues
      (.link ((n + k) % P.nodes) (P.following ((n + k) % P.nodes)) .cw)).length := by
    intro k
    induction k with
    | zero => rwa [add_zero, Nat.mod_eq_of_lt hn]
    | succ k ih =>
      have hnonempty : s.traffic.queues
          (.link ((n + k) % P.nodes) (P.following ((n + k) % P.nodes)) .cw) ≠ [] := by
        intro hnil
        rw [hnil] at ih
        exact Nat.not_succ_le_zero _ (P.queueDepth_range.1.trans ih)
      have hnext : (n + (k + 1)) % P.nodes = P.following ((n + k) % P.nodes) := by
        unfold following
        rw [Nat.mod_add_mod, add_assoc]
      rw [hnext]
      exact (hwaits hnonempty rfl).2
  refine ⟨fun node hnode => ?_, fun c node a hc hhead => ?_⟩
  · have hreach : (n + (node + P.nodes - n)) % P.nodes = node := by
      rw [show n + (node + P.nodes - n) = node + P.nodes by omega, Nat.add_mod_right,
        Nat.mod_eq_of_lt hnode]
    have hfull := haround (node + P.nodes - n)
    rwa [hreach] at hfull
  · exact (blocked hs hfires hspace hc hhead (hvalid c a (mem_of_head? hhead))).2.1

theorem not_fires_of_jammed (hjammed : P.Jammed s) : ¬ P.network.Fires s := by
  rintro ⟨n, hn, hmoves⟩
  obtain ⟨⟨c, d, a⟩, hm⟩ := exists_mem_of_ne_nil _ hmoves
  obtain ⟨node, hlt, rfl⟩ := mem_schedulers.mp hn
  have hdistinct := ring_wired.distinct hn
  obtain ⟨i, hi, e, he, rfl, rfl, hhead, hroute⟩ := mem_evaluate_moves hdistinct hm
  rcases mem_egresses he with ⟨hname, _⟩ | ⟨hname, hequeue⟩
  · rw [hname] at hroute
    simp only [scheduler, route, Bool.and_eq_true, decide_eq_true_eq] at hroute
    exact hjammed.2 _ _ a (ingress_reader hi) hhead hroute.2
  · rw [evaluate_moves, hdistinct.ported.mem_moves] at hm
    obtain ⟨_, _, _, _, _, _, hroom⟩ := hm
    rw [hequeue] at hroom
    exact absurd (hjammed.1 node hlt) (not_le.mpr hroom)

theorem not_jammed_of_two (hs : P.network.Reachable s) (htwo : P.nodes = 2) : ¬ P.Jammed s := by
  rintro ⟨hfull, hheads⟩
  have hzero := hfull 0 (by omega)
  cases hqueue : s.traffic.queues (.link 0 (P.following 0) .cw) with
  | nil =>
    rw [hqueue] at hzero
    exact absurd (P.queueDepth_range.1.trans hzero) (Nat.not_succ_le_zero _)
  | cons a rest =>
    have ha : a ∈ s.traffic.queues (.link 0 (P.following 0) .cw) := by
      rw [hqueue]
      exact mem_cons_self
    obtain ⟨_, _, _, hvalid, hne⟩ := heading hs ha
    have hone : P.following 0 = 1 := by
      unfold following
      rw [htwo]
    refine hheads _ _ a rfl (by rw [hqueue]; rfl) ?_
    omega

end runs

/-- As long as every local output has room and all packets name a node, a packet that waits at
a node makes the next evaluation fire a transfer, unless every link is full and every packet at
the head of a queue has further to go; with two nodes it always does. -/
theorem ring_fires_iff (P : RingNoC φ) {s : Net φ} (hs : P.network.Reachable s)
    (hvalid : ∀ c, ∀ a ∈ s.traffic.queues c, P.dst a.payload < P.nodes)
    (hqueued : ∃ node, s.traffic.queues (.localIn node) ≠ [] ∨
      ∃ source, s.traffic.queues (.link source node .cw) ≠ [])
    (hspace : ∀ node < P.nodes, (s.traffic.queues (.localOut node)).length < P.queueDepth) :
    (P.network.Fires s ↔ ¬ P.Jammed s) ∧ (P.nodes = 2 → P.network.Fires s) := by
  have hiff : P.network.Fires s ↔ ¬ P.Jammed s := by
    refine ⟨fun hfires hjammed => not_fires_of_jammed hjammed hfires, fun hfree => ?_⟩
    by_contra hfires
    obtain ⟨node, hlocal | ⟨source, hlink⟩⟩ := hqueued
    · exact hfree (jammed_of_not_fires hs hfires hvalid hspace hlocal rfl)
    · exact hfree (jammed_of_not_fires hs hfires hvalid hspace hlink rfl)
  exact ⟨hiff, fun htwo => hiff.mpr (not_jammed_of_two hs htwo)⟩

theorem one_deep : 1 ≤ 1 ∧ 1 ≤ 64 := by decide

/-- Three nodes with queues of one entry. -/
def threeNodes : RingNoC (BitVec 32) where
  nodes := 3
  queueDepth := 1
  routeOffset := 0
  routeValue := id
  nodes_range := by decide
  queueDepth_range := one_deep
  route_fits := by decide

/-- A packet from node 0 to node 2 moves, as not every link is full. -/
theorem ring_fires_iff_threeNodes :
    let s : Net (BitVec 32) :=
      ⟨Traffic.empty.accept (.localIn 0) (2#32), fun _ => [], fun _ => false⟩
    (threeNodes.network.Fires s ↔ ¬ threeNodes.Jammed s) ∧
      (threeNodes.nodes = 2 → threeNodes.network.Fires s) := by
  have hn : threeNodes.scheduler 0 ∈ threeNodes.network.schedulers :=
    mem_schedulers.mpr ⟨0, by decide, rfl⟩
  refine ring_fires_iff threeNodes
    (.single (.accept (s := Network.initial) (2#32) hn one_pos)) ?_
    ⟨0, .inl (cons_ne_nil _ _)⟩ fun _ _ => one_pos
  intro c a ha
  rcases Traffic.mem_accept_queues.mp ha with ha | ⟨_, rfl⟩
  · cases ha
  · decide

/-- Every node has accepted a packet for the node before it. -/
def injected : Net (BitVec 32) where
  traffic := ((Traffic.empty.accept (.localIn 0) 2#32).accept (.localIn 1) 0#32).accept
    (.localIn 2) 1#32
  registers := fun _ => []
  evaluated := fun _ => false

theorem injected_reachable : threeNodes.network.Reachable injected := by
  have hn (node : ℕ) (h : node < 3) : threeNodes.scheduler node ∈ threeNodes.network.schedulers :=
    mem_schedulers.mpr ⟨node, h, rfl⟩
  refine .tail (.tail (.single (.accept (s := Network.initial) (2#32) (hn 0 (by decide))
    one_pos)) (.accept (0#32) (hn 1 (by decide)) one_pos))
    (.accept (1#32) (hn 2 (by decide)) one_pos)

/-- After one evaluation of all nodes the three packets block each other. -/
theorem ring_of_three_jams : ∃ s, threeNodes.network.Reachable s ∧
    (∀ c, ∀ a ∈ s.traffic.queues c, threeNodes.dst a.payload < threeNodes.nodes) ∧
    (∃ node source, s.traffic.queues (.link source node .cw) ≠ []) ∧
    (∀ node < threeNodes.nodes,
      (s.traffic.queues (.localOut node)).length < threeNodes.queueDepth) ∧
    ¬ threeNodes.network.Fires s := by
  have hs : threeNodes.network.Reachable (threeNodes.network.commit (fun _ => true) injected) :=
    .tail injected_reachable (.evaluate fun _ => true)
  refine ⟨_, hs, fun c a ha => ?_, ⟨1, 0, by decide +kernel⟩, by decide +kernel, ?_⟩
  · have hall : ∀ b ∈ (threeNodes.network.commit (fun _ => true) injected).traffic.accepted,
        threeNodes.dst b.payload < threeNodes.nodes := by decide +kernel
    exact hall a (((delivers hs).kept a).mpr ⟨c, .inl ha⟩)
  · rintro ⟨n, hn, hmoves⟩
    have hnone : ∀ n ∈ threeNodes.network.schedulers, (evaluate threeNodes.network.depth n
        (threeNodes.network.commit (fun _ => true) injected)).moves.isEmpty = true := by
      decide +kernel
    exact hmoves (List.isEmpty_iff.mp (hnone n hn))

end RingNoC

end AgenticCircuit.Noc
