import AgenticCircuit.Noc.Mesh
import AgenticCircuit.Noc.Progress

/-! # The mesh never locks up

Packets turn from rows into columns and never back, so the channels of a mesh can be numbered
such that every packet waits for a channel with a greater number (`rank`).  A full channel at
which nothing moves therefore leads to a full channel further on, which cannot go on for ever:
as long as the local outputs take packets, some packet moves.

* **`heading`**: a packet in a link still has its way in the direction of the link.
* **`fires_of_queued`**: the induction over the ranks. -/

namespace AgenticCircuit.Noc

open List Option

open FifoNetwork (Flit Traffic Routes)

namespace MeshNoC

variable {φ : Type} {P : MeshNoC φ} {n m : ℕ} {p : Port} {a : Flit Channel φ} {s : Net φ}

variable {c : Channel}

theorem neighbor_lt (hn : n < P.width * P.height) (h : P.neighbor n p = some m) :
    m < P.width * P.height := by
  have hrow : n / P.width < P.height := Nat.div_lt_of_lt_mul hn
  have hm : m / P.width < P.height := by
    have hplace := beside_neighbor h
    cases p with
    | loc | cw => exact hplace.elim
    | north | south | east | west =>
      unfold Beside at hplace
      omega
  rw [Nat.mul_comm]
  exact (Nat.div_lt_iff_lt_mul P.width_range.1).mp hm

theorem neighbor_opposite (hn : n < P.width * P.height) (h : P.neighbor n p = some m) :
    P.neighbor m (opposite p) = some n := by
  have hrow : n / P.width < P.height := Nat.div_lt_of_lt_mul hn
  have hcol : n % P.width < P.width := Nat.mod_lt _ P.width_range.1
  have hback : n / P.width * P.width + n % P.width = n := by
    rw [Nat.mul_comm]
    exact Nat.div_add_mod n P.width
  have hplace := beside_neighbor h
  cases p with
  | loc | cw => exact hplace.elim
  | north =>
    obtain ⟨hdiv, hmod, _⟩ := hplace
    simp [opposite, neighbor, hdiv, hmod, hback]
  | east =>
    obtain ⟨hdiv, hmod⟩ := hplace
    simp [opposite, neighbor, hdiv, hmod, hback]
  | south =>
    obtain ⟨hdiv, hmod⟩ := hplace
    simp [opposite, neighbor, hdiv, hmod, hback, hrow]
  | west =>
    obtain ⟨hdiv, hmod⟩ := hplace
    simp [opposite, neighbor, hdiv, hmod, hback, hcol]

/-! ### Where packets are -/

theorem path_reader_lt {k : ℕ} (horigin : P.routes.input a.origin) (h : P.routes.path a k = some c)
    (hc : c.reader = some n) : n < P.width * P.height := by
  induction k generalizing c n with
  | zero =>
    obtain ⟨node, hnode, heq⟩ := horigin
    rw [← some.inj h, heq] at hc
    rw [← some.inj hc]
    exact hnode
  | succ k ih =>
    obtain ⟨d, hd, hnext⟩ := bind_eq_some_iff.mp h
    obtain ⟨node, hnode, ⟨_, rfl⟩ | ⟨p, _, _, m, hm, rfl⟩⟩ := next_eq_some.mp hnext
    · cases hc
    · rw [← some.inj hc]
      exact neighbor_lt (ih hd hnode) hm

theorem delivers (hs : P.network.Reachable s) : s.traffic.Delivers P.routes :=
  Network.delivers_of_reachable mesh_wired mesh_conforms mesh_shortens hs

theorem reader_lt (hs : P.network.Reachable s) (ha : a ∈ s.traffic.queues c)
    (hc : c.reader = some n) : n < P.width * P.height := by
  have hdelivers := delivers hs
  obtain ⟨k, hk⟩ := hdelivers.on_path (.inl ha)
  exact path_reader_lt (hdelivers.entered a ((hdelivers.kept a).mpr ⟨c, .inl ha⟩)) hk hc

theorem heading (hs : P.network.Reachable s) (ha : a ∈ s.traffic.queues (.link n m p)) :
    n < P.width * P.height ∧ P.route n p a.payload = true ∧ P.neighbor n p = some m := by
  have hdelivers := delivers hs
  have hentered := hdelivers.entered a ((hdelivers.kept a).mpr ⟨_, .inl ha⟩)
  rcases hdelivers.exists_previous (.inl ha) with horigin | ⟨d, k, hk, hnext⟩
  · obtain ⟨node, _, heq⟩ := hentered
    rw [heq] at horigin
    cases horigin
  · obtain ⟨node, hnode, ⟨_, heq⟩ | ⟨q, _, hroute, m', hm', heq⟩⟩ := next_eq_some.mp hnext
    · cases heq
    · obtain ⟨rfl, rfl, rfl⟩ := Channel.link.inj heq
      exact ⟨path_reader_lt hentered hk hnode, hroute, hm'⟩

theorem exists_linkIngress (hp : p ∈ meshDirections) (hm : P.neighbor n p = some m) :
    ∃ i ∈ P.ingresses n, i.queue = .link m n (opposite p) := by
  refine ⟨_, mem_append_left _ (mem_filterMap.mpr ⟨p, hp, map_eq_some_iff.mpr ⟨m, hm, rfl⟩⟩), rfl⟩

theorem exists_linkEgress (hp : p ∈ meshDirections) (hm : P.neighbor n p = some m) :
    ∃ e ∈ P.egresses n, e.name = p ∧ e.queue = .link n m p := by
  refine ⟨_, mem_cons_of_mem _ (mem_filterMap.mpr ⟨p, hp, map_eq_some_iff.mpr
    ⟨m, hm, rfl⟩⟩), rfl, rfl⟩

theorem exists_ingress (hs : P.network.Reachable s) (ha : a ∈ s.traffic.queues c)
    (hc : c.reader = some n) : ∃ i ∈ (P.scheduler n).ingresses, i.queue = c := by
  cases c with
  | localOut => cases hc
  | localIn node =>
    cases hc
    exact ⟨_, mem_append_right _ mem_cons_self, rfl⟩
  | link source target p =>
    cases hc
    obtain ⟨hsource, _, hneighbor⟩ := heading hs ha
    have hback := neighbor_opposite hsource hneighbor
    have hmem : opposite p ∈ meshDirections ∧ opposite (opposite p) = p := by
      have hplace := beside_neighbor hneighbor
      cases p <;> first | exact hplace.elim | decide
    obtain ⟨i, hi, hqueue⟩ := exists_linkIngress hmem.1 hback
    refine ⟨i, hi, ?_⟩
    rw [hqueue, hmem.2]

/-! ### The order of the channels -/

/-- Rows come before columns, and both are counted in their own direction. -/
def rank (P : MeshNoC φ) : Channel → ℕ
  | .localIn _ => 0
  | .localOut _ => 0
  | .link _ target .east => 1 + target % P.width
  | .link _ target .west => P.width - target % P.width
  | .link _ target .north => P.width + 1 + target / P.width
  | .link _ target .south => P.width + P.height - target / P.width
  | .link _ _ .loc => 0
  | .link _ _ .cw => 0

theorem rank_le (c : Channel) (hlt : ∀ n, c.reader = some n → n < P.width * P.height) :
    P.rank c ≤ P.width + P.height := by
  cases c with
  | localIn | localOut => exact Nat.zero_le _
  | link source target p =>
    have hrow : target / P.width < P.height := Nat.div_lt_of_lt_mul (hlt target rfl)
    have hcol : target % P.width < P.width := Nat.mod_lt _ P.width_range.1
    cases p
    all_goals
      simp only [rank]
      generalize target / P.width = row at hrow ⊢
      generalize target % P.width = col at hcol ⊢
      omega

/-- The channel a packet waits for has a greater rank. -/
theorem rank_lt (hs : P.network.Reachable s) (ha : a ∈ s.traffic.queues c) (hc : c.reader = some n)
    (hroute : P.route n p a.payload = true) (hneighbor : P.neighbor n p = some m) :
    P.rank c < P.rank (.link n m p) := by
  have hn : n < P.width * P.height := reader_lt hs ha hc
  have hm : m < P.width * P.height := neighbor_lt hn hneighbor
  have hrow : n / P.width < P.height := Nat.div_lt_of_lt_mul hn
  have hrow' : m / P.width < P.height := Nat.div_lt_of_lt_mul hm
  have hcol : n % P.width < P.width := Nat.mod_lt _ P.width_range.1
  have hcol' : m % P.width < P.width := Nat.mod_lt _ P.width_range.1
  have hplace := beside_neighbor hneighbor
  cases c with
  | localOut => cases hc
  | localIn node =>
    cases p with
    | loc | cw => exact hplace.elim
    | north | south | east | west =>
      simp only [rank]
      generalize m / P.width = row at hrow' ⊢
      omega
  | link source target q =>
    cases hc
    obtain ⟨_, hroute', hneighbor'⟩ := heading hs ha
    have hplace' := beside_neighbor hneighbor'
    -- the turn from `q` to `p` is straight on, or from a row into a column
    cases q with
    | loc | cw => exact hplace'.elim
    | north | south | east | west =>
      cases p with
      | loc | cw => exact hplace.elim
      | north | south | east | west =>
        simp only [route, Bool.and_eq_true, decide_eq_true_eq] at hroute hroute'
        unfold Beside at hplace hplace'
        simp only [rank]
        generalize n / P.width = row at *
        generalize m / P.width = row' at *
        generalize source / P.width = row'' at *
        omega

/-! ### Progress -/

theorem plain (hflow : P.timing.flowControl = .readyValid) : P.network.Plain := by
  obtain ⟨hpipeline, _, _, _, hwait⟩ := P.readyValid_plain hflow
  refine ⟨fun n hn => ?_, fun n hn => ?_, fun n hn => ?_⟩
  all_goals obtain ⟨node, _, rfl⟩ := mem_schedulers.mp hn
  · exact hpipeline
  · exact hwait
  · exact append_ne_nil_of_right_ne_nil _ (cons_ne_nil _ _)

/-- A packet that is queued before a node makes some packet move. -/
theorem fires_of_queued (hflow : P.timing.flowControl = .readyValid) (hs : P.network.Reachable s)
    (hvalid : ∀ c, ∀ a ∈ s.traffic.queues c, P.dstX a.payload < P.width ∧
      P.dstY a.payload < P.height)
    (hspace : ∀ node < P.width * P.height,
      (s.traffic.queues (.localOut node)).length < P.queueDepth) (hqueued : s.traffic.queues c ≠ [])
    (hc : c.reader = some n) : P.network.Fires s := by
  -- by the number of ranks above the channel
  induction hbound : P.width + P.height + 1 - P.rank c using Nat.strong_induction_on
    generalizing c n with
  | _ bound ih =>
    obtain ⟨a, rest, hqueue⟩ := exists_cons_of_ne_nil hqueued
    have ha : a ∈ s.traffic.queues c := by
      rw [hqueue]
      exact mem_cons_self
    have hhead : (s.traffic.queues c).head? = some a := by rw [hqueue]; rfl
    have hn : n < P.width * P.height := reader_lt hs ha hc
    have hscheduler : P.scheduler n ∈ P.network.schedulers := mem_schedulers.mpr ⟨n, hn, rfl⟩
    obtain ⟨i, hi, rfl⟩ := exists_ingress hs ha hc
    rcases exists_route hn (hvalid _ a ha).1 (hvalid _ a ha).2 with
      hloc | ⟨p, hp, hroute, m, hm⟩
    · exact (plain hflow).fires_of_route mesh_wired hs hscheduler hi mem_cons_self hhead
        hloc (hspace n hn)
    by_cases hroom : (s.traffic.queues (.link n m p)).length < P.queueDepth
    · obtain ⟨e, he, hname, hequeue⟩ := exists_linkEgress hp hm
      refine (plain hflow).fires_of_route mesh_wired hs hscheduler hi he hhead ?_ ?_
      · rw [hname]
        exact hroute
      · rw [hequeue]
        exact hroom
    · have hfull : s.traffic.queues (.link n m p) ≠ [] := by
        intro hnil
        rw [hnil] at hroom
        exact hroom P.queueDepth_range.1
      have hrank := rank_lt hs ha hc hroute hm
      refine ih _ ?_ hfull rfl rfl
      have hle := P.rank_le (.link n m p) fun k hk => by
        rw [← some.inj hk]
        exact neighbor_lt hn hm
      omega

/-- As long as every local output has room and all packets name a node, a packet that waits at
a node makes the next evaluation fire a transfer. -/
theorem mesh_deadlock_free (P : MeshNoC φ) (hflow : P.timing.flowControl = .readyValid)
    {s : Net φ} (hs : P.network.Reachable s)
    (hvalid : ∀ c, ∀ a ∈ s.traffic.queues c,
      P.dstX a.payload < P.width ∧ P.dstY a.payload < P.height)
    (hqueued : ∃ node, s.traffic.queues (.localIn node) ≠ [] ∨
      ∃ source p, s.traffic.queues (.link source node p) ≠ [])
    (hspace : ∀ node < P.width * P.height,
      (s.traffic.queues (.localOut node)).length < P.queueDepth) : P.network.Fires s := by
  obtain ⟨node, hlocal | ⟨source, p, hlink⟩⟩ := hqueued
  · exact fires_of_queued hflow hs hvalid hspace hlocal rfl
  · exact fires_of_queued hflow hs hvalid hspace hlink rfl

/-- Two nodes side by side, with queues of one entry and round-robin arbitration. -/
def sideBySide : MeshNoC (BitVec 32) where
  width := 2
  height := 1
  queueDepth := 1
  routeOffset := 0
  routeValue := id
  arbitration := .roundRobin
  timing := {}
  width_range := by decide
  height_range := by decide
  queueDepth_range := by decide
  creditDelay_le := by decide
  vcAllocDelay_le := by decide
  swAllocDelay_le := by decide
  readyValid_plain := by decide
  singleStage_direct := by decide
  inputQueued_delays := by decide
  creditDelay_waits := by decide
  route_fits := by decide

/-- A packet from the left node to the right one moves. -/
theorem mesh_deadlock_free_sideBySide : sideBySide.network.Fires
    ⟨Traffic.empty.accept (.localIn 0) (1#32), fun _ => [], fun _ => false⟩ := by
  have hn : sideBySide.scheduler 0 ∈ sideBySide.network.schedulers :=
    mem_schedulers.mpr ⟨0, by decide, rfl⟩
  have hs : sideBySide.network.Reachable
      ⟨Traffic.empty.accept (.localIn 0) (1#32), fun _ => [], fun _ => false⟩ :=
    .single (.accept (s := Network.initial) (1#32) hn Nat.one_pos)
  refine mesh_deadlock_free sideBySide rfl hs ?_ ⟨0, .inl (List.cons_ne_nil _ _)⟩ ?_
  · intro c a ha
    rcases Traffic.mem_accept_queues.mp ha with ha | ⟨_, rfl⟩
    · cases ha
    · exact ⟨by decide, by decide⟩
  · intro node _
    exact Nat.one_pos

end MeshNoC

end AgenticCircuit.Noc
