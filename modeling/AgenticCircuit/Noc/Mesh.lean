import AgenticCircuit.Noc.Network
import Mathlib.Data.Nat.Size

/-! # The mesh

`_mesh_declaration`: routers on a grid of `width` columns and `height` rows, node
`y * width + x` at column `x` and row `y`.  A packet names its destination in two bit fields of
its route value; it travels along its row first and along its column then.

* **`MeshNoC`** are the parameters the frontend accepts.
* **`mesh_wired`**, **`mesh_conforms`**, **`mesh_shortens`**: the emitted schedulers share no
  queue, follow the routes `meshRoutes`, and every hop shortens the way. -/

namespace AgenticCircuit.Noc

open Option

open Dialect (Policy)
open FifoNetwork (Flit Traffic Routes)

variable {φ : Type}

/-! ### Declaration -/

/-- The parameters of an accepted `MeshNoC`.  The payload is `i32` or a packet with a named
`i32` field; `routeValue` reads it. -/
structure MeshNoC (φ : Type) where
  width : ℕ
  height : ℕ
  queueDepth : ℕ
  routeOffset : ℕ
  routeValue : φ → BitVec 32
  arbitration : Policy
  timing : NoCTiming
  width_range : 1 ≤ width ∧ width ≤ 4
  height_range : 1 ≤ height ∧ height ≤ 4
  queueDepth_range : 1 ≤ queueDepth ∧ queueDepth ≤ 64
  creditDelay_le : timing.creditDelay ≤ 64
  vcAllocDelay_le : timing.vcAllocDelay ≤ 64
  swAllocDelay_le : timing.swAllocDelay ≤ 64
  readyValid_plain : timing.flowControl = .readyValid → timing.routerPipeline = .singleStageElastic ∧
    timing.creditDelay = 0 ∧ timing.vcAllocDelay = 0 ∧ timing.swAllocDelay = 0 ∧
    timing.waitForTailCredit = false
  singleStage_direct : timing.routerPipeline = .singleStageElastic →
    timing.vcAllocDelay = 0 ∧ timing.swAllocDelay = 0
  inputQueued_delays : timing.routerPipeline = .inputQueued →
    1 ≤ timing.vcAllocDelay ∧ 1 ≤ timing.swAllocDelay
  creditDelay_waits : timing.waitForTailCredit = false → timing.creditDelay = 0
  route_fits : routeOffset + (max 1 (Nat.size (width - 1)) + max 1 (Nat.size (height - 1))) ≤ 32

/-- The directions in the order of the generator. -/
def meshDirections : List Port := [.north, .east, .south, .west]

def opposite : Port → Port
  | .north => .south
  | .east => .west
  | .south => .north
  | .west => .east
  | .loc => .loc
  | .cw => .cw

theorem opposite_injective {p q : Port} (h : opposite p = opposite q) : p = q := by
  cases p <;> cases q <;> first | rfl | cases h

namespace MeshNoC

variable (P : MeshNoC φ)

/-- The neighbor of a node in a direction, unless the grid ends there. -/
def neighbor (node : ℕ) : Port → Option ℕ
  | .north => if node / P.width + 1 < P.height then
      some ((node / P.width + 1) * P.width + node % P.width) else none
  | .east => if node % P.width + 1 < P.width then
      some (node / P.width * P.width + (node % P.width + 1)) else none
  | .south => if 1 ≤ node / P.width then
      some ((node / P.width - 1) * P.width + node % P.width) else none
  | .west => if 1 ≤ node % P.width then
      some (node / P.width * P.width + (node % P.width - 1)) else none
  | .loc | .cw => none

def routeXWidth : ℕ := max 1 (Nat.size (P.width - 1))

def routeYWidth : ℕ := max 1 (Nat.size (P.height - 1))

/-- `%dst_x`. -/
def dstX (a : φ) : ℕ :=
  (P.routeValue a >>> P.routeOffset &&& BitVec.ofNat 32 (2 ^ P.routeXWidth - 1)).toNat

/-- `%dst_y`. -/
def dstY (a : φ) : ℕ :=
  (P.routeValue a >>> P.routeOffset >>> P.routeXWidth &&&
    BitVec.ofNat 32 (2 ^ P.routeYWidth - 1)).toNat

/-- `%coord_valid`. -/
def coordValid (a : φ) : Bool := decide (P.dstX a < P.width) && decide (P.dstY a < P.height)

/-- The decoded request of the scheduler at `node` for an egress. -/
def route (node : ℕ) (e : Port) (a : φ) : Bool :=
  let thisX := node % P.width
  let thisY := node / P.width
  match e with
  | .east => P.coordValid a && decide (P.dstX a > thisX)
  | .west => P.coordValid a && decide (P.dstX a < thisX)
  | .north => P.coordValid a && (decide (P.dstX a = thisX) && decide (P.dstY a > thisY))
  | .south => P.coordValid a && (decide (P.dstX a = thisX) && decide (P.dstY a < thisY))
  | .loc => P.coordValid a && (decide (P.dstX a = thisX) && decide (P.dstY a = thisY))
  | .cw => false

def inputQueued : Bool := decide (P.timing.routerPipeline = .inputQueued)

def ingresses (node : ℕ) : List NoCIngress :=
  (meshDirections.filterMap fun p => (P.neighbor node p).map fun m =>
    { name := p, queue := .link m node (opposite p)
      returnCreditQueue := if P.timing.waitForTailCredit then some (.credit node m (opposite p))
        else none }) ++ [{ name := .loc, queue := .localIn node }]

def egresses (node : ℕ) : List NoCEgress :=
  { name := .loc, queue := .localOut node
    vcStateQueue := if P.inputQueued then some (.vc node .loc) else none } ::
  meshDirections.filterMap fun p => (P.neighbor node p).map fun m =>
    { name := p, queue := .link node m p
      vcStateQueue := if P.inputQueued || P.timing.waitForTailCredit then some (.vc node p)
        else none
      receiveCreditQueue := if P.timing.waitForTailCredit then some (.credit m node p) else none }

def scheduler (node : ℕ) : Scheduler φ where
  node := node
  ingresses := P.ingresses node
  egresses := P.egresses node
  route := P.route node
  arbitration := P.arbitration
  timing := P.timing

/-- `_mesh_declaration`. -/
def network : Network φ where
  depth := P.queueDepth
  schedulers := (List.range (P.width * P.height)).map P.scheduler

/-! ### Routes -/

/-- Where the node that reads a channel sends a payload. -/
def next (c : Channel) (a : φ) : Option Channel :=
  c.reader.bind fun node =>
    if P.route node .loc a then some (.localOut node)
    else (meshDirections.find? fun p => P.route node p a).bind fun p =>
      (P.neighbor node p).map fun m => .link node m p

def routes : Routes Channel φ where
  next := P.next
  input c := ∃ node < P.width * P.height, c = .localIn node
  output c := ∃ node, c = .localOut node

/-- The columns and rows between a node and the destination of a payload. -/
def distance (node : ℕ) (a : φ) : ℕ :=
  (P.dstX a - node % P.width) + (node % P.width - P.dstX a) +
    ((P.dstY a - node / P.width) + (node / P.width - P.dstY a))

def toGo (c : Channel) (a : φ) : ℕ :=
  match c with
  | .localIn node => P.distance node a + 2
  | .link _ target _ => P.distance target a + 1
  | .localOut _ => 0

/-- `m` lies beside `n` in the direction. -/
def Beside (n m : ℕ) : Port → Prop
  | .north => m / P.width = n / P.width + 1 ∧ m % P.width = n % P.width ∧
      n / P.width + 1 < P.height
  | .east => m / P.width = n / P.width ∧ m % P.width = n % P.width + 1
  | .south => m / P.width + 1 = n / P.width ∧ m % P.width = n % P.width
  | .west => m / P.width = n / P.width ∧ m % P.width + 1 = n % P.width
  | .loc | .cw => False

variable {P} {n m : ℕ} {p q : Port} {a : φ} {i : NoCIngress}

theorem cell_mod {w q r : ℕ} (hr : r < w) : (q * w + r) % w = r := by
  rw [Nat.mul_comm, Nat.mul_add_mod, Nat.mod_eq_of_lt hr]

theorem cell_div {w q r : ℕ} (hr : r < w) : (q * w + r) / w = q := by
  rw [Nat.mul_comm, Nat.mul_add_div (by omega), Nat.div_eq_of_lt hr, Nat.add_zero]

theorem beside_neighbor (h : P.neighbor n p = some m) : P.Beside n m p := by
  have hmod : n % P.width < P.width := Nat.mod_lt _ P.width_range.1
  cases p with
  | north =>
    obtain ⟨hin, hm⟩ := ite_none_right_eq_some.mp h
    obtain rfl := some.inj hm
    exact ⟨cell_div hmod, cell_mod hmod, hin⟩
  | east =>
    obtain ⟨hin, hm⟩ := ite_none_right_eq_some.mp h
    obtain rfl := some.inj hm
    exact ⟨cell_div hin, cell_mod hin⟩
  | south =>
    obtain ⟨hin, hm⟩ := ite_none_right_eq_some.mp h
    obtain rfl := some.inj hm
    refine ⟨?_, cell_mod hmod⟩
    rw [cell_div hmod]
    omega
  | west =>
    obtain ⟨hin, hm⟩ := ite_none_right_eq_some.mp h
    obtain rfl := some.inj hm
    have hless : n % P.width - 1 < P.width := by omega
    refine ⟨cell_div hless, ?_⟩
    rw [cell_mod hless]
    omega
  | loc => cases h
  | cw => cases h

theorem route_unique (hp : P.route n p a = true) (hq : P.route n q a = true) : p = q := by
  cases p <;> cases q <;>
    first
    | rfl
    | (simp only [route, Bool.and_eq_true, decide_eq_true_eq] at hp hq; omega)
    | cases hp
    | cases hq

theorem route_valid (h : P.route n p a = true) : P.dstX a < P.width ∧ P.dstY a < P.height := by
  cases p <;>
    first
    | (simp only [route, coordValid, Bool.and_eq_true, decide_eq_true_eq] at h; exact h.1)
    | cases h

theorem exists_route (hn : n < P.width * P.height) (hx : P.dstX a < P.width)
    (hy : P.dstY a < P.height) : P.route n .loc a = true ∨
      ∃ p ∈ meshDirections, P.route n p a = true ∧ ∃ m, P.neighbor n p = some m := by
  have hvalid : P.coordValid a = true := by simp [coordValid, hx, hy]
  have hrow : n / P.width < P.height := Nat.div_lt_of_lt_mul hn
  rcases Nat.lt_trichotomy (P.dstX a) (n % P.width) with hlt | heq | hgt
  · refine .inr ⟨.west, by decide, by simp [route, hvalid, hlt], _, if_pos ?_⟩
    omega
  · rcases Nat.lt_trichotomy (P.dstY a) (n / P.width) with hlt' | heq' | hgt'
    · refine .inr ⟨.south, by decide, by simp [route, hvalid, heq, hlt'], _, if_pos ?_⟩
      omega
    · exact .inl (by simp [route, hvalid, heq, heq'])
    · refine .inr ⟨.north, by decide, by simp [route, hvalid, heq, hgt'], _, if_pos ?_⟩
      omega
  · refine .inr ⟨.east, by decide, by simp [route, hvalid, hgt], _, if_pos ?_⟩
    omega

theorem next_eq_some {c d : Channel} : P.next c a = some d ↔ ∃ node, c.reader = some node ∧
    (P.route node .loc a = true ∧ d = .localOut node ∨
      ∃ p ∈ meshDirections, P.route node p a = true ∧ ∃ m, P.neighbor node p = some m ∧
        d = .link node m p) := by
  unfold next
  rw [bind_eq_some_iff]
  refine exists_congr fun node => and_congr_right fun _ => ?_
  split
  · rename_i hloc
    constructor
    · intro h
      exact .inl ⟨hloc, (some.inj h).symm⟩
    · rintro (⟨_, rfl⟩ | ⟨p, hp, hroute, _⟩)
      · rfl
      · rw [route_unique hroute hloc] at hp
        exact absurd hp (by decide)
  · rename_i hloc
    rw [bind_eq_some_iff]
    constructor
    · rintro ⟨p, hfind, h⟩
      obtain ⟨m, hm, rfl⟩ := map_eq_some_iff.mp h
      have hroute : P.route node p a = true := by simpa using List.find?_some hfind
      exact .inr ⟨p, List.mem_of_find?_eq_some hfind, hroute, m, hm, rfl⟩
    · rintro (⟨h, _⟩ | ⟨p, hp, hroute, m, hm, rfl⟩)
      · exact absurd h hloc
      · have hsome : (meshDirections.find? fun p => P.route node p a).isSome = true :=
          List.find?_isSome.mpr ⟨p, hp, hroute⟩
        obtain ⟨q, hq⟩ := isSome_iff_exists.mp hsome
        have hroute' : P.route node q a = true := by simpa using List.find?_some hq
        rw [route_unique hroute' hroute] at hq
        exact ⟨p, hq, by rw [hm]; rfl⟩

theorem mesh_shortens : P.routes.Shortens P.toGo where
  decreases := by
    intro c d a h
    obtain ⟨node, hreader, ⟨_, rfl⟩ | ⟨p, hp, hroute, m, hm, rfl⟩⟩ := next_eq_some.mp h
    · cases c with
      | localIn | link => exact Nat.zero_lt_succ _
      | localOut => cases hreader
    · have hcloser : P.distance m a + 1 = P.distance node a := by
        have hplace := beside_neighbor hm
        cases p with
        | loc | cw => exact hplace.elim
        | north | south | east | west =>
          unfold Beside at hplace
          simp only [route, Bool.and_eq_true, decide_eq_true_eq] at hroute
          simp only [distance]
          omega
      cases c with
      | localIn =>
        cases hreader
        change P.distance m a + 1 < P.distance node a + 2
        omega
      | link =>
        cases hreader
        change P.distance m a + 1 < P.distance node a + 1
        omega
      | localOut => cases hreader
  output := by
    rintro c ⟨node, rfl⟩ a
    rfl

/-! ### The emitted schedulers -/

theorem mem_schedulers {n : Scheduler φ} : n ∈ P.network.schedulers ↔
    ∃ node < P.width * P.height, n = P.scheduler node := by
  simp [network, eq_comm]

theorem mem_ingresses (hi : i ∈ P.ingresses n) : (i.name = .loc ∧ i.queue = .localIn n) ∨
      i.name ∈ meshDirections ∧ ∃ m, P.neighbor n i.name = some m ∧
        i.queue = .link m n (opposite i.name) := by
  rcases List.mem_append.mp hi with hi | hi
  · obtain ⟨p, hp, h⟩ := List.mem_filterMap.mp hi
    obtain ⟨m, hm, rfl⟩ := map_eq_some_iff.mp h
    exact .inr ⟨hp, m, hm, rfl⟩
  · rw [List.mem_singleton.mp hi]
    exact .inl ⟨rfl, rfl⟩

theorem mem_egresses {e : NoCEgress} (he : e ∈ P.egresses n) :
    (e.name = .loc ∧ e.queue = .localOut n) ∨
      e.name ∈ meshDirections ∧ ∃ m, P.neighbor n e.name = some m ∧
        e.queue = .link n m e.name := by
  rcases List.mem_cons.mp he with rfl | he
  · exact .inl ⟨rfl, rfl⟩
  · obtain ⟨p, hp, h⟩ := List.mem_filterMap.mp he
    obtain ⟨m, hm, rfl⟩ := map_eq_some_iff.mp h
    exact .inr ⟨hp, m, hm, rfl⟩

theorem ingress_reader (hi : i ∈ P.ingresses n) : i.queue.reader = some n := by
  rcases mem_ingresses hi with ⟨_, h⟩ | ⟨_, m, _, h⟩
  · rw [h]
    rfl
  · rw [h]
    rfl

theorem mesh_wired : P.network.Wired where
  nodes := by
    rw [network, List.map_map]
    exact List.nodup_range.map fun _ _ h => h
  ingress := by
    intro n n' i i' hn hn' hi hi' heq
    obtain ⟨node, _, rfl⟩ := mem_schedulers.mp hn
    obtain ⟨node', _, rfl⟩ := mem_schedulers.mp hn'
    have hnode : some node = some node' := by
      rw [← ingress_reader hi, ← ingress_reader hi', heq]
    refine ⟨some.inj hnode, ?_⟩
    rcases mem_ingresses hi with ⟨hname, h⟩ | ⟨_, m, _, h⟩
    · rcases mem_ingresses hi' with ⟨hname', _⟩ | ⟨_, m', _, h'⟩
      · rw [hname, hname']
      · rw [h, h'] at heq
        cases heq
    · rcases mem_ingresses hi' with ⟨_, h'⟩ | ⟨_, m', _, h'⟩
      · rw [h, h'] at heq
        cases heq
      · rw [h, h'] at heq
        exact opposite_injective (Channel.link.inj heq).2.2
  egress := by
    intro n n' e e' hn hn' he he' heq
    obtain ⟨node, _, rfl⟩ := mem_schedulers.mp hn
    obtain ⟨node', _, rfl⟩ := mem_schedulers.mp hn'
    rcases mem_egresses he with ⟨hname, h⟩ | ⟨_, m, _, h⟩
    · rcases mem_egresses he' with ⟨hname', h'⟩ | ⟨_, m', _, h'⟩
      · rw [h, h'] at heq
        exact ⟨Channel.localOut.inj heq, hname.trans hname'.symm⟩
      · rw [h, h'] at heq
        cases heq
    · rcases mem_egresses he' with ⟨_, h'⟩ | ⟨_, m', _, h'⟩
      · rw [h, h'] at heq
        cases heq
      · rw [h, h'] at heq
        exact ⟨(Channel.link.inj heq).1, (Channel.link.inj heq).2.2⟩

theorem mesh_conforms : P.network.Conforms P.routes where
  route := by
    intro n i e a hn hi he hroute
    obtain ⟨node, _, rfl⟩ := mem_schedulers.mp hn
    refine next_eq_some.mpr ⟨node, ingress_reader hi, ?_⟩
    rcases mem_egresses he with ⟨hname, h⟩ | ⟨hp, m, hm, h⟩
    · rw [hname] at hroute
      exact .inl ⟨hroute, h⟩
    · exact .inr ⟨e.name, hp, hroute, m, hm, h⟩
  input := by
    intro n hn
    obtain ⟨node, hnode, rfl⟩ := mem_schedulers.mp hn
    exact ⟨node, hnode, rfl⟩
  output := fun _ => ⟨_, rfl⟩

end MeshNoC

end AgenticCircuit.Noc
