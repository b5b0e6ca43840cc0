import AgenticCircuit.Noc.Crossbar
import AgenticCircuit.Noc.MeshXY
import AgenticCircuit.Noc.Ring

/-! # Delivery

A packet of a ring or a mesh names the local output at which it leaves, or no node at all
(`RingNoC.target`, `MeshNoC.target`).  The routes of both lead there, so in every state of every
run each accepted packet is in one queue or was consumed once where it should be, and packets
between the same two nodes leave in the order in which they entered (`network_served`). -/

namespace AgenticCircuit.Noc

open Option

open FifoNetwork (Flit Traffic Routes)
open Relation (ReflTransGen)

variable {φ : Type}

namespace RingNoC

/-- The local output of the node a packet names. -/
def target (P : RingNoC φ) (a : Flit Channel φ) : Option Channel :=
  if P.dst a.payload < P.nodes then some (.localOut (P.dst a.payload)) else none

variable {P : RingNoC φ}

theorem ring_leads : P.routes.Leads P.target where
  arrives := by
    rintro a c k ⟨origin, _, horigin⟩ hpath ⟨node, rfl⟩
    cases k with
    | zero => cases horigin.symm.trans (some.inj hpath)
    | succ k =>
      obtain ⟨d, _, hnext⟩ := bind_eq_some_iff.mp hpath
      obtain ⟨m, _, _, hvalid, ⟨hdst, heq⟩ | ⟨_, heq⟩⟩ := next_eq_some.mp hnext
      · rw [target, if_pos hvalid, hdst, heq]
      · cases heq
  alike := by
    intro a b c _ horigin ha hb
    obtain ⟨_, ha⟩ := ite_none_right_eq_some.mp ha
    obtain ⟨_, hb⟩ := ite_none_right_eq_some.mp hb
    have hdst : P.dst a.payload = P.dst b.payload :=
      Channel.localOut.inj (some.inj (ha.trans hb.symm))
    exact ⟨horigin, fun d => by simp [routes, next, route, hdst]⟩
  stays := by
    intro a _ hnone
    rw [eq_none_iff_forall_ne_some]
    intro d hnext
    obtain ⟨_, _, _, hvalid, _⟩ := next_eq_some.mp hnext
    rw [target, if_pos hvalid] at hnone
    cases hnone

theorem ring_served {s : Net φ} (hs : P.network.Reachable s) : s.traffic.Served P.target :=
  (delivers hs).served ring_leads

end RingNoC

namespace MeshNoC

/-- The local output of the node whose coordinates a packet names. -/
def target (P : MeshNoC φ) (a : Flit Channel φ) : Option Channel :=
  if P.dstX a.payload < P.width ∧ P.dstY a.payload < P.height then
    some (.localOut (P.dstY a.payload * P.width + P.dstX a.payload))
  else none

variable {P : MeshNoC φ}

theorem mesh_leads : P.routes.Leads P.target where
  arrives := by
    rintro a c k ⟨origin, _, horigin⟩ hpath ⟨node, rfl⟩
    cases k with
    | zero => cases horigin.symm.trans (some.inj hpath)
    | succ k =>
      obtain ⟨d, _, hnext⟩ := bind_eq_some_iff.mp hpath
      obtain ⟨m, _, ⟨hroute, heq⟩ | ⟨_, _, _, _, _, heq⟩⟩ := next_eq_some.mp hnext
      · obtain rfl := Channel.localOut.inj heq
        rw [target, if_pos (route_valid hroute)]
        simp only [route, Bool.and_eq_true, decide_eq_true_eq] at hroute
        rw [hroute.2.1, hroute.2.2, Nat.mul_comm, Nat.div_add_mod]
      · cases heq
  alike := by
    intro a b c _ horigin ha hb
    obtain ⟨hx, ha⟩ := ite_none_right_eq_some.mp ha
    obtain ⟨hx', hb⟩ := ite_none_right_eq_some.mp hb
    have hnode : P.dstY a.payload * P.width + P.dstX a.payload =
        P.dstY b.payload * P.width + P.dstX b.payload :=
      Channel.localOut.inj (some.inj (ha.trans hb.symm))
    have hcolumn : P.dstX a.payload = P.dstX b.payload := by
      rw [← cell_mod (q := P.dstY a.payload) hx.1, hnode, cell_mod hx'.1]
    have hrow : P.dstY a.payload = P.dstY b.payload := by
      rw [← cell_div (q := P.dstY a.payload) hx.1, hnode, cell_div hx'.1]
    have hroutes (node : ℕ) (p : Port) : P.route node p a.payload = P.route node p b.payload := by
      cases p <;> simp [route, coordValid, hcolumn, hrow]
    exact ⟨horigin, fun d => by simp [routes, next, hroutes]⟩
  stays := by
    intro a _ hnone
    rw [eq_none_iff_forall_ne_some]
    intro d hnext
    obtain ⟨_, _, ⟨hroute, _⟩ | ⟨_, _, hroute, _⟩⟩ := next_eq_some.mp hnext
    · rw [target, if_pos (route_valid hroute)] at hnone
      cases hnone
    · rw [target, if_pos (route_valid hroute)] at hnone
      cases hnone

theorem mesh_served {s : Net φ} (hs : P.network.Reachable s) : s.traffic.Served P.target :=
  (delivers hs).served mesh_leads

end MeshNoC

/-- Every crossbar, ring and mesh delivers: a packet is in exactly one queue, or was consumed
exactly once at the output it names; packets from one input to one output leave in order; and a
packet that names no output stays where it entered. -/
theorem network_served :
    (∀ (P : Crossbar) (s : Traffic Crossbar.Queue (BitVec 32)), P.Reachable s →
      s.Served P.target) ∧
    (∀ (φ : Type) (P : RingNoC φ) (s : Net φ), P.network.Reachable s →
      s.traffic.Served P.target) ∧
    ∀ (φ : Type) (P : MeshNoC φ) (s : Net φ), P.network.Reachable s →
      s.traffic.Served P.target :=
  ⟨fun _ _ => Crossbar.crossbar_served, fun _ _ _ => RingNoC.ring_served,
    fun _ _ _ => MeshNoC.mesh_served⟩

/-- Two inputs and two outputs with queues of one entry. -/
def twoByTwo : Crossbar where
  inputPorts := 2
  outputPorts := 2
  virtualChannels := 1
  ingressDepth := 1
  egressDepth := 1
  routeOffset := 0
  routeWidth := 1
  ports_pos := by decide
  virtualChannels_pos := by decide
  depths_pos := by decide
  route_fits := by decide
  outputs_encoded := by decide
  size_le := by decide

/-- A packet has crossed the crossbar and a second one has entered. -/
def crossed : Traffic Crossbar.Queue (BitVec 32) :=
  let s := Traffic.empty.accept (.input 0 0) 1#32
  ((s.commit (twoByTwo.scheduler s.queues)).consume (.output 1 0) ⟨.input 0 0, 0, 1#32⟩).accept
    (.input 0 0) 0#32

theorem crossed_reachable : twoByTwo.Reachable crossed :=
  (((ReflTransGen.single (.accept 1#32 (by decide) (by decide) Nat.one_pos)).tail .evaluate).tail
    (.consume (by decide) (by decide) (show _ = [_] by decide +kernel))).tail
      (.accept 0#32 (by decide) (by decide) (by decide +kernel))

/-- A packet has crossed the mesh. -/
def delivered : Net (BitVec 32) :=
  (MeshNoC.sideBySide.network.commit fun _ => true)^[2]
    ⟨Traffic.empty.accept (.localIn 0) 1#32, fun _ => [], fun _ => false⟩

theorem delivered_reachable : MeshNoC.sideBySide.network.Reachable delivered :=
  have hnode : MeshNoC.sideBySide.scheduler 0 ∈ MeshNoC.sideBySide.network.schedulers :=
    MeshNoC.mem_schedulers.mpr ⟨0, by decide, rfl⟩
  Network.Reachable.commits (.single (.accept 1#32 hnode (by decide))) _ 2

/-- Packets have crossed a crossbar and a mesh, and every node of a ring has injected one. -/
theorem network_served_injected :
    (crossed.Served twoByTwo.target ∧
      crossed.consumed = [(.output 1 0, ⟨.input 0 0, 0, 1#32⟩)] ∧
      crossed.queues (.input 0 0) = [⟨.input 0 0, 1, 0#32⟩]) ∧
    RingNoC.injected.traffic.Served RingNoC.threeNodes.target ∧
    delivered.traffic.Served MeshNoC.sideBySide.target ∧
      delivered.traffic.queues (.localOut 1) = [⟨.localIn 0, 0, 1#32⟩] :=
  ⟨⟨network_served.1 twoByTwo _ crossed_reachable, by decide +kernel⟩,
    network_served.2.1 _ _ _ RingNoC.injected_reachable,
    network_served.2.2 _ MeshNoC.sideBySide _ delivered_reachable, by decide +kernel⟩

end AgenticCircuit.Noc
