import AgenticCircuit.Lib.HopCount
import AgenticCircuit.Noc.Delivery

/-! # A mesh empties itself

When the producers are idle and the consumers keep room at the local outputs, every evaluation of
the whole mesh takes a hop off what is left to do (`toDo_evaluate`, `mesh_deadlock_free` seen over a
run).  So all packets arrive, and there is a bound on the number of evaluations (`mesh_drains`). -/

namespace AgenticCircuit.Noc

open List
open FifoNetwork (Flit Traffic Routes)

variable {φ : Type}

namespace Network

/-- A run without new packets: consumers empty the local outputs and schedulers are evaluated in
any order, and `k` times all of them at once, with room at every local output. -/
inductive Drains (N : Network φ) (s : Net φ) : ℕ → Net φ → Prop
  | refl : Drains N s 0 s
  | consume {k : ℕ} {t : Net φ} {n : Scheduler φ} {a : Flit Channel φ}
      {rest : List (Flit Channel φ)} (hrun : Drains N s k t) (hn : n ∈ N.schedulers)
      (hhead : t.traffic.queues (.localOut n.node) = a :: rest) :
      Drains N s k { t with traffic := t.traffic.consume (.localOut n.node) a }
  | evaluate {k : ℕ} {t : Net φ} (active : ℕ → Bool) (hrun : Drains N s k t) :
      Drains N s k (N.commit active t)
  | round {k : ℕ} {t : Net φ} (hrun : Drains N s k t) (hroom : ∀ n ∈ N.schedulers,
      (t.traffic.queues (.localOut n.node)).length < N.depth) :
      Drains N s (k + 1) (N.commit (fun _ => true) t)

variable {N : Network φ} {R : Routes Channel φ} {toGo : Channel → φ → ℕ} {s t : Net φ} {k : ℕ}

theorem Drains.reachable (hrun : N.Drains s k t) (hs : N.Reachable s) : N.Reachable t := by
  induction hrun with
  | refl => exact hs
  | consume _ hn hhead ih => exact ih.tail (.consume hn hhead)
  | evaluate active _ ih => exact ih.tail (.evaluate active)
  | round _ _ ih => exact ih.tail (.evaluate _)

theorem Drains.accepted (hrun : N.Drains s k t) : t.traffic.accepted = s.traffic.accepted := by
  induction hrun with
  | refl => rfl
  | consume _ _ _ ih | evaluate _ _ ih | round _ _ ih => exact ih

section

variable (h : N.Wired) (hR : N.Conforms R) (hshort : R.Shortens toGo)
include h hR hshort

theorem toDo_evaluate (hs : N.Reachable s) (active : ℕ → Bool) :
    (N.commit active s).traffic.toDo toGo + ((N.proposals active s).flatMap Proposals.moves).length ≤
      s.traffic.toDo toGo := by
  refine (delivers_of_reachable h hR hshort hs).toDo_commit hshort (h.nodup_sources active s) ?_
  rintro ⟨c, d, a⟩ hm
  obtain ⟨n, hn, hm⟩ := mem_proposals_moves hm
  obtain ⟨i, hi, e, he, rfl, rfl, hhead, hroute⟩ := mem_evaluate_moves (h.distinct hn) hm
  exact ⟨hhead, hR.route hn hi he hroute⟩

theorem toDo_round (hs : N.Reachable s) (hfires : N.Fires s) :
    (N.commit (fun _ => true) s).traffic.toDo toGo < s.traffic.toDo toGo := by
  have hle := toDo_evaluate h hR hshort hs fun _ => true
  obtain ⟨n, hn, hmoves⟩ := hfires
  obtain ⟨m, hm⟩ := exists_mem_of_ne_nil _ hmoves
  have hmem : m ∈ (N.proposals (fun _ => true) s).flatMap Proposals.moves :=
    mem_flatMap.mpr ⟨_, mem_map_of_mem (mem_filter.mpr ⟨hn, rfl⟩), hm⟩
  have hpos := length_pos_of_mem hmem
  omega

/-- In a network that never stands still every round is a hop. -/
theorem Drains.toDo (hend : ∀ {c a}, R.output c → toGo c a = 0) (hs : N.Reachable s)
    (hfires : ∀ {t : Net φ}, N.Reachable t → t.traffic.accepted = s.traffic.accepted →
      (∃ c, ∃ a ∈ t.traffic.queues c, toGo c a.payload ≠ 0) →
      (∀ n ∈ N.schedulers, (t.traffic.queues (.localOut n.node)).length < N.depth) → N.Fires t)
    (hrun : N.Drains s k t) :
    t.traffic.toDo toGo = 0 ∨ t.traffic.toDo toGo + k ≤ s.traffic.toDo toGo := by
  induction hrun with
  | refl => exact .inr le_rfl
  | consume hrun hn hhead ih =>
    have hdelivers := delivers_of_reachable h hR hshort (hrun.reachable hs)
    rw [hdelivers.toDo_consume hshort (hR.output hn) hhead]
    exact ih
  | evaluate active hrun ih =>
    have hle := toDo_evaluate h hR hshort (hrun.reachable hs) active
    omega
  | @round k t hrun hroom ih =>
    have ht := hrun.reachable hs
    have hle := toDo_evaluate h hR hshort ht fun _ => true
    by_cases hzero : t.traffic.toDo toGo = 0
    · left
      omega
    · have hdelivers := delivers_of_reachable h hR hshort ht
      have hlt := toDo_round h hR hshort ht (hfires ht hrun.accepted
        (hdelivers.exists_of_toDo hend hzero) hroom)
      omega

end

end Network

namespace MeshNoC

variable {P : MeshNoC φ} {s t : Net φ} {a : Flit Channel φ} {c : Channel} {k : ℕ}

theorem toGo_le (horigin : P.routes.input a.origin) (hpath : ∃ k, P.routes.path a k = some c)
    (hx : P.dstX a.payload < P.width) (hy : P.dstY a.payload < P.height) :
    P.toGo c a.payload ≤ P.width + P.height := by
  have hdistance (n : ℕ) (hc : c.reader = some n) :
      P.distance n a.payload + 2 ≤ P.width + P.height := by
    obtain ⟨k, hk⟩ := hpath
    have hrow : n / P.width < P.height :=
      Nat.div_lt_of_lt_mul (path_reader_lt horigin hk hc)
    have hcol : n % P.width < P.width := Nat.mod_lt _ P.width_range.1
    unfold distance
    generalize n / P.width = row at hrow ⊢
    omega
  cases c with
  | localIn node => exact hdistance node rfl
  | link _ target _ => exact (Nat.le_succ _).trans (hdistance target rfl)
  | localOut _ => exact Nat.zero_le _

/-- **A mesh empties itself.**  When producers are idle, every packet in a mesh without credits has
arrived at the output it names after at most `width + height` evaluations for each packet inside. -/
theorem mesh_drains (P : MeshNoC φ) (hflow : P.timing.flowControl = .readyValid)
    (hs : P.network.Reachable s) (hvalid : ∀ a ∈ s.traffic.accepted,
      P.dstX a.payload < P.width ∧ P.dstY a.payload < P.height)
    (hrun : P.network.Drains s k t)
    (hk : (s.traffic.accepted.length - s.traffic.consumed.length) * (P.width + P.height) ≤ k) :
    t.traffic.accepted = s.traffic.accepted ∧ ∀ a ∈ s.traffic.accepted,
      t.traffic.At a (.localOut (P.dstY a.payload * P.width + P.dstX a.payload)) := by
  have hend {c : Channel} {a : φ} (hc : P.routes.output c) : P.toGo c a = 0 := by
    obtain ⟨node, rfl⟩ := hc
    rfl
  have hbefore := delivers hs
  have hafter := delivers (hrun.reachable hs)
  have hle : s.traffic.toDo P.toGo ≤ k := by
    refine (hbefore.toDo_le hend fun a ha => ?_).trans hk
    obtain ⟨c, hc⟩ := (hbefore.kept a).mp ha
    rw [hbefore.left_eq hc]
    exact toGo_le (hbefore.entered a ha) (hbefore.on_path hc) (hvalid a ha).1 (hvalid a ha).2
  have hzero : t.traffic.toDo P.toGo = 0 := by
    have htoDo := hrun.toDo mesh_wired mesh_conforms mesh_shortens hend hs
      fun {t} ht haccepted ⟨c, a, ha, hne⟩ hroom => by
        have hmem (c : Channel) (b : Flit Channel φ) (hb : b ∈ t.traffic.queues c) :
            b ∈ s.traffic.accepted := haccepted ▸ ((delivers ht).kept b).mpr ⟨c, .inl hb⟩
        have hreader : ∃ n, c.reader = some n := by
          cases c with
          | localOut => exact absurd rfl hne
          | localIn | link => exact ⟨_, rfl⟩
        obtain ⟨n, hn⟩ := hreader
        exact fires_of_queued hflow ht (fun c b hb => hvalid b (hmem c b hb))
          (fun node hnode => hroom _ (mem_schedulers.mpr ⟨node, hnode, rfl⟩)) (ne_nil_of_mem ha) hn
    omega
  refine ⟨hrun.accepted, fun a ha => ?_⟩
  rw [← hrun.accepted] at ha
  obtain ⟨c, hc⟩ := (hafter.kept a).mp ha
  have hgo := hafter.at_of_toDo hzero hc
  obtain ⟨j, hj⟩ := hafter.on_path hc
  cases c with
  | localIn | link => exact absurd hgo (Nat.succ_ne_zero _)
  | localOut node =>
    have htarget := mesh_leads.arrives (hafter.entered a ha) hj ⟨node, rfl⟩
    obtain ⟨_, htarget⟩ := Option.ite_none_right_eq_some.mp htarget
    rw [Option.some.inj htarget]
    exact hc

/-- Three evaluations, with the output emptied before the last, bring a packet to the right node. -/
theorem mesh_drains_sideBySide : ∃ t, sideBySide.network.Drains
      ⟨Traffic.empty.accept (.localIn 0) 1#32, fun _ => [], fun _ => false⟩ 3 t ∧
    t.traffic.At ⟨.localIn 0, 0, 1#32⟩ (.localOut 1) := by
  have hn : ∀ node < 2, sideBySide.scheduler node ∈ sideBySide.network.schedulers :=
    fun node hnode => mem_schedulers.mpr ⟨node, hnode, rfl⟩
  have hs : sideBySide.network.Reachable
      ⟨Traffic.empty.accept (.localIn 0) 1#32, fun _ => [], fun _ => false⟩ :=
    .single (.accept (s := Network.initial) 1#32 (hn 0 (by decide)) Nat.one_pos)
  have hrun := Network.Drains.round (.consume (.round (.round (.refl (s :=
    (⟨Traffic.empty.accept (.localIn 0) 1#32, fun _ => [], fun _ => false⟩ : Net (BitVec 32))))
      (by decide)) (by decide)) (hn 1 (by decide)) rfl) (by decide)
  refine ⟨_, hrun, (mesh_drains sideBySide rfl hs ?_ hrun ?_).2 _ (mem_singleton_self _)⟩
  · intro a ha
    obtain rfl := mem_singleton.mp ha
    exact ⟨by decide, by decide⟩
  · decide

end MeshNoC

end AgenticCircuit.Noc
