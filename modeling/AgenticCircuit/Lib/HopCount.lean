import AgenticCircuit.Lib.FifoNetwork
import Mathlib.Algebra.Order.BigOperators.Group.List
import Mathlib.Algebra.Order.Ring.Nat
import Mathlib.Data.List.Perm.Subperm

/-! # Hops to go

In a network whose routes shorten, the packets together have a finite number of moves before them
(`toDo`).  Every move takes one off and consuming a packet adds none, so a network that accepts
nothing and always moves something comes to rest. -/

namespace AgenticCircuit.FifoNetwork.Traffic

open List
open scoped Classical in
/-- What the measure gives for a packet where it is. -/
noncomputable def left {χ φ : Type} (toGo : χ → φ → ℕ) (s : Traffic χ φ) (a : Flit χ φ) : ℕ :=
  if h : ∃ c, s.At a c then toGo h.choose a.payload else 0

variable {χ φ : Type} {N : Routes χ φ} {toGo : χ → φ → ℕ} {s t : Traffic χ φ} {a b : Flit χ φ}
  {c d : χ} {rest : List (Flit χ φ)} {moves : List (χ × χ × Flit χ φ)} {bound : ℕ}

/-- The measure over all accepted packets. -/
noncomputable def toDo (toGo : χ → φ → ℕ) (s : Traffic χ φ) : ℕ := (s.accepted.map (s.left toGo)).sum

namespace Delivers

theorem left_eq (h : s.Delivers N) (ha : s.At a c) : s.left toGo a = toGo c a.payload := by
  have hexists : ∃ c, s.At a c := ⟨c, ha⟩
  rw [left, dif_pos hexists, h.at_unique hexists.choose_spec ha]

theorem toDo_le (h : s.Delivers N) (hend : ∀ {c a}, N.output c → toGo c a = 0)
    (hbound : ∀ a ∈ s.accepted, s.left toGo a ≤ bound) :
    s.toDo toGo ≤ (s.accepted.length - s.consumed.length) * bound := by
  have hsubset : s.consumed.map Prod.snd ⊆ s.accepted := by
    intro a ha
    obtain ⟨⟨c, _⟩, hc, rfl⟩ := mem_map.mp ha
    exact (h.kept _).mpr ⟨c, .inr hc⟩
  obtain ⟨gone, hgone, hsub⟩ := subperm_of_subset h.consumed_nodup hsubset
  obtain ⟨inside, hperm⟩ := hsub.exists_perm_append
  have hall := hperm.trans (hgone.append_right inside)
  have hzero : ((s.consumed.map Prod.snd).map (s.left toGo)).sum = 0 := by
    refine sum_eq_zero fun n hn => ?_
    obtain ⟨a, ha, rfl⟩ := mem_map.mp hn
    obtain ⟨⟨c, _⟩, hc, rfl⟩ := mem_map.mp ha
    rw [h.left_eq (.inr hc), hend (h.exits hc)]
  have hlength := hall.length_eq
  rw [length_append, length_map] at hlength
  rw [toDo, (hall.map _).sum_eq, map_append, sum_append, hzero, hlength, Nat.zero_add,
    Nat.add_sub_cancel_left]
  refine (sum_le_card_nsmul _ bound fun n hn => ?_).trans_eq (by simp)
  obtain ⟨a, ha, rfl⟩ := mem_map.mp hn
  exact hbound a (hall.mem_iff.mpr (mem_append_right _ ha))

theorem at_of_toDo (h : s.Delivers N) (hzero : s.toDo toGo = 0) (ha : s.At a c) :
    toGo c a.payload = 0 := by
  exact (h.left_eq ha).symm.trans
    (sum_eq_zero_iff.mp hzero _ (mem_map_of_mem ((h.kept a).mpr ⟨c, ha⟩)))

/-- Work is left only for a packet that is still inside. -/
theorem exists_of_toDo (h : s.Delivers N) (hend : ∀ {c a}, N.output c → toGo c a = 0)
    (hne : s.toDo toGo ≠ 0) : ∃ c, ∃ a ∈ s.queues c, toGo c a.payload ≠ 0 := by
  rw [toDo, ne_eq, sum_eq_zero_iff, forall_mem_map] at hne
  push Not at hne
  obtain ⟨a, ha, hleft⟩ := hne
  obtain ⟨c, hc⟩ := (h.kept a).mp ha
  rw [h.left_eq hc] at hleft
  exact ⟨c, a, hc.resolve_right fun hgone => hleft (hend (h.exits hgone)), hleft⟩

variable [DecidableEq χ]

theorem toDo_consume (hN : N.Shortens toGo) (h : s.Delivers N) (houtput : N.output c)
    (hhead : s.queues c = a :: rest) : (s.consume c a).toDo toGo = s.toDo toGo := by
  refine congrArg sum (map_congr_left fun b hb => ?_)
  obtain ⟨e, he⟩ := (h.kept b).mp hb
  rw [h.left_eq he, (h.consume hN houtput hhead).left_eq ((h.consume_at hhead).mpr he)]

theorem toDo_hop (hN : N.Shortens toGo) (h : s.Delivers N) (hhead : s.queues c = a :: rest)
    (hnext : N.next c a.payload = some d) : (s.hop c d a).toDo toGo < s.toDo toGo := by
  have hafter := h.hop hN hhead hnext
  have ha : s.At a c := .inl (hhead ▸ mem_cons_self)
  have hmoved : (s.hop c d a).left toGo a < s.left toGo a := by
    rw [h.left_eq ha, hafter.left_eq ((h.hop_at hhead (hN.ne_of_next hnext)).mpr (.inr ⟨rfl, rfl⟩))]
    exact hN.decreases hnext
  refine sum_lt_sum _ _ (fun b hb => ?_) ⟨a, (h.kept a).mpr ⟨c, ha⟩, hmoved⟩
  obtain rfl | hne := eq_or_ne b a
  · exact hmoved.le
  · obtain ⟨e, he⟩ := (h.kept b).mp hb
    rw [h.left_eq he, hafter.left_eq ((h.hop_at hhead (hN.ne_of_next hnext)).mpr (.inl ⟨hne, he⟩))]

/-- Moves at once that leave every channel at most once. -/
theorem toDo_commit (hN : N.Shortens toGo) (h : s.Delivers N) (hnodup : (moves.map Prod.fst).Nodup)
    (hmoves : ∀ m ∈ moves, (s.queues m.1).head? = some m.2.2 ∧
      N.next m.1 m.2.2.payload = some m.2.1) :
    (s.commit moves).toDo toGo + moves.length ≤ s.toDo toGo := by
  induction moves generalizing s with
  | nil =>
    have hsame : s.committed [] = s.queues := by
      funext c
      simp [committed]
    rw [commit, hsame, length_nil, Nat.add_zero]
  | cons m moves ih =>
    obtain ⟨c, d, a⟩ := m
    obtain ⟨hfirst, hrest⟩ := nodup_cons.mp hnodup
    obtain ⟨hhead, hnext⟩ : (s.queues c).head? = some a ∧ N.next c a.payload = some d :=
      hmoves _ mem_cons_self
    have hne : c ≠ d := hN.ne_of_next hnext
    obtain ⟨rest, hqueue⟩ : ∃ rest, s.queues c = a :: rest := head?_eq_some_iff.mp hhead
    obtain ⟨_, hd, hother⟩ := hop_queues hqueue hne
    rw [commit_cons hhead hfirst hne, length_cons]
    have hlater := ih (h.hop hN hqueue hnext) hrest fun m hm => by
      obtain ⟨hmhead, hmnext⟩ := hmoves m (mem_cons_of_mem _ hm)
      refine ⟨?_, hmnext⟩
      have hmc : m.1 ≠ c := fun heq => hfirst (mem_map.mpr ⟨m, hm, heq⟩)
      by_cases hmd : m.1 = d
      · rw [hmd, hd, head?_append, ← hmd, hmhead]
        rfl
      · rw [hother _ hmc hmd]
        exact hmhead
    have hstep := h.toDo_hop hN hqueue hnext
    omega

end Delivers

end AgenticCircuit.FifoNetwork.Traffic
