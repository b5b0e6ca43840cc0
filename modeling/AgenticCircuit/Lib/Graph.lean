import Mathlib.Algebra.GroupWithZero.Nat
import Mathlib.Data.Set.Insert
import Mathlib.Order.Nat

/-! # Cycles of a relation

A cycle in a union of two sets lies in one of them when no step leads back. -/

namespace AgenticCircuit.Graph

open Relation (TransGen ReflTransGen)

variable {α : Type*} {r : α → α → Prop}

/-- There is no cycle. -/
def Acyclic (r : α → α → Prop) : Prop := ∀ x, ¬ TransGen r x x

variable {r' : α → α → Prop}

theorem Acyclic.mono (h : Acyclic r) (hle : ∀ x y, r' x y → r x y) :
    Acyclic r' := fun x hx => h x (TransGen.mono hle x x hx)

/-- A path that ends no higher than it starts stays in its layer. -/
theorem transGen_layer {layer : α → ℕ} (hlayer : ∀ x y, r x y → layer x ≤ layer y) {x y : α}
    (h : TransGen r x y) (hxy : layer y ≤ layer x) :
    TransGen (fun a b => r a b ∧ layer a = layer x ∧ layer b = layer x) x y := by
  have hle : ∀ {a b}, TransGen r a b → layer a ≤ layer b := by
    intro a b hab
    induction hab with
    | single hstep => exact hlayer _ _ hstep
    | tail _ hstep ih => exact ih.trans (hlayer _ _ hstep)
  induction h with
  | single hstep => exact .single ⟨hstep, rfl, le_antisymm hxy (hlayer _ _ hstep)⟩
  | @tail b c hxb hstep ih =>
    have hbc := hlayer _ _ hstep
    have hb := hle hxb
    have hbx : layer b = layer x := by omega
    exact (ih hbx.le).tail ⟨hstep, hbx, by omega⟩

/-- The relation on a set of points. -/
def On (r : α → α → Prop) (s : Set α) (x y : α) : Prop := r x y ∧ x ∈ s ∧ y ∈ s

theorem Acyclic.on_mono {s s' : Set α} (h : Acyclic (On r s)) (hs : s' ⊆ s)
    (hr : ∀ x ∈ s', ∀ y ∈ s', r' x y → r x y) : Acyclic (On r' s') :=
  h.mono fun x y hxy => ⟨hr x hxy.2.1 y hxy.2.2 hxy.1, hs hxy.2.1, hs hxy.2.2⟩

theorem acyclic_of_no_step (h : ∀ x y, ¬ r x y) : Acyclic r := by
  intro x hx
  obtain ⟨y, hxy, -⟩ := TransGen.head'_iff.mp hx
  exact h x y hxy

theorem acyclic_of_rank {rank : α → ℕ} (h : ∀ x y, r x y → rank x < rank y) : Acyclic r := by
  have hlt : ∀ {x y}, TransGen r x y → rank x < rank y := by
    intro x y hxy
    induction hxy with
    | single hstep => exact h _ _ hstep
    | tail _ hstep ih => exact ih.trans (h _ _ hstep)
  exact fun x hx => (hlt hx).false

theorem transGen_on_cycle {x y : α} (h : TransGen r x y) (hback : ReflTransGen r y x) :
    TransGen (On r {z | TransGen r z z}) x y := by
  induction h with
  | single hstep =>
    have hx := TransGen.head' hstep hback
    have hy := TransGen.tail' hback hstep
    exact .single ⟨hstep, hx, hy⟩
  | @tail b c hxb hstep ih =>
    have hbx := ReflTransGen.head hstep hback
    have hb : TransGen r b b := .trans_right hbx hxb
    have hc := TransGen.tail' (hback.trans hxb.to_reflTransGen) hstep
    exact (ih hbx).tail ⟨hstep, hb, hc⟩

/-- One point without a loop. -/
theorem acyclic_on_singleton {p : α} (h : ¬ r p p) : Acyclic (On r {p}) := by
  intro x hx
  obtain ⟨y, ⟨hxy, hx, hy⟩, -⟩ := TransGen.head'_iff.mp hx
  subst hx hy
  exact h hxy

/-- A cycle lies in one layer when no step leads to a lower one. -/
theorem acyclic_on_layers {s : Set α} (layer : α → ℕ)
    (hlayer : ∀ x ∈ s, ∀ y ∈ s, r x y → layer x ≤ layer y)
    (h : ∀ n, Acyclic (On r {x | x ∈ s ∧ layer x = n})) : Acyclic (On r s) := by
  intro x hx
  have hcycle := transGen_layer (fun a b hab => hlayer a hab.2.1 b hab.2.2 hab.1) hx
    (Nat.le_refl (layer x))
  refine h (layer x) x (TransGen.mono ?_ x x hcycle)
  rintro a b ⟨⟨hab, ha, hb⟩, hla, hlb⟩
  exact ⟨hab, ⟨ha, hla⟩, hb, hlb⟩

theorem acyclic_on_union {s t : Set α} (hs : Acyclic (On r s)) (ht : Acyclic (On r t))
    (hback : ∀ x ∈ t, ∀ y ∈ s, ¬ r x y) : Acyclic (On r (s ∪ t)) := by
  classical
  refine acyclic_on_layers (fun x => if x ∈ s then 0 else 1) (fun x hx y _ hxy => ?_)
    fun n => ?_
  · by_cases hys : y ∈ s
    · have hxs : x ∈ s := by_contra fun hxs => hback x (hx.resolve_left hxs) y hys hxy
      simp [hxs]
    · rw [if_neg hys]
      split <;> omega
  · by_cases hn : n = 0
    · refine hs.on_mono (fun x hx => by_contra fun hxs => ?_) fun _ _ _ _ h => h
      exact absurd (hx.2.symm.trans (if_neg hxs)) (by omega)
    · refine ht.on_mono (fun x hx => hx.1.resolve_left fun hxs => ?_) fun _ _ _ _ h => h
      exact hn (hx.2.symm.trans (if_pos hxs))

end AgenticCircuit.Graph
