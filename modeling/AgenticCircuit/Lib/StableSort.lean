import Mathlib.Algebra.GroupWithZero.Nat
import Mathlib.Data.List.Sort

/-! # What a stable sort does to a rearranged list

A stable sort by a total preorder `r` is determined by two things: the elements of the list,
and the order in which elements that `r` does not tell apart stand in it.  `Rearranged p l l'`
says that `l'` has the elements of `l` and keeps the order of those that `p` selects.

* `filter_insertionSort`: the sort keeps the order of any class `r` does not tell apart.
* `Rearranged.insertionSort_eq`: where only elements of `p` can be tied, rearranging the list
  does not change the sorted list.
* `exists_rearranged_ne`: two different tied elements outside `p` are enough for some
  rearrangement to be sorted differently. -/

namespace AgenticCircuit.StableSort

open List

universe u v

variable {α : Type u} {β : Type v}

/-- `l'` has the elements of `l`, and those selected by `p` in the order of `l`. -/
def Rearranged (p : α → Bool) (l l' : List α) : Prop := l.Perm l' ∧ l.filter p = l'.filter p

section rearranged
variable {p : α → Bool} {l l' l'' : List α}

theorem Rearranged.refl (p : α → Bool) (l : List α) : Rearranged p l l := ⟨.refl _, rfl⟩

theorem Rearranged.symm (h : Rearranged p l l') : Rearranged p l' l := ⟨h.1.symm, h.2.symm⟩

theorem Rearranged.trans (h : Rearranged p l l') (h' : Rearranged p l' l'') :
    Rearranged p l l'' := ⟨h.1.trans h'.1, h.2.trans h'.2⟩

theorem Rearranged.map {q : β → Bool} {f : α → β} (hq : ∀ a, q (f a) = p a)
    (h : Rearranged p l l') : Rearranged q (l.map f) (l'.map f) := by
  refine ⟨h.1.map f, ?_⟩
  have hcomp : q ∘ f = p := funext hq
  rw [filter_map, filter_map, hcomp, h.2]

theorem Rearranged.front {x : α} {s t : List α} (hx : p x = false) :
    Rearranged p (s ++ x :: t) (x :: (s ++ t)) :=
  ⟨perm_middle, by simp [hx]⟩

end rearranged

section sort
variable (r : α → α → Prop) [DecidableRel r]

variable {p : α → Bool}

theorem rearranged_insertionSort_of [IsTrans α r] [Std.Total r]
    (hp : ∀ a b, p a = true → p b = true → r a b) (l : List α) :
    Rearranged p l (l.insertionSort r) := by
  refine ⟨(perm_insertionSort r l).symm, ?_⟩
  have hsorted : (l.filter p).Pairwise r := by
    refine pairwise_of_forall_mem_list fun a ha b hb => ?_
    exact hp a b (mem_filter.mp ha).2 (mem_filter.mp hb).2
  have hsub := (sublist_insertionSort hsorted (filter_sublist (p := p))).filter p
  simp only [filter_filter, Bool.and_self] at hsub
  refine hsub.eq_of_length ?_
  exact ((perm_insertionSort r l).filter p).length_eq.symm

theorem filter_insertionSort [IsTrans α r] [Std.Total r]
    (hp : ∀ a b, p a = true → p b = true → r a b) (l : List α) :
    (l.insertionSort r).filter p = l.filter p :=
  (rearranged_insertionSort_of r hp l).2.symm

omit [DecidableRel r] in
/-- A sorted list is determined by its elements and the order of the tied ones. -/
theorem Rearranged.eq_of_pairwise {s s' : List α} (h : Rearranged p s s') (hs : s.Pairwise r)
    (hs' : s'.Pairwise r) (hrefl : ∀ a, r a a)
    (htied : ∀ a ∈ s, ∀ b ∈ s, r a b → r b a → a = b ∨ p a = true ∧ p b = true) : s = s' := by
  induction s generalizing s' with
  | nil => exact h.1.nil_eq
  | cons x t ih =>
    cases s' with
    | nil => exact absurd h.1.symm.nil_eq (by simp)
    | cons y t' =>
      have hxy : r x y := by
        rcases mem_cons.mp (h.1.symm.subset mem_cons_self) with rfl | hy
        · exact hrefl _
        · exact (pairwise_cons.mp hs).1 y hy
      have hyx : r y x := by
        rcases mem_cons.mp (h.1.subset mem_cons_self) with rfl | hx
        · exact hrefl _
        · exact (pairwise_cons.mp hs').1 x hx
      -- tied heads are equal, or the first of `p` in both lists
      have hhead : x = y := by
        rcases htied x mem_cons_self y (h.1.symm.subset mem_cons_self) hxy hyx with
          heq | ⟨hpx, hpy⟩
        · exact heq
        · have hfilter := h.2
          rw [filter_cons_of_pos hpx, filter_cons_of_pos hpy] at hfilter
          exact (cons.inj hfilter).1
      subst hhead
      have hrest : Rearranged p t t' := by
        refine ⟨h.1.cons_inv, ?_⟩
        have hfilter := h.2
        cases hp : p x with
        | true =>
          rw [filter_cons_of_pos hp, filter_cons_of_pos hp] at hfilter
          exact (cons.inj hfilter).2
        | false => simpa [hp] using hfilter
      rw [ih hrest hs.of_cons hs'.of_cons fun a ha b hb =>
        htied a (mem_cons_of_mem _ ha) b (mem_cons_of_mem _ hb)]

theorem Rearranged.insertionSort_eq [IsTrans α r] [Std.Total r] {l l' : List α}
    (h : Rearranged p l l') (hp : ∀ a b, p a = true → p b = true → r a b)
    (htied : ∀ a ∈ l, ∀ b ∈ l, r a b → r b a → a = b ∨ p a = true ∧ p b = true) :
    l.insertionSort r = l'.insertionSort r := by
  have hsorts := (rearranged_insertionSort_of r hp l).symm.trans
    (h.trans (rearranged_insertionSort_of r hp l'))
  refine hsorts.eq_of_pairwise r (pairwise_insertionSort r l)
    (pairwise_insertionSort r l') (fun a => (Std.Total.total a a).elim id id) ?_
  intro a ha b hb
  exact htied a ((mem_insertionSort r).mp ha) b ((mem_insertionSort r).mp hb)

/-- Moving another tied element than the first to the front changes the sorted list.  The
lists are those of the images under `f`, and what may move is told before `f`. -/
theorem exists_rearranged_ne [IsTrans α r] [Std.Total r] {p : β → Bool} {f : β → α}
    {l : List β} {x y : β} (hx : x ∈ l) (hy : y ∈ l) (hxy : r (f x) (f y)) (hyx : r (f y) (f x))
    (hne : f x ≠ f y) (hpx : p x = false) (hpy : p y = false) :
    ∃ l', Rearranged p l l' ∧ (l'.map f).insertionSort r ≠ (l.map f).insertionSort r := by
  let tied : α → Bool := fun z => decide (r (f x) z) && decide (r z (f x))
  have htied : ∀ a b, tied a = true → tied b = true → r a b := by
    intro a b ha hb
    simp only [tied, Bool.and_eq_true, decide_eq_true_eq] at ha hb
    exact Trans.trans ha.2 hb.1
  have hxx : r (f x) (f x) := Trans.trans hxy hyx
  have move : ∀ w ∈ l, p w = false → tied (f w) = true →
      ((l.map f).filter tied).head? ≠ some (f w) →
      ∃ l', Rearranged p l l' ∧ (l'.map f).insertionSort r ≠ (l.map f).insertionSort r := by
    intro w hw hpw htw hhead
    obtain ⟨s, t, rfl⟩ := append_of_mem hw
    refine ⟨w :: (s ++ t), Rearranged.front hpw, fun heq => hhead ?_⟩
    have hfilter := congrArg (filter tied) heq
    rw [filter_insertionSort r htied, filter_insertionSort r htied] at hfilter
    rw [← hfilter, map_cons, filter_cons_of_pos htw]
    rfl
  have htx : tied (f x) = true := by simp [tied, hxx]
  have hty : tied (f y) = true := by simp [tied, hxy, hyx]
  by_cases hfirst : ((l.map f).filter tied).head? = some (f x)
  · refine move y hy hpy hty ?_
    rw [hfirst]
    exact fun h => hne (Option.some.inj h)
  · exact move x hx hpx htx hfirst

end sort

/-! ### Keys made of fields

A key whose fields end in a separator that no field contains is compared field by field. -/

section fields

/-- A key gives its first field back. -/
theorem field_eq {u v : List α} (hu : sep ∉ u) (hv : sep ∉ v) {a b : List α}
    (h : u ++ sep :: a = v ++ sep :: b) : u = v ∧ a = b := by
  induction u generalizing v with
  | nil =>
    cases v with
    | nil => exact ⟨rfl, (cons.inj h).2⟩
    | cons y v => exact absurd (cons.inj h).1 fun heq => hv (heq ▸ mem_cons_self)
  | cons x u ih =>
    cases v with
    | nil => exact absurd (cons.inj h).1.symm fun heq => hu (heq ▸ mem_cons_self)
    | cons y v =>
      obtain ⟨hxy, htail⟩ := cons.inj h
      obtain ⟨huv, hab⟩ := ih (fun h => hu (mem_cons_of_mem _ h))
        (fun h => hv (mem_cons_of_mem _ h)) htail
      exact ⟨by rw [hxy, huv], hab⟩

variable [LinearOrder α] {sep : α}

theorem append_lt_append_iff (u a b : List α) : u ++ a < u ++ b ↔ a < b := by
  induction u with
  | nil => rfl
  | cons x u ih => simp [ih]

/-- Where two fields differ, what follows them does not matter. -/
theorem field_lt_iff {u v : List α} (hu : sep ∉ u) (hv : sep ∉ v) (hne : u ≠ v)
    (a b a' b' : List α) : u ++ sep :: a < v ++ sep :: b ↔ u ++ sep :: a' < v ++ sep :: b' := by
  induction u generalizing v with
  | nil =>
    cases v with
    | nil => exact absurd rfl hne
    | cons y v =>
      have hsep : sep ≠ y := fun h => hv (h ▸ mem_cons_self)
      simp [cons_lt_cons_iff, hsep]
  | cons x u ih =>
    cases v with
    | nil =>
      have hsep : x ≠ sep := fun h => hu (h ▸ mem_cons_self)
      simp [cons_lt_cons_iff, hsep]
    | cons y v =>
      rw [cons_append, cons_append, cons_append, cons_append, cons_lt_cons_iff, cons_lt_cons_iff]
      by_cases hxy : x = y
      · subst hxy
        rw [ih (fun h => hu (mem_cons_of_mem _ h))
          (fun h => hv (mem_cons_of_mem _ h)) (fun h => hne (by rw [h]))]
      · simp [hxy]

end fields
end AgenticCircuit.StableSort
