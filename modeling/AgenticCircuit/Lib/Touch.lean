import Mathlib.Data.List.Nodup

/-! # Uses and assignments in a history

A history of uses and assignments of names.  `AtMostOnce x` says that between two uses of `x`
there is an assignment to `x`; `Spent x` that `x` was used and not assigned since; `Exposed x` that
`x` is used before it is assigned.  Histories grow at the end, first by uses and then by
assignments. -/

namespace AgenticCircuit

open List

inductive Touch (α : Type*) where
  | use (x : α)
  | assign (x : α)

namespace Touch

variable {α : Type*} {x y : α} {ts : List (Touch α)}

/-- Between two uses of `x` there is an assignment to `x`. -/
def AtMostOnce (x : α) (ts : List (Touch α)) : Prop :=
  ∀ A B C, ts = A ++ use x :: B ++ use x :: C → assign x ∈ B

/-- After the last assignment to `x` there is a use of `x`. -/
def Spent (x : α) (ts : List (Touch α)) : Prop := ∃ A B, ts = A ++ use x :: B ∧ assign x ∉ B

/-- Uses, then assignments. -/
def touches (U A : List α) : List (Touch α) := U.map use ++ A.map assign

variable {ts' : List (Touch α)} {A U : List α}

theorem not_spent_nil : ¬ Spent x [] := by
  rintro ⟨A, B, h, -⟩
  simp at h

theorem atMostOnce_nil : AtMostOnce x [] := by
  intro A B C h
  simp at h

theorem spent_snoc_use : Spent x (ts ++ [use y]) ↔ Spent x ts ∨ y = x := by
  constructor
  · rintro ⟨A, B, h, hB⟩
    obtain rfl | ⟨B, b, rfl⟩ := eq_nil_or_concat B
    · have h' := append_inj_right' h rfl
      simp only [cons.injEq, use.injEq, and_true] at h'
      exact .inr h'
    · rw [concat_eq_append, ← cons_append, ← append_assoc] at h
      refine .inl ⟨A, B, append_inj_left' h rfl, fun hmem => hB ?_⟩
      simp [hmem]
  · rintro (⟨A, B, rfl, hB⟩ | rfl)
    · exact ⟨A, B ++ [use y], by simp, by simpa using hB⟩
    · exact ⟨ts, [], rfl, by simp⟩

theorem spent_snoc_assign : Spent x (ts ++ [assign y]) ↔ Spent x ts ∧ y ≠ x := by
  constructor
  · rintro ⟨A, B, h, hB⟩
    obtain rfl | ⟨B, b, rfl⟩ := eq_nil_or_concat B
    · have h' := append_inj_right' h rfl
      simp at h'
    · rw [concat_eq_append, ← cons_append, ← append_assoc] at h
      have hb := append_inj_right' h rfl
      simp only [cons.injEq, and_true] at hb
      subst hb
      refine ⟨⟨A, B, append_inj_left' h rfl, fun hmem => hB (by simp [hmem])⟩, ?_⟩
      rintro rfl
      exact hB (by simp)
  · rintro ⟨⟨A, B, rfl, hB⟩, hy⟩
    exact ⟨A, B ++ [assign y], by simp, by simp [hB, hy.symm]⟩

theorem AtMostOnce.left (h : AtMostOnce x (ts ++ ts')) : AtMostOnce x ts := by
  rintro A B C rfl
  exact h A B (C ++ ts') (by simp)

theorem AtMostOnce.right (h : AtMostOnce x (ts ++ ts')) : AtMostOnce x ts' := by
  rintro A B C rfl
  exact h (ts ++ A) B C (by simp)

theorem atMostOnce_snoc_use :
    AtMostOnce x (ts ++ [use y]) ↔ AtMostOnce x ts ∧ (y = x → ¬ Spent x ts) := by
  constructor
  · intro h
    refine ⟨h.left, ?_⟩
    rintro rfl ⟨A, B, rfl, hB⟩
    exact hB (h A B [] (by simp))
  · rintro ⟨h, hspent⟩ A B C heq
    obtain rfl | ⟨C, c, rfl⟩ := eq_nil_or_concat C
    · have hy := append_inj_right' heq rfl
      simp only [cons.injEq, use.injEq, and_true] at hy
      by_contra hB
      exact hspent hy ⟨A, B, append_inj_left' heq rfl, hB⟩
    · rw [concat_eq_append, ← cons_append, ← append_assoc] at heq
      exact h A B C (append_inj_left' heq rfl)

theorem atMostOnce_snoc_assign : AtMostOnce x (ts ++ [assign y]) ↔ AtMostOnce x ts := by
  constructor
  · exact AtMostOnce.left
  · intro h A B C heq
    obtain rfl | ⟨C, c, rfl⟩ := eq_nil_or_concat C
    · have hy := append_inj_right' heq rfl
      simp at hy
    · rw [concat_eq_append, ← cons_append, ← append_assoc] at heq
      exact h A B C (append_inj_left' heq rfl)

theorem spent_append_uses (U : List α) : Spent x (ts ++ U.map use) ↔ Spent x ts ∨ x ∈ U := by
  induction U generalizing ts with
  | nil => simp
  | cons u U ih =>
    rw [map_cons, append_cons, ih, spent_snoc_use, mem_cons, eq_comm, or_assoc]

theorem spent_append_assigns (A : List α) : Spent x (ts ++ A.map assign) ↔ Spent x ts ∧ x ∉ A := by
  induction A generalizing ts with
  | nil => simp
  | cons a A ih =>
    rw [map_cons, append_cons, ih, spent_snoc_assign, mem_cons, not_or, ne_comm, and_assoc]

theorem atMostOnce_append_uses (hU : U.Nodup) :
    AtMostOnce x (ts ++ U.map use) ↔ AtMostOnce x ts ∧ (x ∈ U → ¬ Spent x ts) := by
  induction U generalizing ts with
  | nil => simp
  | cons u U ih =>
    rw [map_cons, append_cons, ih (nodup_cons.mp hU).2, atMostOnce_snoc_use, spent_snoc_use]
    have hu := (nodup_cons.mp hU).1
    constructor
    · rintro ⟨⟨h, hux⟩, hmem⟩
      refine ⟨h, fun hx => ?_⟩
      obtain rfl | hx := mem_cons.mp hx
      · exact hux rfl
      · exact fun hs => hmem hx (.inl hs)
    · rintro ⟨h, hmem⟩
      refine ⟨⟨h, ?_⟩, ?_⟩
      · rintro rfl
        exact hmem mem_cons_self
      · rintro hx (hs | rfl)
        · exact hmem (mem_cons_of_mem u hx) hs
        · exact hu hx

theorem atMostOnce_append_assigns (A : List α) :
    AtMostOnce x (ts ++ A.map assign) ↔ AtMostOnce x ts := by
  induction A generalizing ts with
  | nil => simp
  | cons a A ih => rw [map_cons, append_cons, ih, atMostOnce_snoc_assign]

theorem spent_append_touches (U A : List α) :
    Spent x (ts ++ touches U A) ↔ (Spent x ts ∨ x ∈ U) ∧ x ∉ A := by
  rw [touches, ← append_assoc, spent_append_assigns, spent_append_uses]

theorem atMostOnce_append_touches (hU : U.Nodup) (A : List α) :
    AtMostOnce x (ts ++ touches U A) ↔ AtMostOnce x ts ∧ (x ∈ U → ¬ Spent x ts) := by
  rw [touches, ← append_assoc, atMostOnce_append_assigns, atMostOnce_append_uses hU]

/-! ### Uses before assignments -/

/-- There is a use of `x` before any assignment to `x`. -/
def Exposed (x : α) : List (Touch α) → Prop
  | [] => False
  | use y :: ts => y = x ∨ Exposed x ts
  | assign y :: ts => y ≠ x ∧ Exposed x ts

theorem exposed_append : Exposed x (ts ++ ts') ↔ Exposed x ts ∨ assign x ∉ ts ∧ Exposed x ts' := by
  induction ts with
  | nil => simp [Exposed]
  | cons t ts ih =>
    cases t with
    | use y => simp [Exposed, ih, or_assoc]
    | assign y =>
      simp [Exposed, ih, and_or_left, and_assoc, eq_comm]

theorem exposed_uses : Exposed x (U.map use) ↔ x ∈ U := by
  induction U with
  | nil => simp [Exposed]
  | cons u U ih => simp [Exposed, ih, eq_comm]

theorem not_exposed_assigns : ¬ Exposed x (A.map assign) := by
  induction A with
  | nil => simp [Exposed]
  | cons a A ih => simp [Exposed, ih]

theorem exposed_touches : Exposed x (touches U A) ↔ x ∈ U := by
  rw [touches, exposed_append, exposed_uses]
  exact or_iff_left fun h => not_exposed_assigns h.2

theorem assign_mem_touches : assign x ∈ touches U A ↔ x ∈ A := by
  simp [touches]

end Touch

end AgenticCircuit
