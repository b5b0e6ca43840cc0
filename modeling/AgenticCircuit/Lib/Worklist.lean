import Mathlib.Data.Finset.Card

/-! # Search with a worklist

`flood` collects what can be reached from a list of roots.  Everything found is marked and put at the
end of a list; a cursor runs through the list and adds the successors of each entry that are not
marked yet.  What is reachable lies in a finite set, so the cursor comes to the end of the list, and
then exactly the reachable elements are marked (`flood_marked_iff`). -/

namespace AgenticCircuit.Worklist

open List

open Relation (ReflTransGen)

variable {α : Type*} [DecidableEq α]

/-- What has been found: as marks, and in the order it was found. -/
structure Found (α : Type*) where
  marked : α → Bool
  order : List α

def Found.none : Found α := ⟨fun _ => false, []⟩

def Found.add (s : Found α) (a : α) : Found α :=
  if s.marked a then s else ⟨Function.update s.marked a true, s.order ++ [a]⟩

/-- The loop from a cursor on; `budget` bounds the number of its turns. -/
def floodFrom (next : α → List α) : ℕ → ℕ → Found α → Found α
  | 0, _, s => s
  | budget + 1, cursor, s =>
    match s.order[cursor]? with
    | none => s
    | some a => floodFrom next budget (cursor + 1) ((next a).foldl Found.add s)

def flood (next : α → List α) (budget : ℕ) (roots : List α) : Found α :=
  floodFrom next budget 0 (roots.foldl Found.add Found.none)

/-! ### What has been found -/

/-- An entry is in the list once, and the marks say which. -/
structure Found.Listed (s : Found α) : Prop where
  marked_iff : ∀ a, s.marked a = true ↔ a ∈ s.order
  nodup : s.order.Nodup

variable {s : Found α} {b : α}

omit [DecidableEq α] in
theorem Found.Listed.none : (Found.none : Found α).Listed :=
  ⟨by simp [Found.none], by simp [Found.none]⟩

theorem Found.Listed.add (h : s.Listed) (a : α) : (s.add a).Listed := by
  unfold Found.add
  split
  · exact h
  · rename_i ha
    have hnot : a ∉ s.order := fun hmem => ha ((h.marked_iff a).2 hmem)
    refine ⟨fun b => ?_, ?_⟩
    · rcases eq_or_ne b a with rfl | hne
      · simp
      · simp [h.marked_iff, hne]
    · simpa [nodup_append, h.nodup] using fun b hb => ne_of_mem_of_not_mem hb hnot

theorem Found.Listed.foldl (h : s.Listed) (l : List α) : (l.foldl Found.add s).Listed := by
  induction l generalizing s with
  | nil => exact h
  | cons a l ih => exact ih (h.add a)

theorem Found.mem_add (h : s.Listed) {a : α} : b ∈ (s.add a).order ↔ b ∈ s.order ∨ b = a := by
  unfold Found.add
  split
  · rename_i ha
    have hmem : a ∈ s.order := (h.marked_iff a).1 ha
    exact ⟨Or.inl, fun hb => hb.elim id (by rintro rfl; exact hmem)⟩
  · simp

theorem Found.mem_foldl (h : s.Listed) {l : List α} :
    b ∈ (l.foldl Found.add s).order ↔ b ∈ s.order ∨ b ∈ l := by
  induction l generalizing s with
  | nil => simp
  | cons a l ih => rw [foldl_cons, ih (h.add a), Found.mem_add h, mem_cons, or_assoc]

theorem Found.prefix_add (s : Found α) (a : α) : s.order <+: (s.add a).order := by
  unfold Found.add
  split
  · exact prefix_rfl
  · exact prefix_append _ _

theorem Found.prefix_foldl (s : Found α) (l : List α) :
    s.order <+: (l.foldl Found.add s).order := by
  induction l generalizing s with
  | nil => exact prefix_rfl
  | cons a l ih => exact (s.prefix_add a).trans (ih _)

/-! ### What the loop keeps -/

section loop

variable {next : α → List α} {roots : List α}

/-- What is listed is reachable, the roots are listed, and so are the successors of what lies before
the cursor. -/
structure Between (next : α → List α) (roots : List α) (cursor : ℕ) (s : Found α) : Prop where
  listed : s.Listed
  roots_mem : ∀ r ∈ roots, r ∈ s.order
  reached : ∀ a ∈ s.order, ∃ r ∈ roots, ReflTransGen (fun x y => y ∈ next x) r a
  expanded : ∀ a ∈ s.order.take cursor, ∀ b ∈ next a, b ∈ s.order

variable {budget cursor : ℕ} {s : Found α} {univ : List α}

theorem Between.start : Between next roots 0 (roots.foldl Found.add Found.none) where
  listed := Found.Listed.none.foldl roots
  roots_mem r hr := (Found.mem_foldl .none).2 (.inr hr)
  reached a ha := by
    rcases (Found.mem_foldl .none).1 ha with ha | ha
    · simp [Found.none] at ha
    · exact ⟨a, ha, .refl⟩
  expanded := by simp

theorem Between.turn (h : Between next roots cursor s) {a : α} (ha : s.order[cursor]? = some a) :
    Between next roots (cursor + 1) ((next a).foldl Found.add s) where
  listed := h.listed.foldl _
  roots_mem r hr := (Found.mem_foldl h.listed).2 (.inl (h.roots_mem r hr))
  reached b hb := by
    rcases (Found.mem_foldl h.listed).1 hb with hb | hb
    · exact h.reached b hb
    · obtain ⟨r, hr, hreach⟩ := h.reached a (mem_of_getElem? ha)
      exact ⟨r, hr, hreach.tail hb⟩
  expanded b hb c hc := by
    have hlt : cursor < s.order.length := (List.getElem?_eq_some_iff.1 ha).1
    have htake : ((next a).foldl Found.add s).order.take (cursor + 1) =
        s.order.take cursor ++ [a] := by
      obtain ⟨tail, htail⟩ := s.prefix_foldl (next a)
      rw [← htail, take_append_of_le_length hlt, take_add_one, ha, Option.toList_some]
    rw [htake, mem_append, mem_singleton] at hb
    rw [Found.mem_foldl h.listed]
    rcases hb with hb | rfl
    · exact .inl (h.expanded b hb c hc)
    · exact .inr hc

omit [DecidableEq α] in
/-- The list has at most as many entries as there are elements to be reached. -/
theorem Between.length_le (h : Between next roots cursor s)
    (huniv : ∀ a, (∃ r ∈ roots, ReflTransGen (fun x y => y ∈ next x) r a) → a ∈ univ) :
    s.order.length ≤ univ.length :=
  (subperm_of_subset h.listed.nodup fun a ha => huniv a (h.reached a ha)).length_le

/-- The cursor comes to the end of the list. -/
theorem Between.floodFrom
    (huniv : ∀ a, (∃ r ∈ roots, ReflTransGen (fun x y => y ∈ next x) r a) → a ∈ univ) :
    ∀ {cursor : ℕ} {s : Found α}, Between next roots cursor s → univ.length < budget + cursor →
      ∃ last, (floodFrom next budget cursor s).order.length ≤ last ∧
        Between next roots last (floodFrom next budget cursor s) := by
  induction budget with
  | zero =>
    intro cursor s h hbudget
    have hlen := h.length_le huniv
    exact ⟨cursor, by simp only [Worklist.floodFrom]; omega, h⟩
  | succ budget ih =>
    intro cursor s h hbudget
    rw [Worklist.floodFrom]
    split
    · rename_i hend
      have hlen : s.order.length ≤ cursor := getElem?_eq_none_iff.1 hend
      exact ⟨cursor, hlen, h⟩
    · rename_i a ha
      exact ih (h.turn ha) (by omega)

/-- **Search.**  With a budget for every element that can be reached, exactly these are marked. -/
theorem flood_marked_iff
    (huniv : ∀ a, (∃ r ∈ roots, ReflTransGen (fun x y => y ∈ next x) r a) → a ∈ univ)
    (hbudget : univ.length < budget) (a : α) : (flood next budget roots).marked a = true ↔
      ∃ r ∈ roots, ReflTransGen (fun x y => y ∈ next x) r a := by
  have hfuel : univ.length < budget + 0 := hbudget
  obtain ⟨last, hlast, h⟩ := Between.start.floodFrom huniv hfuel
  change (flood next budget roots).order.length ≤ last at hlast
  change Between next roots last (flood next budget roots) at h
  rw [h.listed.marked_iff]
  constructor
  · exact h.reached a
  · rintro ⟨r, hr, hreach⟩
    induction hreach with
    | refl => exact h.roots_mem r hr
    | tail _ hnext ih => exact h.expanded _ (by rwa [take_of_length_le hlast]) _ hnext

end loop

end AgenticCircuit.Worklist
