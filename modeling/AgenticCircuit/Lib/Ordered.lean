import Mathlib.Algebra.GroupWithZero.Nat
import Mathlib.Data.List.Nodup
import Mathlib.Data.List.Pairwise
import Mathlib.Data.List.Perm.Basic
import Mathlib.Order.Lattice

/-! # Ordered containers as sorted lists

`std::set`, `std::map` and `std::multiset` keep their elements in the order of a key, and a
program sees three things of them: membership, the first element, and iteration in order.
Here they are sorted lists.

* `insertKey key x l` inserts `x` after every element whose key is not greater than that of
  `x` (the insertion of `std::multiset`).
* `insertSet x l` inserts `x` into a sorted list without repetition (`std::set::insert`),
  and `unionSet` inserts a range.
* `assignKey k v l` assigns the value of a key (`std::map::operator[]`).

`Sorted key l` is the order invariant; `Sorted.head_le` is the property of the first element
that a scheduler relies on. -/

namespace AgenticCircuit

open List

universe u

variable {α κ : Type u} [LinearOrder κ] (key : α → κ)
variable {l : List α} {y : α}

/-- The keys of `l` do not decrease. -/
def Sorted (l : List α) : Prop := l.Pairwise (fun a b => key a ≤ key b)

variable {a b x : α} {f : α → α} {xs : List α}

theorem Sorted.nil : Sorted key ([] : List α) := List.Pairwise.nil

theorem Sorted.tail (h : Sorted key (a :: l)) : Sorted key l :=
  (pairwise_cons.mp h).2

theorem Sorted.head_le (h : Sorted key (a :: l)) (hb : b ∈ a :: l) : key a ≤ key b := by
  rcases mem_cons.mp hb with rfl | hb
  · exact le_rfl
  · exact (pairwise_cons.mp h).1 b hb

theorem Sorted.head?_le (h : Sorted key l) (ha : l.head? = some a) (hb : b ∈ l) :
    key a ≤ key b := by
  obtain ⟨l, rfl⟩ := head?_eq_some_iff.mp ha
  exact h.head_le key hb

theorem Sorted.filter (h : Sorted key l) (p : α → Bool) :
    Sorted key (l.filter p) := List.Pairwise.filter p h

/-! ### Insertion -/

/-- Insert `x` after every element whose key is at most the key of `x`. -/
def insertKey (x : α) : List α → List α
  | [] => [x]
  | y :: l => if key x < key y then x :: y :: l else y :: insertKey x l

theorem insertKey_perm (x : α) : ∀ l : List α, (insertKey key x l).Perm (x :: l)
  | [] => List.Perm.refl _
  | y :: l => by
    unfold insertKey
    split
    · exact List.Perm.refl _
    · exact ((insertKey_perm x l).cons y).trans (List.Perm.swap x y l)

theorem mem_insertKey : y ∈ insertKey key x l ↔ y = x ∨ y ∈ l := by
  rw [(insertKey_perm key x l).mem_iff, mem_cons]

theorem length_insertKey (x : α) (l : List α) : (insertKey key x l).length = l.length + 1 := by
  rw [(insertKey_perm key x l).length_eq, length_cons]

theorem Sorted.insertKey (h : Sorted key l) (x : α) : Sorted key (insertKey key x l) := by
  induction l with
  | nil => exact pairwise_singleton _ _
  | cons y l ih =>
    unfold AgenticCircuit.insertKey
    split
    · rename_i hlt
      refine pairwise_cons.mpr ⟨fun b hb => ?_, h⟩
      exact le_trans (le_of_lt hlt) (h.head_le key hb)
    · rename_i hlt
      refine pairwise_cons.mpr ⟨fun b hb => ?_, ih (h.tail key)⟩
      rcases (mem_insertKey key).mp hb with rfl | hb
      · exact not_lt.mp hlt
      · exact (pairwise_cons.mp h).1 b hb

/-- A new key keeps a list strictly increasing. -/
theorem pairwise_lt_insertKey (h : l.Pairwise fun a b => key a < key b)
    (hx : ∀ y ∈ l, key y ≠ key x) : (insertKey key x l).Pairwise fun a b => key a < key b := by
  induction l with
  | nil => exact pairwise_singleton _ _
  | cons y l ih =>
    obtain ⟨hy, hl⟩ := pairwise_cons.mp h
    unfold insertKey
    split
    · rename_i hlt
      refine pairwise_cons.mpr ⟨fun b hb => ?_, h⟩
      rcases mem_cons.mp hb with rfl | hb
      · exact hlt
      · exact lt_trans hlt (hy b hb)
    · rename_i hlt
      refine pairwise_cons.mpr ⟨fun b hb => ?_,
        ih hl fun z hz => hx z (mem_cons_of_mem _ hz)⟩
      rcases (mem_insertKey key).mp hb with rfl | hb
      · exact lt_of_le_of_ne (not_lt.mp hlt) (hx y mem_cons_self)
      · exact hy b hb

/-- Insert the elements of a list one after the other. -/
def insertAll (l : List α) : List α → List α
  | [] => l
  | x :: xs => insertAll (insertKey key x l) xs

theorem insertAll_perm (l : List α) : ∀ xs : List α, (insertAll key l xs).Perm (l ++ xs)
  | [] => by
    rw [List.append_nil]
    exact List.Perm.refl _
  | x :: xs => by
    refine (insertAll_perm (insertKey key x l) xs).trans ?_
    exact ((insertKey_perm key x l).append_right xs).trans perm_middle.symm

theorem mem_insertAll : y ∈ insertAll key l xs ↔ y ∈ l ∨ y ∈ xs := by
  rw [(insertAll_perm key l xs).mem_iff, mem_append]

theorem Sorted.insertAll (h : Sorted key l) (xs : List α) : Sorted key (insertAll key l xs) := by
  induction xs generalizing l with
  | nil => exact h
  | cons x xs ih => exact ih (h.insertKey key x)

/-- Elements with distinct keys are in strict order. -/
theorem pairwise_lt_insertAll (h : (l.map key).Nodup) :
    (insertAll key [] l).Pairwise fun a b => key a < key b := by
  have hperm : (insertAll key [] l).Perm l := insertAll_perm key [] l
  have hnodup : ((insertAll key [] l).map key).Nodup := (hperm.map key).nodup_iff.2 h
  have hsorted := (Sorted.nil key).insertAll key l
  exact hsorted.imp₂ (fun a b hle hne => lt_of_le_of_ne hle hne) (pairwise_map.1 hnodup)

/-- The order in which elements with distinct keys are inserted does not matter. -/
theorem insertAll_congr {l' : List α} (hperm : l.Perm l') (h : (l.map key).Nodup) :
    insertAll key [] l = insertAll key [] l' := by
  have hsame : (insertAll key [] l).Perm (insertAll key [] l') :=
    (insertAll_perm key [] l).trans (hperm.trans (insertAll_perm key [] l').symm)
  refine List.Perm.eq_of_pairwise (fun a b _ _ hab hba => ?_) (pairwise_lt_insertAll key h)
    (pairwise_lt_insertAll key ((hperm.map key).nodup_iff.1 h)) hsame
  exact absurd hba (lt_asymm hab)

theorem insertKey_eq_append :
    ∀ {l : List α}, (∀ y ∈ l, key y ≤ key x) → insertKey key x l = l ++ [x]
  | [], _ => rfl
  | y :: l, h => by
    rw [insertKey, if_neg (not_lt.mpr (h y mem_cons_self)),
      insertKey_eq_append fun z hz => h z (mem_cons_of_mem y hz)]
    rfl

theorem insertAll_eq_append : ∀ {xs l : List α}, Sorted key (l ++ xs) → insertAll key l xs = l ++ xs
  | [], l, _ => (List.append_nil l).symm
  | x :: xs, l, h => by
    have hlast : ∀ y ∈ l, key y ≤ key x := fun y hy =>
      (pairwise_append.mp h).2.2 y hy x mem_cons_self
    have hassoc : l ++ [x] ++ xs = l ++ x :: xs := List.append_assoc l [x] xs
    rw [insertAll, insertKey_eq_append key hlast, ← hassoc]
    exact insertAll_eq_append (hassoc.symm ▸ h)

theorem insertKey_map (hf : ∀ a, key (f a) = key a) (x : α) : ∀ l : List α,
    insertKey key (f x) (l.map f) = (insertKey key x l).map f
  | [] => rfl
  | y :: l => by
    rw [map_cons, insertKey, insertKey, hf, hf]
    split
    · rfl
    · rw [map_cons, insertKey_map hf x l]

theorem insertAll_map (hf : ∀ a, key (f a) = key a) : ∀ xs l : List α,
    insertAll key (l.map f) (xs.map f) = (insertAll key l xs).map f
  | [], l => rfl
  | x :: xs, l => by
    rw [map_cons, insertAll, insertKey_map key hf, insertAll_map hf xs]
    rfl

/-! ### Sets -/

variable [DecidableEq α]

/-- Insert `x` unless it is there (`std::set::insert`, `std::map::operator[]`). -/
def insertSet (x : α) (l : List α) : List α := if x ∈ l then l else insertKey key x l

theorem mem_insertSet {x : α} : y ∈ insertSet key x l ↔ y = x ∨ y ∈ l := by
  unfold insertSet
  split
  · rename_i hx
    constructor
    · exact Or.inr
    · rintro (rfl | h)
      · exact hx
      · exact h
  · exact mem_insertKey key

theorem Sorted.insertSet (h : Sorted key l) (x : α) : Sorted key (insertSet key x l) := by
  unfold AgenticCircuit.insertSet
  split
  · exact h
  · exact h.insertKey key x

/-- Insert a range into a set. -/
def unionSet (l : List α) : List α → List α
  | [] => l
  | x :: xs => unionSet (insertSet key x l) xs

theorem mem_unionSet : y ∈ unionSet key l xs ↔ y ∈ l ∨ y ∈ xs := by
  induction xs generalizing l with
  | nil => simp [unionSet]
  | cons x xs ih =>
    rw [unionSet, ih, mem_insertSet, mem_cons]
    tauto

/-! ### Maps -/

/-- Assign the value of a key in a sorted association list (`std::map::operator[]`). -/
def assignKey {κ ν : Type u} [LinearOrder κ] (k : κ) (v : ν) : List (κ × ν) → List (κ × ν)
  | [] => [(k, v)]
  | (k', v') :: l =>
    if k < k' then (k, v) :: (k', v') :: l
    else if k = k' then (k, v) :: l
    else (k', v') :: assignKey k v l

/-! ### Sums over maps -/

theorem mem_of_lookup {κ ν : Type} [DecidableEq κ] {k : κ} {v : ν} {l : List (κ × ν)}
    (h : l.lookup k = some v) : (k, v) ∈ l := by
  obtain ⟨l₁, l₂, rfl, _⟩ := lookup_eq_some_iff.mp h
  exact mem_append_right l₁ mem_cons_self

section sums

variable {κ ν : Type} [DecidableEq κ] (f : ν → ℕ) {l : List (κ × ν)}

theorem perm_cons_filter {β : Type} {l : List β} {a : β} (key : β → κ)
    (hnd : (l.map key).Nodup) (ha : a ∈ l) : l ~ a :: l.filter (fun x => key x ≠ key a) := by
  classical
  refine (perm_cons_erase ha).trans (.cons _ (.of_eq ?_))
  rw [(hnd.of_map _).erase_eq_filter]
  refine filter_congr fun x hx => ?_
  have hkey : key x = key a ↔ x = a := ⟨inj_on_of_nodup_map hnd hx ha, congrArg key⟩
  rw [Bool.eq_iff_iff, bne_iff_ne, decide_eq_true_eq]
  exact not_congr hkey.symm

theorem sum_map_erase {k : κ} {v : ν} (hnd : (l.map Prod.fst).Nodup)
    (hmem : (k, v) ∈ l) : ((l.filter (fun x => x.1 ≠ k)).map (fun x => f x.2)).sum + f v =
      (l.map (fun x => f x.2)).sum := by
  rw [((perm_cons_filter Prod.fst hnd hmem).map _).sum_nat, map_cons, sum_cons, Nat.add_comm]

theorem sum_map_update {k : κ} {v : ν} (g : ν → ν)
    (hnd : (l.map Prod.fst).Nodup) (hmem : (k, v) ∈ l) :
    ((l.map (fun x => if x.1 = k then (x.1, g x.2) else x)).map (fun x => f x.2)).sum + f v =
      (l.map (fun x => f x.2)).sum + f (g v) := by
  have hrest : (l.filter (fun x => x.1 ≠ k)).map (fun x => if x.1 = k then (x.1, g x.2) else x) =
      l.filter (fun x => x.1 ≠ k) :=
    (map_congr_left fun x hx => if_neg (of_decide_eq_true (mem_filter.mp hx).2)).trans (map_id _)
  rw [(((perm_cons_filter Prod.fst hnd hmem).map _).map _).sum_nat, map_cons, hrest, map_cons, sum_cons,
    if_pos rfl, ← sum_map_erase f hnd hmem]
  change f (g v) + _ + f v = _
  omega

end sums

end AgenticCircuit
