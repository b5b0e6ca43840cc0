import AgenticCircuit.Transforms.CanonicalizeModel

/-! # The orders canonicalization sorts by

`comesBefore` compares keys except between two transitions.  Since the name stands in the key
before everything that tells transitions apart, this is still an order: `notAfter` is total
and transitive, and `tied_iff` says what it does not tell apart.  The same is shown for the
entries of an address map, and from it that their normal form is a fixed point. -/

namespace AgenticCircuit.Transforms

open StableSort List Interleave

/-! ### The comparison is an order -/

theorem bar_not_mem_rankKey (rank : Nat) : '|' ∉ (rankKey rank).toList := by
  intro h
  simp only [rankKey, String.toList_append, mem_append, String.toList_ofList, mem_replicate] at h
  rcases h with ⟨_, h⟩ | h
  · exact absurd h (by decide)
  · rw [Nat.toString_eq_ofList_toDigits, String.toList_ofList] at h
    exact absurd (Nat.isDigit_of_mem_toDigits (by decide) (by decide) h) (by decide)

/-- What follows the name in the key, left out for the transitions, which are all tied. -/
def restKey (op : Operation) : String :=
  if op.isTransition then ""
  else op.header.symName?.getD "" ++ "|" ++ attributeKey op.header.attributes

/-- The text a sibling is ordered by. -/
def orderKey (rank : OperationName → Nat) (op : Operation) : List Char :=
  (rankKey (rank op.name)).toList ++ '|' :: (op.name.text.toList ++ '|' :: (restKey op).toList)

theorem toList_stableKey (op : Operation) (rank : Nat) :
    (stableKey op rank).toList = (rankKey rank).toList ++ '|' :: (op.name.text.toList ++ '|' ::
      (op.header.symName?.getD "" ++ "|" ++ attributeKey op.header.attributes).toList) := by
  simp [stableKey]

theorem stableKey_eq_orderKey {rank : OperationName → Nat} {op : Operation}
    (h : op.isTransition = false) : (stableKey op (rank op.name)).toList = orderKey rank op := by
  rw [toList_stableKey, orderKey, restKey, h]
  rfl

theorem isTransition_congr {a b : Operation} (h : a.name = b.name) :
    a.isTransition = b.isTransition := by
  unfold Operation.isTransition
  rw [h]

theorem name_eq_of_isTransition {a b : Operation} (ha : a.isTransition = true)
    (hb : b.isTransition = true) : a.name = b.name := by
  unfold Operation.isTransition at ha hb
  rw [beq_iff_eq] at ha hb
  generalize a.name = x at ha ⊢
  generalize b.name = y at hb ⊢
  cases x
  cases y
  subst ha hb
  rfl

theorem text_ne_of_name_ne {a b : Operation} (h : a.name ≠ b.name) :
    a.name.text.toList ≠ b.name.text.toList := by
  intro heq
  apply h
  have htext := String.toList_inj.mp heq
  generalize a.name = x at htext ⊢
  generalize b.name = y at htext ⊢
  cases x
  cases y
  subst htext
  rfl

theorem stableKey_lt_iff_of_name_ne {rank : OperationName → Nat} {a b : Operation}
    (h : a.name ≠ b.name) :
    stableKey a (rank a.name) < stableKey b (rank b.name) ↔ orderKey rank a < orderKey rank b := by
  rw [String.lt_iff_toList_lt, toList_stableKey, toList_stableKey, orderKey, orderKey]
  by_cases hrank : (rankKey (rank a.name)).toList = (rankKey (rank b.name)).toList
  · rw [hrank, append_lt_append_iff, append_lt_append_iff, cons_lt_cons_iff,
      cons_lt_cons_iff,
      field_lt_iff a.name.plain b.name.plain (text_ne_of_name_ne h)]
  · exact field_lt_iff (bar_not_mem_rankKey _) (bar_not_mem_rankKey _) hrank _ _ _ _

section

variable (rank : OperationName → Nat) (a b : Operation)

include rank a b

theorem comesBefore_iff : comesBefore rank a b = true ↔ orderKey rank a < orderKey rank b := by
  unfold comesBefore
  by_cases hname : a.name = b.name
  · have htrans := isTransition_congr hname
    cases hb : b.isTransition with
    | true =>
      rw [hb] at htrans
      have hkeys : orderKey rank a = orderKey rank b := by
        simp [orderKey, restKey, hname, htrans, hb]
      simp [hname, htrans, hkeys]
    | false =>
      rw [hb] at htrans
      rw [← stableKey_eq_orderKey htrans, ← stableKey_eq_orderKey hb, ← String.lt_iff_toList_lt]
      simp
  · have hboth : (a.isTransition && b.isTransition) = false := by
      cases ha : a.isTransition with
      | true =>
        cases hb : b.isTransition with
        | true => exact absurd (name_eq_of_isTransition ha hb) hname
        | false => rfl
      | false => rfl
    rw [← stableKey_lt_iff_of_name_ne hname]
    simp [Bool.and_assoc, hboth]

theorem notAfter_iff : notAfter rank a b ↔ orderKey rank a ≤ orderKey rank b := by
  unfold notAfter
  rw [← Bool.not_eq_true, comesBefore_iff, not_lt]

instance (rank : OperationName → Nat) : IsTrans Operation (notAfter rank) where
  trans a b c hab hbc := by
    rw [notAfter_iff] at *
    exact hab.trans hbc

instance (rank : OperationName → Nat) : Std.Total (notAfter rank) where
  total a b := by
    rw [notAfter_iff, notAfter_iff]
    exact le_total _ _

theorem notAfter_of_isTransition (ha : a.isTransition = true) (hb : b.isTransition = true) :
    notAfter rank a b := by
  rw [notAfter_iff]
  simp [orderKey, restKey, name_eq_of_isTransition ha hb, ha, hb]

end

theorem name_eq_of_keys {a b : Operation} {u v x y : List Char} (hu : '|' ∉ u) (hv : '|' ∉ v)
    (h : u ++ '|' :: (a.name.text.toList ++ '|' :: x) =
      v ++ '|' :: (b.name.text.toList ++ '|' :: y)) : a.name = b.name := by
  have htext := (field_eq a.name.plain b.name.plain (field_eq hu hv h).2).1
  by_contra hname
  exact text_ne_of_name_ne hname htext

theorem name_eq_of_orderKey {rank : OperationName → Nat} {a b : Operation}
    (h : orderKey rank a = orderKey rank b) : a.name = b.name :=
  name_eq_of_keys (bar_not_mem_rankKey _) (bar_not_mem_rankKey _) h

theorem name_eq_of_stableKey {a b : Operation} {i j : Nat} (h : stableKey a i = stableKey b j) :
    a.name = b.name := by
  have hlist := congrArg String.toList h
  rw [toList_stableKey, toList_stableKey] at hlist
  exact name_eq_of_keys (bar_not_mem_rankKey _) (bar_not_mem_rankKey _) hlist

theorem tied_iff (rank : OperationName → Nat) (a b : Operation) :
    notAfter rank a b ∧ notAfter rank b a ↔ stableKey a (rank a.name) = stableKey b (rank b.name) ∨
        a.isTransition = true ∧ b.isTransition = true := by
  rw [notAfter_iff, notAfter_iff, ← le_antisymm_iff]
  by_cases hname : a.name = b.name
  · have htrans := isTransition_congr hname
    cases hb : b.isTransition with
    | true =>
      simp [orderKey, restKey, hname, htrans, hb]
    | false =>
      rw [hb] at htrans
      rw [← stableKey_eq_orderKey htrans, ← stableKey_eq_orderKey hb, String.toList_inj]
      simp
  · constructor
    · exact fun h => absurd (name_eq_of_orderKey h) hname
    · rintro (h | ⟨ha, hb⟩)
      · exact absurd (name_eq_of_stableKey h) hname
      · exact absurd (name_eq_of_isTransition ha hb) hname

/-! ### Address maps in normal form -/

section entries
open Std

theorem comparePriority_eq (left right : Option Word) :
    comparePriority left right = compare (right.map BitVec.toNat) (left.map BitVec.toNat) := by
  cases left with
  | none => cases right <;> rfl
  | some a =>
    cases right with
    | none => rfl
    | some b => exact (@OrientedCmp.eq_swap _ compare _ b.toNat a.toNat).symm

/-- The numbers two interleavings are compared by. -/
def Interleave.numbers (i : Interleave) : List Nat :=
  [i.granularity.toNat, i.banks.toNat, i.bank.toNat]

theorem compareInterleave_eq (left right : Option Interleave) : compareInterleave left right =
      compare (left.map numbers) (right.map numbers) := by
  cases left with
  | none => cases right <;> rfl
  | some a =>
    cases right with
    | none => rfl
    | some b =>
      change _ = compare a.numbers b.numbers
      simp [compareInterleave, numbers, compareUnsigned]

theorem compareNormalizedMapEntries_eq : compareNormalizedMapEntries =
      compareLex (compareOn fun e => e.base.toNat) (compareLex
        (fun left right => compareOn (fun e : MapEntry => e.priority.map BitVec.toNat) right left)
        (compareLex (compareOn fun e => e.size.toNat)
          (compareLex (compareOn fun e => arrayToken e.permissions)
            (compareLex (compareOn fun e => arrayToken e.classes)
              (compareLex (compareOn fun e => e.interleave.map numbers)
                (compareLex (compareOn fun e => e.target)
                  (compareOn fun e => e.offset.toNat))))))) := by
  funext left right
  simp only [compareNormalizedMapEntries, comparePriority_eq, compareInterleave_eq, compareLex,
    compareOn, compareUnsigned]

instance : TransCmp compareNormalizedMapEntries := by
  rw [compareNormalizedMapEntries_eq]
  infer_instance

theorem entryNotAfter_iff (left right : MapEntry) :
    entryNotAfter left right ↔ (compareNormalizedMapEntries left right).isLE = true := by
  unfold entryNotAfter
  rw [@OrientedCmp.eq_swap _ compareNormalizedMapEntries _ right left]
  cases compareNormalizedMapEntries left right <;> decide

instance : IsTrans MapEntry entryNotAfter where
  trans a b c hab hbc := by
    rw [entryNotAfter_iff] at *
    exact TransCmp.isLE_trans hab hbc

instance : Std.Total entryNotAfter where
  total a b := by
    rw [entryNotAfter_iff, entryNotAfter_iff,
      @OrientedCmp.eq_swap _ compareNormalizedMapEntries _ b a]
    cases compareNormalizedMapEntries a b <;> decide

theorem sortedSetAttribute_idem (values : List String) :
    sortedSetAttribute (sortedSetAttribute values) = sortedSetAttribute values :=
  (pairwise_insertionSort _ values).insertionSort_eq

theorem normalizedMapEntry_idem (entry : MapEntry) :
    normalizedMapEntry (normalizedMapEntry entry) = normalizedMapEntry entry := by
  simp [normalizedMapEntry, sortedSetAttribute_idem]

theorem normalizedEntries_idem (entries : List MapEntry) :
    normalizedEntries (normalizedEntries entries) = normalizedEntries entries := by
  have hmap : (normalizedEntries entries).map normalizedMapEntry = normalizedEntries entries := by
    refine (map_congr_left fun entry hentry => ?_).trans (map_id _)
    obtain ⟨raw, _, rfl⟩ := mem_map.mp ((mem_insertionSort _).mp hentry)
    exact normalizedMapEntry_idem raw
  conv_lhs => rw [normalizedEntries, hmap]
  exact (pairwise_insertionSort _ _).insertionSort_eq

theorem normalizedAttribute_idem (name : String) (value : Attribute) :
    normalizedAttribute name (normalizedAttribute name value) = normalizedAttribute name value := by
  cases value with
  | mapEntries entries =>
    by_cases hname : name = "entries"
    · simp [normalizedAttribute, hname, normalizedEntries_idem]
    · simp [normalizedAttribute, hname]
  | string value => rfl
  | other token => rfl

theorem normalizeAddressMap_idem (h : Header) :
    h.normalizeAddressMap.normalizeAddressMap = h.normalizeAddressMap := by
  by_cases hname : h.name.text = "ac.address_map"
  · simp [Header.normalizeAddressMap, hname, normalizedAttribute_idem]
  · simp [Header.normalizeAddressMap, hname]

end entries

end AgenticCircuit.Transforms
