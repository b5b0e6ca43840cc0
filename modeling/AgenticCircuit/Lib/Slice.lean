import Mathlib.Data.List.Basic

/-! # Slices of a byte string

Reading and overwriting a range of a list, the two primitives under every fixed layout: a
field is a slice at an offset, and an update of the field splices new bytes over it. The
laws are the ones of a lens: the range that was written is read back, and every range that
does not meet it keeps its contents. -/

namespace AgenticCircuit

open List

section Slice

variable {α : Type*}

/-- The `length` elements from `offset` on. -/
def slice (offset length : ℕ) (bytes : List α) : List α := (bytes.drop offset).take length

/-- `bytes` with `value` written from `offset` on. -/
def splice (offset : ℕ) (value bytes : List α) : List α :=
  bytes.take offset ++ value ++ bytes.drop (offset + value.length)

variable {offset length : ℕ} {value bytes : List α}

theorem length_splice (h : offset + value.length ≤ bytes.length) :
    (splice offset value bytes).length = bytes.length := by
  simp only [splice, length_append, length_take, length_drop]
  omega

theorem slice_zero_length (h : bytes.length = length) : slice 0 length bytes = bytes := by
  rw [slice, drop_zero, ← h, take_length]

theorem getElem?_slice (i : ℕ) :
    (slice offset length bytes)[i]? = if i < length then bytes[offset + i]? else none := by
  simp [slice, getElem?_take]

section

variable (h : offset + value.length ≤ bytes.length)

include h

theorem getElem?_splice (i : ℕ) : (splice offset value bytes)[i]? =
      if offset ≤ i ∧ i < offset + value.length then value[i - offset]? else bytes[i]? := by
  have hoff : min offset bytes.length = offset := by omega
  simp only [splice, getElem?_append, length_append, length_take, hoff]
  rcases Nat.lt_or_ge i offset with hlt | hge
  · simp [hlt, show i < offset + value.length by omega, show ¬ offset ≤ i by omega]
  · rcases Nat.lt_or_ge i (offset + value.length) with hin | hout
    · simp [hin, show ¬ i < offset by omega]
    · simp [show ¬ i < offset + value.length by omega,
        show offset + value.length + (i - (offset + value.length)) = i by omega]

/-- The range just written is read back. -/
theorem slice_splice : slice offset value.length (splice offset value bytes) = value := by
  apply ext_getElem?
  intro i
  rw [getElem?_slice, getElem?_splice h]
  split
  · rename_i hi
    simp [hi]
  · rename_i hi
    exact (getElem?_eq_none (by omega)).symm

/-- A range that does not meet the one written keeps its contents. -/
theorem slice_splice_of_disjoint {offset' : ℕ}
    (hd : offset' + length ≤ offset ∨ offset + value.length ≤ offset') :
    slice offset' length (splice offset value bytes) = slice offset' length bytes := by
  apply ext_getElem?
  intro i
  rw [getElem?_slice, getElem?_slice, getElem?_splice h]
  split
  · rw [if_neg]
    omega
  · rfl

end

theorem flatMap_slice (size : ℕ) : ∀ (n : ℕ) (bytes : List α), bytes.length = n * size →
    (List.range n).flatMap (fun i => slice (i * size) size bytes) = bytes := by
  intro n
  induction n with
  | zero =>
    intro bytes h
    have : bytes = [] := length_eq_zero_iff.mp (by simpa using h)
    simp [this]
  | succ n ih =>
    intro bytes h
    have hlen : (bytes.take (n * size)).length = n * size := by
      rw [length_take, h]
      exact Nat.min_eq_left (Nat.mul_le_mul_right _ (Nat.le_succ n))
    have hfront : (List.range n).flatMap (fun i => slice (i * size) size bytes)
        = (List.range n).flatMap (fun i => slice (i * size) size (bytes.take (n * size))) := by
      refine flatMap_congr fun i hi => ?_
      have hle : i * size + size ≤ n * size := by
        rw [← Nat.succ_mul]
        exact Nat.mul_le_mul_right _ (mem_range.mp hi)
      apply ext_getElem?
      intro j
      rw [getElem?_slice, getElem?_slice]
      split
      · rw [getElem?_take, if_pos (by omega)]
      · rfl
    have hback : slice (n * size) size bytes = bytes.drop (n * size) := by
      apply take_of_length_le
      rw [length_drop, h, Nat.succ_mul]
      omega
    rw [range_succ, flatMap_append, hfront, ih _ hlen]
    simp [hback]

end Slice

end AgenticCircuit
