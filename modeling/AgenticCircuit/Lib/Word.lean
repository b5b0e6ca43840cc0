import Mathlib.Algebra.GroupWithZero.Nat

/-! # Unsigned words that remember a wrap

An unsigned machine word of `bits` bits with a flag: `add`, `sub` and `mul` compute modulo `2 ^ bits`
as the machine does, and set the flag when the true result does not fit.  A computation of a
program is free of wraps when the flag of its last word is not set. -/

namespace AgenticCircuit

theorem toNat_pos {bits : ℕ} {w : BitVec bits} (h : w ≠ 0) : 0 < w.toNat :=
  Nat.pos_of_ne_zero fun hzero => h (BitVec.eq_of_toNat_eq hzero)

structure Word (bits : ℕ) where
  val : ℕ
  wrapped : Bool := false
deriving DecidableEq

namespace Word

variable {bits : ℕ} (w : Word bits) (n : ℕ)

def add : Word bits :=
  ⟨(w.val + n) % 2 ^ bits, w.wrapped || decide (2 ^ bits ≤ w.val + n)⟩

def sub : Word bits :=
  ⟨(w.val + (2 ^ bits - n)) % 2 ^ bits, w.wrapped || decide (w.val < n)⟩

def mul : Word bits :=
  ⟨w.val * n % 2 ^ bits, w.wrapped || decide (2 ^ bits ≤ w.val * n)⟩

def div : Word bits := ⟨w.val / n, w.wrapped⟩

variable {w n}

theorem add_eq (h : w.val + n < 2 ^ bits) : w.add n = ⟨w.val + n, w.wrapped⟩ := by
  have hfits : ¬ 2 ^ bits ≤ w.val + n := by omega
  rw [add, Nat.mod_eq_of_lt h, decide_eq_false hfits, Bool.or_false]

theorem sub_eq (hle : n ≤ w.val) (hlt : w.val < 2 ^ bits) : w.sub n = ⟨w.val - n, w.wrapped⟩ := by
  have hfits : ¬ w.val < n := by omega
  have hsum : w.val + (2 ^ bits - n) = w.val - n + 2 ^ bits := by omega
  have hval : (w.val + (2 ^ bits - n)) % 2 ^ bits = w.val - n := by
    rw [hsum, Nat.add_mod_right]
    apply Nat.mod_eq_of_lt
    omega
  rw [sub, hval, decide_eq_false hfits, Bool.or_false]

theorem mul_eq (h : w.val * n < 2 ^ bits) : w.mul n = ⟨w.val * n, w.wrapped⟩ := by
  have hfits : ¬ 2 ^ bits ≤ w.val * n := by omega
  rw [mul, Nat.mod_eq_of_lt h, decide_eq_false hfits, Bool.or_false]

/-- Add the numbers of a list one after the other. -/
def addAll (w : Word bits) (l : List ℕ) : Word bits := l.foldl add w

theorem addAll_eq {l : List ℕ} (h : w.val + l.sum < 2 ^ bits) :
    w.addAll l = ⟨w.val + l.sum, w.wrapped⟩ := by
  induction l generalizing w with
  | nil => rfl
  | cons n l ih =>
    rw [List.sum_cons] at h
    have hadd : w.add n = ⟨w.val + n, w.wrapped⟩ := add_eq (by omega)
    show (w.add n).addAll l = _
    rw [hadd, ih (by show w.val + n + l.sum < _; omega), List.sum_cons]
    simp only [Nat.add_assoc]

end Word

end AgenticCircuit
