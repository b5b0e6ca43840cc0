import Mathlib.Algebra.Order.Ring.Abs
import Mathlib.Data.Nat.Size
import Mathlib.Tactic.Ring
import Mathlib.Tactic.NormNum

/-! # The finite values of binary64

`IsBinary64` says which rational numbers are values of the format.  `roundNat` and `roundInt` are
the conversion of whole numbers: to the nearest multiple of a unit that leaves 53 significant bits,
and to an even multiple where two are as near. -/

namespace AgenticCircuit

open Nat

/-- A finite value of binary64, the two zeros taken as one. -/
def IsBinary64 (x : ℚ) : Prop :=
  ∃ m e : ℤ, |m| < 2 ^ 53 ∧ -1074 ≤ e ∧ e ≤ 971 ∧ x = m * 2 ^ e

/-- The distance of the values around `n` that have 53 significant bits. -/
def spacing (n : ℕ) : ℕ := 2 ^ (n.size - 53)

/-- The value nearest to `n`, the even one of two. -/
def roundNat (n : ℕ) : ℕ :=
  let q := n / spacing n
  let r := n % spacing n
  if spacing n < 2 * r ∨ 2 * r = spacing n ∧ q % 2 = 1 then (q + 1) * spacing n
  else q * spacing n

def roundInt (n : ℤ) : ℤ := n.sign * roundNat n.natAbs

theorem spacing_eq_one {n : ℕ} (h : n < 2 ^ 53) : spacing n = 1 := by
  have hsize : n.size ≤ 53 := size_le.2 h
  rw [spacing, Nat.sub_eq_zero_of_le hsize, pow_zero]

theorem roundNat_of_lt {n : ℕ} (h : n < 2 ^ 53) : roundNat n = n := by
  unfold roundNat
  rw [spacing_eq_one h]
  simp only [Nat.div_one]
  rw [if_neg (by omega), mul_one]

theorem div_spacing {n : ℕ} (h : 2 ^ 53 ≤ n) : 2 ^ 52 ≤ n / spacing n ∧ n / spacing n < 2 ^ 53 := by
  have hsize : 53 < n.size := lt_size.2 h
  have hlow : 2 ^ (n.size - 1) ≤ n := lt_size.1 (by omega)
  have hhigh : n < 2 ^ n.size := lt_size_self n
  constructor
  · rw [spacing, Nat.le_div_iff_mul_le (Nat.two_pow_pos _), ← pow_add]
    exact le_trans (Nat.pow_le_pow_right (by omega) (by omega)) hlow
  · rw [spacing, Nat.div_lt_iff_lt_mul (Nat.two_pow_pos _), ← pow_add]
    exact lt_of_lt_of_le hhigh (Nat.pow_le_pow_right (by omega) (by omega))

theorem roundInt_of_lt {n : ℤ} (h : n.natAbs < 2 ^ 53) : roundInt n = n := by
  rw [roundInt, roundNat_of_lt h, Int.sign_mul_natAbs]

/-- The result is a multiple of the spacing by a factor of at most 53 bits. -/
theorem roundNat_eq_mul (n : ℕ) : ∃ q ≤ 2 ^ 53, roundNat n = q * spacing n := by
  have hquotient : n / spacing n < 2 ^ 53 := by
    rcases lt_or_ge n (2 ^ 53) with hn | hn
    · exact lt_of_le_of_lt (div_le_self _ _) hn
    · exact (div_spacing hn).2
  unfold roundNat
  simp only []
  split_ifs
  · exact ⟨n / spacing n + 1, hquotient, rfl⟩
  · exact ⟨n / spacing n, hquotient.le, rfl⟩

/-- What a whole number below `2 ^ 64` is rounded to is a value of the format. -/
theorem isBinary64_roundInt {n : ℤ} (h : n.natAbs < 2 ^ 64) : IsBinary64 (roundInt n : ℤ) := by
  obtain ⟨q, hq, hround⟩ := roundNat_eq_mul n.natAbs
  have hsize : n.natAbs.size ≤ 64 := size_le.2 h
  obtain ⟨q', k, hq', hk, hvalue⟩ : ∃ q' k : ℕ, q' < 2 ^ 53 ∧ k ≤ 12 ∧
      roundNat n.natAbs = q' * 2 ^ k := by
    rcases lt_or_ge q (2 ^ 53) with hlt | hge
    · exact ⟨q, n.natAbs.size - 53, hlt, by omega, hround⟩
    · refine ⟨2 ^ 52, n.natAbs.size - 53 + 1, by norm_num, by omega, ?_⟩
      rw [hround, le_antisymm hq hge, spacing]
      ring
  refine ⟨n.sign * q', k, ?_, by omega, by omega, ?_⟩
  · rw [abs_mul, abs_cast]
    have hsign : |n.sign| ≤ 1 := by
      rcases lt_trichotomy n 0 with hn | rfl | hn
      · simp [Int.sign_eq_neg_one_of_neg hn]
      · simp
      · simp [Int.sign_eq_one_of_pos hn]
    calc |n.sign| * (q' : ℤ) ≤ 1 * q' := Int.mul_le_mul_of_nonneg_right hsign (by omega)
      _ < 2 ^ 53 := by omega
  · rw [roundInt, hvalue]
    push_cast
    rw [zpow_natCast]
    ring

end AgenticCircuit
