import AgenticCircuit.Lib.Word
import Mathlib.Data.Nat.Cast.Field
import Mathlib.Tactic.Positivity

/-! # Durations in ticks

`normalizeRationalToTicks` divides a duration by the global quantum, both fractions of 64-bit numbers.
The fractions are reduced, then they are reduced across, and only then multiplied; what is left has no
common factor, so the quotient is an integer exactly when the divisor is one
(`normalizeRationalToTicks_exact`). -/

namespace AgenticCircuit.Dialect

def kMaxTickScale : ℕ := 2 ^ 32

/-- The product with the flag of its word, unless it is refused before it is formed. -/
def checkedMultiply (left right : ℕ) : Option (Word 64) :=
  if left ≠ 0 ∧ (2 ^ 64 - 1) / left < right then none
  else some (Word.mul ⟨left, false⟩ right)

/-- Two numbers divided by their greatest common divisor. -/
def reduced (a b : ℕ) : ℕ × ℕ := (a / a.gcd b, b / a.gcd b)

/-- A call of `normalizeRationalToTicks`: the products it forms, and `ticks` if it returns true. -/
structure TickConversion where
  products : List (Word 64)
  ticks : Option ℕ
deriving DecidableEq

/-- The end of the conversion, from the numbers without common factors. -/
def multiplyOut (numerator denominator quantumNumerator quantumDenominator : ℕ) : TickConversion :=
  match checkedMultiply denominator quantumNumerator with
  | none => ⟨[], none⟩
  | some divisor =>
    if divisor.val = 0 then ⟨[divisor], none⟩ else
    match checkedMultiply numerator quantumDenominator with
    | none => ⟨[divisor], none⟩
    | some product =>
      if product.val % divisor.val ≠ 0 then ⟨[divisor, product], none⟩
      else if product.val / divisor.val ≤ 2 ^ 63 - 1 then
        ⟨[divisor, product], some (product.val / divisor.val)⟩
      else ⟨[divisor, product], none⟩

/-- The cross-cancellation of two reduced fractions. -/
def cancelAcross (numerator denominator quantumNumerator quantumDenominator : ℕ) : TickConversion :=
  let numerators := reduced numerator quantumNumerator
  let denominators := reduced quantumDenominator denominator
  if kMaxTickScale < numerators.2 ∨ kMaxTickScale < denominators.1 then ⟨[], none⟩ else
  multiplyOut numerators.1 denominators.2 numerators.2 denominators.1

def normalizeRationalToTicks
    (numerator denominator quantumNumerator quantumDenominator : BitVec 64) : TickConversion :=
  if denominator = 0 ∨ quantumNumerator = 0 ∨ quantumDenominator = 0 then ⟨[], none⟩ else
  let duration := reduced numerator.toNat denominator.toNat
  let quantum := reduced quantumNumerator.toNat quantumDenominator.toNat
  -- the declared quantum is bounded before the cross-cancellation can hide its denominator
  if kMaxTickScale < quantum.2 then ⟨[], none⟩
  else cancelAcross duration.1 duration.2 quantum.1 quantum.2

/-! ### Reduced fractions -/

section reduced

variable {a b p q : ℕ}

theorem reduced_coprime (hb : 0 < b) : (reduced a b).1.Coprime (reduced a b).2 :=
  Nat.coprime_div_gcd_div_gcd (Nat.gcd_pos_of_pos_right a hb)

theorem reduced_snd_pos (hb : 0 < b) : 0 < (reduced a b).2 :=
  Nat.div_pos (Nat.gcd_le_right a hb) (Nat.gcd_pos_of_pos_right a hb)

theorem reduced_fst_pos (ha : 0 < a) : 0 < (reduced a b).1 :=
  Nat.div_pos (Nat.gcd_le_left b ha) (Nat.gcd_pos_of_pos_left b ha)

theorem reduced_fst_dvd : (reduced a b).1 ∣ a := Nat.div_dvd_of_dvd (Nat.gcd_dvd_left a b)

theorem reduced_snd_dvd : (reduced a b).2 ∣ b := Nat.div_dvd_of_dvd (Nat.gcd_dvd_right a b)

theorem reduced_div (hb : 0 < b) : (a : ℚ) / b = (reduced a b).1 / (reduced a b).2 := by
  have hg : (a.gcd b : ℚ) ≠ 0 := by
    have hpos := Nat.gcd_pos_of_pos_right a hb
    positivity
  unfold reduced
  rw [Nat.cast_div (Nat.gcd_dvd_left a b) hg, Nat.cast_div (Nat.gcd_dvd_right a b) hg,
    div_div_div_cancel_right₀ hg]

theorem reduced_snd_eq_den (hb : 0 < b) : ((a : ℚ) / b).den = (reduced a b).2 := by
  have hden := Rat.den_div_eq_of_coprime (a := ((reduced a b).1 : ℤ)) (b := ((reduced a b).2 : ℤ))
    (by exact_mod_cast reduced_snd_pos hb) (by simpa using reduced_coprime hb)
  rw [reduced_div hb]
  simp only [Int.cast_natCast] at hden
  exact Int.ofNat.inj hden

/-- Two fractions without common factors, reduced across: the quotient has no common factor. -/
theorem cross_coprime (hab : a.Coprime b) (hpq : p.Coprime q) (hp : 0 < p) (hb : 0 < b) :
    ((reduced a p).1 * (reduced q b).1).Coprime ((reduced q b).2 * (reduced a p).2) := by
  have hleft : (reduced a p).1.Coprime (reduced q b).2 :=
    (hab.coprime_dvd_left reduced_fst_dvd).coprime_dvd_right reduced_snd_dvd
  have hright : (reduced q b).1.Coprime (reduced a p).2 :=
    (hpq.symm.coprime_dvd_left reduced_fst_dvd).coprime_dvd_right reduced_snd_dvd
  exact Nat.Coprime.mul_left (hleft.mul_right (reduced_coprime hp))
    ((reduced_coprime hb).mul_right hright)

theorem cross_div (hp : 0 < p) (hb : 0 < b) :
    ((a : ℚ) / b) / (p / q) = ((reduced a p).1 * (reduced q b).1 : ℕ) /
      ((reduced q b).2 * (reduced a p).2 : ℕ) := by
  have hswap : ((a : ℚ) / b) / (p / q) = (a / p) * (q / b) := by
    rw [div_div_div_eq, div_mul_div_comm, mul_comm (b : ℚ) p]
  rw [hswap, reduced_div hp, reduced_div hb, div_mul_div_comm, Nat.cast_mul, Nat.cast_mul,
    mul_comm ((reduced a p).2 : ℚ)]

end reduced

/-! ### The products -/

theorem checkedMultiply_eq (left right : ℕ) : checkedMultiply left right =
    if left * right < 2 ^ 64 then some ⟨left * right, false⟩ else none := by
  unfold checkedMultiply
  rcases Nat.eq_zero_or_pos left with rfl | hleft
  · simp [Word.mul]
  · have hle : (2 ^ 64 - 1) / left < right ↔ ¬ left * right < 2 ^ 64 := by
      rw [Nat.div_lt_iff_lt_mul hleft, Nat.mul_comm right]
      omega
    by_cases hfits : left * right < 2 ^ 64
    · rw [if_neg fun h => hle.1 h.2 hfits, if_pos hfits, Word.mul_eq hfits]
    · rw [if_pos ⟨hleft.ne', hle.2 hfits⟩, if_neg hfits]

theorem checkedMultiply_of_lt {left right : ℕ} (h : left * right < 2 ^ 64) :
    checkedMultiply left right = some ⟨left * right, false⟩ := by
  rw [checkedMultiply_eq, if_pos h]

theorem checkedMultiply_of_not_lt {left right : ℕ} (h : ¬ left * right < 2 ^ 64) :
    checkedMultiply left right = none := by
  rw [checkedMultiply_eq, if_neg h]

section multiplyOut

variable {n d p q : ℕ}

/-- The quotient of two products that fit. -/
theorem multiplyOut_fits (hdivisor : d * p < 2 ^ 64) (hpos : 0 < d * p) (hproduct : n * q < 2 ^ 64) :
    multiplyOut n d p q = ⟨[⟨d * p, false⟩, ⟨n * q, false⟩],
      if d * p ∣ n * q ∧ n * q / (d * p) ≤ 2 ^ 63 - 1 then some (n * q / (d * p)) else none⟩ := by
  have hdvd : (n * q) % (d * p) ≠ 0 ↔ ¬ d * p ∣ n * q := (Nat.dvd_iff_mod_eq_zero).not.symm
  unfold multiplyOut
  rw [checkedMultiply_of_lt hdivisor, checkedMultiply_of_lt hproduct]
  dsimp only
  rw [if_neg hpos.ne']
  by_cases hexact : d * p ∣ n * q
  · rw [if_neg (hdvd.not.2 (not_not.2 hexact))]
    by_cases hmax : n * q / (d * p) ≤ 2 ^ 63 - 1
    · rw [if_pos hmax, if_pos ⟨hexact, hmax⟩]
    · rw [if_neg hmax, if_neg fun h => hmax h.2]
  · rw [if_pos (hdvd.2 hexact), if_neg fun h => hexact h.1]

theorem multiplyOut_divisor (hdivisor : ¬ d * p < 2 ^ 64) : multiplyOut n d p q = ⟨[], none⟩ := by
  rw [multiplyOut, checkedMultiply_of_not_lt hdivisor]

theorem multiplyOut_product (hdivisor : d * p < 2 ^ 64) (hproduct : ¬ n * q < 2 ^ 64) :
    multiplyOut n d p q = ⟨[⟨d * p, false⟩], none⟩ := by
  rw [multiplyOut, checkedMultiply_of_lt hdivisor, checkedMultiply_of_not_lt hproduct]
  dsimp only
  rw [ite_self]

theorem multiplyOut_products (hpos : 0 < d * p) :
    ∀ w ∈ (multiplyOut n d p q).products, w.wrapped = false := by
  by_cases hdivisor : d * p < 2 ^ 64
  · by_cases hproduct : n * q < 2 ^ 64
    · rw [multiplyOut_fits hdivisor hpos hproduct]
      simp
    · rw [multiplyOut_product hdivisor hproduct]
      simp
  · rw [multiplyOut_divisor hdivisor]
    simp

/-- Without a common factor the divisor must be one. -/
theorem multiplyOut_ticks (hpos : 0 < d * p) (hcoprime : (n * q).Coprime (d * p)) (t : ℕ) :
    (multiplyOut n d p q).ticks = some t ↔ d * p = 1 ∧ n * q = t ∧ t ≤ 2 ^ 63 - 1 := by
  by_cases hdivisor : d * p < 2 ^ 64
  · by_cases hproduct : n * q < 2 ^ 64
    · rw [multiplyOut_fits hdivisor hpos hproduct, Option.ite_none_right_eq_some, Option.some.injEq]
      constructor
      · rintro ⟨⟨hdvd, hmax⟩, rfl⟩
        have hone : d * p = 1 := hcoprime.symm.eq_one_of_dvd hdvd
        rw [hone, Nat.div_one] at hmax ⊢
        exact ⟨rfl, rfl, hmax⟩
      · rintro ⟨hone, rfl, hmax⟩
        rw [hone, Nat.div_one]
        exact ⟨⟨one_dvd _, hmax⟩, rfl⟩
    · rw [multiplyOut_product hdivisor hproduct]
      refine iff_of_false (by simp) ?_
      rintro ⟨_, rfl, hmax⟩
      omega
  · rw [multiplyOut_divisor hdivisor]
    refine iff_of_false (by simp) ?_
    rintro ⟨hone, _⟩
    omega

end multiplyOut

/-! ### The conversion -/

section cancelAcross

variable {a b p q : ℕ}

theorem cancelAcross_products (hp : 0 < p) (hb : 0 < b) :
    ∀ w ∈ (cancelAcross a b p q).products, w.wrapped = false := by
  unfold cancelAcross
  dsimp only
  split_ifs
  · simp
  · exact multiplyOut_products (Nat.mul_pos (reduced_snd_pos hb) (reduced_snd_pos hp))

theorem cancelAcross_ticks (hab : a.Coprime b) (hpq : p.Coprime q) (hp : 0 < p) (hb : 0 < b)
    (hbound : q ≤ kMaxTickScale) (t : ℕ) :
    (cancelAcross a b p q).ticks = some t ↔ ((a : ℚ) / b) / (p / q) = t ∧ t ≤ 2 ^ 63 - 1 := by
  have hpos : 0 < (reduced q b).2 * (reduced a p).2 :=
    Nat.mul_pos (reduced_snd_pos hb) (reduced_snd_pos hp)
  have hcoprime := cross_coprime hab hpq hp hb
  have hinteger : ((a : ℚ) / b) / (p / q) = t ↔ (reduced q b).2 * (reduced a p).2 = 1 ∧
      (reduced a p).1 * (reduced q b).1 = t := by
    rw [cross_div hp hb, div_eq_iff (Nat.cast_ne_zero.2 hpos.ne'), ← Nat.cast_mul, Nat.cast_inj]
    constructor
    · intro heq
      have hone := hcoprime.symm.eq_one_of_dvd (Dvd.intro_left t heq.symm)
      exact ⟨hone, by rw [heq, hone, Nat.mul_one]⟩
    · rintro ⟨hone, rfl⟩
      rw [hone, Nat.mul_one]
  unfold cancelAcross
  dsimp only
  split_ifs with hscale
  · refine iff_of_false (by simp) fun h => ?_
    -- a factor of the divisor above the bound is not one, and the other number was within it
    rcases hscale with hlarge | hlarge
    · have hone := Nat.eq_one_of_mul_eq_one_left (hinteger.1 h.1).1
      rw [hone] at hlarge
      exact absurd hlarge (by decide)
    · have hle := (Nat.div_le_self q (q.gcd b)).trans hbound
      exact absurd hlarge (not_lt.2 hle)
  · rw [multiplyOut_ticks hpos hcoprime, hinteger, and_assoc]

end cancelAcross

section conversion

variable (numerator denominator quantumNumerator quantumDenominator : BitVec 64)

theorem normalizeRationalToTicks_products : ∀ w ∈ (normalizeRationalToTicks numerator denominator
    quantumNumerator quantumDenominator).products, w.wrapped = false := by
  unfold normalizeRationalToTicks
  dsimp only
  split_ifs with hzero
  · simp
  · simp
  · simp only [not_or] at hzero
    exact cancelAcross_products (reduced_fst_pos (toNat_pos hzero.2.1))
      (reduced_snd_pos (toNat_pos hzero.1))

/-- **Durations in ticks.**  The conversion succeeds exactly when the divisors are not zero, the
denominator of the quantum is within its bound and the quotient is an integer of 63 bits, which it then
returns; no product wraps. -/
theorem normalizeRationalToTicks_exact :
    (∀ t : ℕ, (normalizeRationalToTicks numerator denominator
        quantumNumerator quantumDenominator).ticks = some t ↔
      denominator ≠ 0 ∧ quantumNumerator ≠ 0 ∧ quantumDenominator ≠ 0 ∧
        ((quantumNumerator.toNat : ℚ) / quantumDenominator.toNat).den ≤ 2 ^ 32 ∧
        ((numerator.toNat : ℚ) / denominator.toNat) /
          (quantumNumerator.toNat / quantumDenominator.toNat) = t ∧ t ≤ 2 ^ 63 - 1) ∧
    ∀ w ∈ (normalizeRationalToTicks numerator denominator
      quantumNumerator quantumDenominator).products, w.wrapped = false := by
  refine ⟨fun t => ?_, normalizeRationalToTicks_products _ _ _ _⟩
  unfold normalizeRationalToTicks
  by_cases hzero : denominator = 0 ∨ quantumNumerator = 0 ∨ quantumDenominator = 0
  · rw [if_pos hzero]
    refine iff_of_false (by simp) ?_
    rintro ⟨hd, hp, hq, _⟩
    rcases hzero with h | h | h <;> contradiction
  · rw [if_neg hzero]
    obtain ⟨hd, hp, hq⟩ : denominator ≠ 0 ∧ quantumNumerator ≠ 0 ∧ quantumDenominator ≠ 0 := by
      simpa only [not_or] using hzero
    have hduration := reduced_coprime (a := numerator.toNat) (toNat_pos hd)
    have hquantum := reduced_coprime (a := quantumNumerator.toNat) (toNat_pos hq)
    have hbpos := reduced_snd_pos (a := numerator.toNat) (toNat_pos hd)
    have hppos := reduced_fst_pos (b := quantumDenominator.toNat) (toNat_pos hp)
    rw [reduced_snd_eq_den (toNat_pos hq), reduced_div (toNat_pos hd), reduced_div (toNat_pos hq),
      show (2 : ℕ) ^ 32 = kMaxTickScale from rfl]
    dsimp only
    split_ifs with hbound
    · refine iff_of_false (by simp) ?_
      rintro ⟨_, _, _, hle, _⟩
      omega
    · rw [cancelAcross_ticks hduration hquantum hppos hbpos (not_lt.1 hbound)]
      exact ⟨fun h => ⟨hd, hp, hq, not_lt.1 hbound, h⟩, fun h => h.2.2.2.2⟩

end conversion

/-- Five milliseconds in ticks of a quarter of a microsecond. -/
example : (normalizeRationalToTicks 5 1000 1 4000000).ticks = some 20000 := by decide +kernel

end AgenticCircuit.Dialect
