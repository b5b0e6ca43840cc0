import AgenticCircuit.CodeGen.Scalar

/-! # Binary scalar operations in C++

C++ computes on `i1`, `i8`, `i16` and `i32` in `int`, on `i64` in `long` and on `index` without a
sign (`computing`).  For every binary operation this module compares what C++ computes there
with the value of the IR: `BinaryOperation.exact` says where the two agree.

* Sums, differences and products agree where the integer result is in range
  (`checked_computing_iff`); `index` wraps in both.
* Division and remainder stay in range unless the least value is divided by `-1`
  (`tdiv_range`, `tmod_range`); without a sign they are those of `index.divu`.
* Bitwise operations commute with sign extension (`bitwise_signExtend`).
* A left shift of `i8` or `i16` is not truncated; a right shift of `index` loses the sign. -/

namespace AgenticCircuit.CodeGen

open Cpp Int Option IntegerType

namespace ScalarType

/-- The type in which C++ computes on operands of the type. -/
def computing : ScalarType → IntegerType
  | i1 | i8 | i16 | i32 => .int32
  | i64 => .int64
  | index => .uint64

variable {t : ScalarType} {x y z : ℤ}

/-- The range of the values of a type. -/
theorem ofInt_eq_self_iff : t.ofInt z = z ↔ match t with
      | i1 => 0 ≤ z ∧ z < 2
      | i8 => -128 ≤ z ∧ z < 128
      | i16 => -32768 ≤ z ∧ z < 32768
      | i32 => -2147483648 ≤ z ∧ z < 2147483648
      | i64 => -9223372036854775808 ≤ z ∧ z < 9223372036854775808
      | index => 0 ≤ z ∧ z < 18446744073709551616 := by
  cases t <;>
    simp [ofInt, cppType, convert, isSigned, bits,
      signedWrap] <;> omega

theorem ofInt_ofInt : t.ofInt (t.ofInt z) = t.ofInt z := by
  cases t <;>
    simp [ofInt, cppType, convert, isSigned, signedWrap]

theorem convert_computing (h : t.ofInt z = z) : t.computing.convert z = z := by
  rw [ofInt_eq_self_iff] at h
  cases t <;>
    simp [computing, convert, isSigned, bits,
      signedWrap] at h ⊢ <;> omega

/-- A computed integer is the wrapped one where it is in range, or where the type wraps. -/
theorem checked_computing_iff :
    t.computing.checked z = some (t.ofInt z) ↔ t = index ∨ t.ofInt z = z := by
  have h := @ofInt_eq_self_iff t z
  cases t <;>
    simp [computing, ofInt, cppType, checked, convert,
      isSigned, bits, signedWrap] at h ⊢ <;> omega

theorem signed_eq (h : t.ofInt z = z) (h1 : t ≠ i1) (h2 : t ≠ index) : t.signed z = z := by
  rw [ofInt_eq_self_iff] at h
  cases t <;> simp [signed, signedWrap, width] at h h1 h2 ⊢ <;> omega

theorem signed_range (t : ScalarType) (z : ℤ) :
    -2 ^ (t.width - 1) ≤ t.signed z ∧ t.signed z < 2 ^ (t.width - 1) := by
  cases t <;> simp [signed, signedWrap, width] <;> omega

theorem ofInt_of_signed_range (h1 : t ≠ i1) (h2 : t ≠ index) (hl : -2 ^ (t.width - 1) ≤ z)
    (hu : z < 2 ^ (t.width - 1)) : t.ofInt z = z := by
  rw [ofInt_eq_self_iff]
  cases t <;> simp [width] at h1 h2 hl hu ⊢ <;> omega

end ScalarType

/-! ### Truncating division -/

theorem tdiv_range {m x y : ℤ} (hl : -m ≤ x) (hu : x < m) (hy : y ≠ 0)
    (ho : ¬ (x = -m ∧ y = -1)) : -m ≤ x.tdiv y ∧ x.tdiv y < m := by
  have habs : (x.tdiv y).natAbs ≤ x.natAbs := by
    rw [natAbs_tdiv]
    exact Nat.div_le_self _ _
  refine ⟨by omega, ?_⟩
  by_contra hge
  -- The quotient is the largest magnitude: the dividend is the least value and the divisor a unit.
  have hx : x = -m := by omega
  have hq : x.tdiv y = m := by omega
  have hunit : y.natAbs = 1 := by
    have h := congrArg Int.natAbs hq
    rw [natAbs_tdiv, hx, natAbs_neg] at h
    have hm : 0 < m.natAbs := by omega
    by_contra hne
    exact absurd h (Nat.div_lt_self hm (by omega : 1 < y.natAbs)).ne
  rcases natAbs_eq y with h | h <;> rw [hunit] at h
  · rw [h, Nat.cast_one, Int.tdiv_one] at hq
    omega
  · exact ho ⟨hx, by simpa using h⟩

theorem tmod_range {m x y : ℤ} (hl : -m ≤ x) (hu : x < m) (hyl : -m ≤ y) (hyu : y < m)
    (hy : y ≠ 0) : -m ≤ x.tmod y ∧ x.tmod y < m := by
  have habs : (x.tmod y).natAbs < y.natAbs := by
    rw [natAbs_tmod]
    exact Nat.mod_lt _ (by omega)
  omega

/-! ### Conditions -/

def inRange (type : ScalarType) (z : ℤ) : Bool := decide (type.ofInt z = z)

/-- Where the C++ of a binary operation computes its value. -/
def BinaryOperation.exact (type : ScalarType) (x y : ℤ) : BinaryOperation → Bool
  -- The integer result is in range; `index` wraps.
  | addi => type == .index || inRange type (x + y)
  | subi => type == .index || inRange type (x - y)
  | muli => type == .index || inRange type (x * y)
  -- `bool` has no unsigned type.
  | divui | remui | shrui => type != .i1
  -- `std::size_t` divides without signs.
  | divsi =>
    type != .index || decide (type.ofInt ((type.signed x).tdiv (type.signed y)) = x / y)
  | remsi =>
    match type with
    | .index => decide (type.ofInt ((type.signed x).tmod (type.signed y)) = x % y)
    | .i32 | .i64 => !(x == -2 ^ (type.width - 1) && y == -1)
    | .i1 | .i8 | .i16 => true
  | andi | ori | xori => true
  | shli =>
    match type with
    | .i8 | .i16 => inRange type (x * 2 ^ y.toNat)
    | .i1 | .i32 | .i64 | .index => true
  | shrsi => type != .index || decide (x < 2 ^ 63) || y == 0

section Binary

open ScalarType BinaryOperation

variable {t : ScalarType} {x y z : ℤ}

/-- Without signs, division stays in range. -/
theorem checked_ediv (hx : index.ofInt x = x) (hy : index.ofInt y = y) :
    uint64.checked (x / y) = some (x / y) := by
  rw [ofInt_eq_self_iff] at hx hy
  apply checked_of_unsigned_range rfl (by decide) (ediv_nonneg hx.1 hy.1)
  exact lt_of_le_of_lt (ediv_le_self y hx.1) hx.2

theorem divsi_exact_iff (hx : t.ofInt x = x) (hy : t.ofInt y = y)
    (hz : divsi.evaluate t x y = some z) :
    Arithmetic.div.eval t.computing x y = some z ↔ divsi.exact t x y = true := by
  simp only [evaluate] at hz
  split at hz
  · cases hz
  next hdefined =>
  obtain rfl := some.inj hz
  by_cases h1 : t = i1
  · subst h1
    rw [ofInt_eq_self_iff] at hx hy
    obtain rfl | rfl : x = 0 ∨ x = 1 := by omega
    all_goals
      obtain rfl | rfl : y = 0 ∨ y = 1 := by omega
      all_goals
        revert hdefined
        decide
  rw [not_or] at hdefined
  by_cases h2 : t = index
  · subst h2
    have hy0 : y ≠ 0 := by
      rintro rfl
      exact hdefined.1 rfl
    have hx0 : 0 ≤ x := (ofInt_eq_self_iff.mp hx).1
    simp only [Arithmetic.eval, if_neg hy0, tdiv_eq_ediv_of_nonneg hx0, computing,
      checked_ediv hx hy, exact]
    simp [eq_comm]
  · have hsx := signed_eq hx h1 h2
    have hsy := signed_eq hy h1 h2
    have hr := signed_range t x
    rw [hsx, hsy] at hdefined ⊢
    rw [hsx] at hr
    obtain ⟨hl, hu⟩ := tdiv_range hr.1 hr.2 hdefined.1 hdefined.2
    have hq := ofInt_of_signed_range h1 h2 hl hu
    simp only [Arithmetic.eval, if_neg hdefined.1]
    rw [checked_computing_iff]
    simp [exact, h2, hq]

theorem remsi_exact_iff (hx : t.ofInt x = x) (hy : t.ofInt y = y)
    (hz : remsi.evaluate t x y = some z) :
    Arithmetic.rem.eval t.computing x y = some z ↔ remsi.exact t x y = true := by
  simp only [evaluate] at hz
  split at hz
  · cases hz
  next hdefined =>
  obtain rfl := some.inj hz
  by_cases h1 : t = i1
  · subst h1
    rw [ofInt_eq_self_iff] at hx hy
    obtain rfl | rfl : x = 0 ∨ x = 1 := by omega
    all_goals
      obtain rfl | rfl : y = 0 ∨ y = 1 := by omega
      all_goals
        revert hdefined
        decide
  by_cases h2 : t = index
  · subst h2
    have hy0 : y ≠ 0 := by
      rintro rfl
      exact hdefined rfl
    have hx0 : 0 ≤ x := (ofInt_eq_self_iff.mp hx).1
    simp only [Arithmetic.eval, if_neg hy0, tdiv_eq_ediv_of_nonneg hx0, tmod_eq_emod_of_nonneg hx0,
      computing, checked_ediv hx hy, exact]
    simp [eq_comm]
  · have hsx := signed_eq hx h1 h2
    have hsy := signed_eq hy h1 h2
    have hr := signed_range t x
    have hr' := signed_range t y
    rw [hsx] at hr
    rw [hsy] at hr' hdefined
    rw [hsx, hsy]
    obtain ⟨hl, hu⟩ := tmod_range hr.1 hr.2 hr'.1 hr'.2 hdefined
    rw [ofInt_of_signed_range h1 h2 hl hu]
    simp only [Arithmetic.eval, if_neg hdefined]
    have habs : (x.tdiv y).natAbs ≤ x.natAbs := by
      rw [natAbs_tdiv]
      exact Nat.div_le_self _ _
    cases t with
    | i1 => exact absurd rfl h1
    | index => exact absurd rfl h2
    | i8 | i16 =>
      simp only [width] at hr
      rw [computing, checked_of_signed_range rfl
        (by simp only [bits]; omega) (by simp only [bits]; omega)]
      simp [exact]
    | i32 =>
      by_cases ho : x = -2 ^ (i32.width - 1) ∧ y = -1
      · obtain ⟨rfl, rfl⟩ := ho
        decide
      · obtain ⟨hl, hu⟩ := tdiv_range hr.1 hr.2 hdefined ho
        rw [computing, checked_of_signed_range rfl hl hu]
        simpa [exact, imp_iff_not_or] using ho
    | i64 =>
      by_cases ho : x = -2 ^ (i64.width - 1) ∧ y = -1
      · obtain ⟨rfl, rfl⟩ := ho
        decide
      · obtain ⟨hl, hu⟩ := tdiv_range hr.1 hr.2 hdefined ho
        rw [computing, checked_of_signed_range rfl hl hu]
        simpa [exact, imp_iff_not_or] using ho

variable {f : (w : ℕ) → BitVec w → BitVec w → BitVec w}

/-- A bitwise operation that commutes with sign extension, on signed values of fewer bits. -/
theorem bitwise_signExtend (hf : ∀ {w v : ℕ} (a b : BitVec w),
      (f w a b).signExtend v = f v (a.signExtend v) (b.signExtend v))
    (w v : ℕ) (hw : 0 < w) (hv : w ≤ v) (hx : -2 ^ (w - 1) ≤ x ∧ x < 2 ^ (w - 1))
    (hy : -2 ^ (w - 1) ≤ y ∧ y < 2 ^ (w - 1)) : (f v (BitVec.ofInt v x) (BitVec.ofInt v y)).toInt =
      (f w (BitVec.ofInt w x) (BitVec.ofInt w y)).toInt := by
  have hextend : ∀ a : ℤ, -2 ^ (w - 1) ≤ a ∧ a < 2 ^ (w - 1) →
      BitVec.ofInt v a = (BitVec.ofInt w a).signExtend v := by
    intro a ha
    rw [BitVec.signExtend, BitVec.toInt_ofInt_eq_self hw ha.1 ha.2]
  rw [hextend x hx, hextend y hy, ← hf, BitVec.toInt_signExtend_of_le hv]

section

variable (hx : t.ofInt x = x) (hy : t.ofInt y = y)

include hx hy

theorem bitwise_exact (hf : ∀ {w v : ℕ} (a b : BitVec w), (f w a b).signExtend v =
      f v (a.signExtend v) (b.signExtend v))
    (hbit : ∀ a b : ℤ, (a = 0 ∨ a = 1) → (b = 0 ∨ b = 1) →
      int32.convert (f 32 (BitVec.ofInt 32 a) (BitVec.ofInt 32 b)).toInt =
      i1.ofInt (f 1 (BitVec.ofInt 1 a) (BitVec.ofInt 1 b)).toInt) : t.computing.convert
        (f t.computing.bits (BitVec.ofInt t.computing.bits x)
          (BitVec.ofInt t.computing.bits y)).toInt =
      t.ofInt (f t.width (BitVec.ofInt t.width x) (BitVec.ofInt t.width y)).toInt := by
  have hrx := ofInt_eq_self_iff.mp hx
  have hry := ofInt_eq_self_iff.mp hy
  cases t with
  | i1 =>
    exact hbit x y (by omega) (by omega)
  | i32 | i64 | index => rfl
  | i8 =>
    have hr : i8.ofInt (f 8 (BitVec.ofInt 8 x) (BitVec.ofInt 8 y)).toInt = _ :=
      ofInt_of_signed_range (by decide) (by decide) (BitVec.le_toInt _) BitVec.toInt_lt
    rw [computing, bits, width,
      bitwise_signExtend hf 8 32 (by decide) (by decide) hrx hry, hr]
    exact convert_computing hr
  | i16 =>
    have hr : i16.ofInt (f 16 (BitVec.ofInt 16 x) (BitVec.ofInt 16 y)).toInt = _ :=
      ofInt_of_signed_range (by decide) (by decide) (BitVec.le_toInt _) BitVec.toInt_lt
    rw [computing, bits, width,
      bitwise_signExtend hf 16 32 (by decide) (by decide) hrx hry, hr]
    exact convert_computing hr

theorem and_exact : t.computing.convert
        (BitVec.ofInt t.computing.bits x &&& BitVec.ofInt t.computing.bits y).toInt =
      t.ofInt (BitVec.ofInt t.width x &&& BitVec.ofInt t.width y).toInt := by
  refine bitwise_exact (f := fun _ a b => a &&& b) hx hy
    (fun _ _ => BitVec.signExtend_and) ?_
  rintro a b (rfl | rfl) (rfl | rfl) <;> decide

theorem or_exact : t.computing.convert
        (BitVec.ofInt t.computing.bits x ||| BitVec.ofInt t.computing.bits y).toInt =
      t.ofInt (BitVec.ofInt t.width x ||| BitVec.ofInt t.width y).toInt := by
  refine bitwise_exact (f := fun _ a b => a ||| b) hx hy
    (fun _ _ => BitVec.signExtend_or) ?_
  rintro a b (rfl | rfl) (rfl | rfl) <;> decide

theorem xor_exact : t.computing.convert
        (BitVec.ofInt t.computing.bits x ^^^ BitVec.ofInt t.computing.bits y).toInt =
      t.ofInt (BitVec.ofInt t.width x ^^^ BitVec.ofInt t.width y).toInt := by
  refine bitwise_exact (f := fun _ a b => a ^^^ b) hx hy
    (fun _ _ => BitVec.signExtend_xor) ?_
  rintro a b (rfl | rfl) (rfl | rfl) <;> decide

end

theorem shift_amount (hy : t.ofInt y = y) (h : t.unsigned y < t.width) :
    t.unsigned y = y ∧ 0 ≤ y ∧ y < t.width := by
  rw [ofInt_eq_self_iff] at hy
  cases t <;> simp [unsigned, width] at hy h ⊢ <;> omega

theorem width_le_bits (t : ScalarType) : t.width ≤ t.computing.bits := by
  cases t <;> decide

theorem shift_left_range (k m : ℕ) {n : ℕ} (hl : -2 ^ k ≤ x) (hu : x < 2 ^ k) (hn : n ≤ m) :
    -2 ^ (k + m) ≤ x * 2 ^ n ∧ x * 2 ^ n < 2 ^ (k + m) := by
  have hpos : (0 : ℤ) < 2 ^ n := by positivity
  have hle : (2 : ℤ) ^ n ≤ 2 ^ m := pow_le_pow_right₀ (by norm_num) hn
  have hk : (0 : ℤ) < 2 ^ k := by positivity
  rw [pow_add]
  constructor <;> nlinarith

theorem shli_exact_iff (hx : t.ofInt x = x) (hy : t.ofInt y = y)
    (hz : shli.evaluate t x y = some z) :
    Shift.left.eval t.computing x y = some z ↔ shli.exact t x y = true := by
  simp only [evaluate] at hz
  split at hz
  next hamount =>
    obtain ⟨heq, hl, hu⟩ := shift_amount hy hamount
    rw [heq] at hz
    obtain rfl := some.inj hz
    have hbits : y < t.computing.bits := lt_of_lt_of_le hu (by exact_mod_cast width_le_bits t)
    rw [Shift.eval, if_pos ⟨hl, hbits⟩, some.injEq]
    have hrx := ofInt_eq_self_iff.mp hx
    cases t with
    | i32 | i64 | index => simp [exact, computing, ofInt, cppType]
    | i1 =>
      obtain rfl : y = 0 := by
        simp only [width] at hu
        omega
      simp [exact, hx, convert_computing hx]
    | i8 =>
      obtain ⟨h1, h2⟩ := shift_left_range 7 7 hrx.1 hrx.2 (show y.toNat ≤ 7 by
        simp only [width] at hu
        omega)
      rw [computing, convert_of_signed_range rfl
        (by simp only [bits]; omega) (by simp only [bits]; omega)]
      simp [exact, inRange, eq_comm]
    | i16 =>
      obtain ⟨h1, h2⟩ := shift_left_range 15 15 hrx.1 hrx.2 (show y.toNat ≤ 15 by
        simp only [width] at hu
        omega)
      rw [computing, convert_of_signed_range rfl
        (by simp only [bits]; omega) (by simp only [bits]; omega)]
      simp [exact, inRange, eq_comm]
  · cases hz

theorem shrsi_index_ne {n : ℕ} (hl : 2 ^ 63 ≤ x) (hu : x < 2 ^ 64) (h0 : 0 < n) (h64 : n < 64) :
    index.ofInt (index.signed x / 2 ^ n) ≠ x / 2 ^ n := by
  have hsigned : index.signed x = x - 2 ^ 64 := by
    simp only [signed, signedWrap, width]
    omega
  have hsplit : (2 : ℤ) ^ 64 = 2 ^ (64 - n) * 2 ^ n := by
    rw [← pow_add]
    congr 1
    omega
  have hpos : (0 : ℤ) < 2 ^ n := by positivity
  have hr : (2 : ℤ) ^ (64 - n) ≤ 2 ^ 63 := pow_le_pow_right₀ (by norm_num) (by omega)
  have hq : x / 2 ^ n < 2 ^ (64 - n) := Int.ediv_lt_of_lt_mul hpos (by rw [← hsplit]; exact hu)
  have hq0 : 0 ≤ x / 2 ^ n := ediv_nonneg (by omega) hpos.le
  have hdiv : (x - 2 ^ 64) / 2 ^ n = x / 2 ^ n - 2 ^ (64 - n) := by
    rw [hsplit, sub_mul_ediv_right _ _ hpos.ne']
  rw [hsigned, hdiv]
  simp only [ofInt, cppType, convert, isSigned, bits, Bool.false_eq_true, if_false]
  generalize x / 2 ^ n = q at *
  generalize (2 : ℤ) ^ (64 - n) = r at *
  omega

theorem ediv_two_pow_range {m : ℤ} (n : ℕ) (hl : -m ≤ x) (hu : x < m) :
    -m ≤ x / 2 ^ n ∧ x / 2 ^ n < m := by
  have hpos : (0 : ℤ) < 2 ^ n := by positivity
  constructor
  · apply Int.le_ediv_of_mul_le hpos
    nlinarith
  · apply Int.ediv_lt_of_lt_mul hpos
    nlinarith

theorem shrsi_exact_iff (hx : t.ofInt x = x) (hy : t.ofInt y = y)
    (hz : shrsi.evaluate t x y = some z) :
    Shift.right.eval t.computing x y = some z ↔ shrsi.exact t x y = true := by
  simp only [evaluate] at hz
  split at hz
  next hamount =>
    obtain ⟨heq, hl, hu⟩ := shift_amount hy hamount
    rw [heq] at hz
    obtain rfl := some.inj hz
    have hbits : y < t.computing.bits := lt_of_lt_of_le hu (by exact_mod_cast width_le_bits t)
    rw [Shift.eval, if_pos ⟨hl, hbits⟩, some.injEq]
    by_cases h1 : t = i1
    · subst h1
      obtain rfl : y = 0 := by
        simp only [width] at hu
        omega
      rw [ofInt_eq_self_iff] at hx
      obtain rfl | rfl : x = 0 ∨ x = 1 := by omega
      all_goals decide
    by_cases h2 : t = index
    · subst h2
      have hrx := ofInt_eq_self_iff.mp hx
      simp only [width] at hu
      by_cases hneg : x < 2 ^ 63
      · have hs : index.signed x = x := by
          simp only [signed, signedWrap, width]
          omega
        have hq : 0 ≤ x / 2 ^ y.toNat := ediv_nonneg hrx.1 (by positivity)
        have hq' := (ediv_two_pow_range y.toNat (by omega) hneg).2
        have hvalid : index.ofInt (x / 2 ^ y.toNat) = x / 2 ^ y.toNat :=
          ofInt_eq_self_iff.mpr ⟨hq, by omega⟩
        rw [hs, hvalid]
        simp only [exact]
        simp
        omega
      · by_cases h0 : y = 0
        · subst h0
          have hs : index.ofInt (index.signed x) = x := by
            simp only [signed, signedWrap, width, ofInt, cppType, convert,
              isSigned, bits, Bool.false_eq_true, if_false]
            omega
          simp [exact, hs]
        · have hne := shrsi_index_ne (n := y.toNat) (by omega) hrx.2 (by omega) (by omega)
          simp [exact]
          omega
    · have hs := signed_eq hx h1 h2
      have hr := signed_range t x
      rw [hs] at hr
      obtain ⟨hql, hqu⟩ := ediv_two_pow_range y.toNat hr.1 hr.2
      rw [hs, ofInt_of_signed_range h1 h2 hql hqu]
      simp [exact, h2]
  · cases hz

end Binary

end AgenticCircuit.CodeGen
