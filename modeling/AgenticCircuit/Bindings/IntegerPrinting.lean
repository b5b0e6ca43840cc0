import AgenticCircuit.Bindings.NumberPrinting
import Mathlib.Data.Rat.Floor

/-! # How integers are printed

Below `2 ^ 53` the shortest text of an integer has its decimal digits: a text with as few digits
that is read back as the integer has its value (`shortest_value`), and digits and exponent are told
by the value (`scientificValue_inj`).  The layout then writes the integer out
(`ecmascriptNumber_integer`). -/

namespace AgenticCircuit.Bindings

open NumberText List Nat

/-! ### Digits and values -/

variable {digits : Bytes}

theorem digitsValue_inj {xs ys : Bytes} (hx : xs.all isDigit = true) (hy : ys.all isDigit = true)
    (hlength : xs.length = ys.length) (h : digitsValue xs = digitsValue ys) : xs = ys := by
  induction xs using reverseRecOn generalizing ys with
  | nil => rw [length_eq_zero_iff.1 hlength.symm]
  | append_singleton xs x ih =>
    rcases eq_nil_or_concat' ys with rfl | ⟨ys, y, rfl⟩
    · simp at hlength
    · have hsingle (digit : UInt8) : digitsValue [digit] = digit.toNat - 48 := by
        simp [digitsValue]
      rw [all_append, Bool.and_eq_true] at hx hy
      have hx' := digit_le (show isDigit x = true by simpa using hx.2)
      have hy' := digit_le (show isDigit y = true by simpa using hy.2)
      rw [digitsValue_append, digitsValue_append, hsingle, hsingle] at h
      simp only [length_singleton] at h
      have hlast : x = y := UInt8.toNat_inj.1 (by omega)
      rw [ih hx.1 hy.1 (by simpa using hlength) (by omega), hlast]

theorem Significant.mod_ten (h : Significant digits) : digitsValue digits % 10 ≠ 0 := by
  rcases eq_nil_or_concat' digits with rfl | ⟨rest, digit, rfl⟩
  · exact absurd rfl h.digits.1
  · have hall := h.digits.2
    rw [all_append, Bool.and_eq_true] at hall
    have hdigit := digit_le (show isDigit digit = true by simpa using hall.2)
    have hne : digit.toNat ≠ 48 := by
      intro heq
      refine h.last ?_
      rw [getLast?_concat, show digit = zero from UInt8.toNat_inj.1 heq]
    have hsingle : digitsValue [digit] = digit.toNat - 48 := by
      simp [digitsValue]
    rw [digitsValue_append, hsingle]
    simp only [length_singleton]
    omega

theorem Significant.range (h : Significant digits) :
    10 ^ (digits.length - 1) ≤ digitsValue digits ∧ digitsValue digits < 10 ^ digits.length := by
  obtain ⟨digit, rest, rfl, -, -⟩ := h.digits.cons
  refine ⟨le_digitsValue h.digits.2 ?_, digitsValue_lt h.digits.2⟩
  rintro rfl
  exact h.first rfl

theorem Significant.length_pos (h : Significant digits) : 0 < digits.length :=
  length_pos_iff.2 h.digits.1

theorem abs_scientificValue (negative : Bool) (digits : Bytes) (exponent : ℤ) :
    |scientificValue negative digits exponent| =
      digitsValue digits * 10 ^ (exponent - (digits.length - 1)) := by
  have hpower : (0 : ℚ) < 10 ^ (exponent - ((digits.length : ℤ) - 1)) :=
    zpow_pos (by norm_num) _
  have hdigits : (0 : ℚ) ≤ digitsValue digits := by positivity
  rw [scientificValue, abs_mul, abs_mul, abs_of_pos hpower, abs_of_nonneg hdigits]
  cases negative <;> simp

theorem scientificValue_range (h : Significant digits) (negative : Bool) (exponent : ℤ) :
    (10 : ℚ) ^ exponent ≤ |scientificValue negative digits exponent| ∧
      |scientificValue negative digits exponent| < 10 ^ (exponent + 1) := by
  obtain ⟨hlow, hhigh⟩ := h.range
  have hlength := h.length_pos
  have hpower : (0 : ℚ) < 10 ^ (exponent - ((digits.length : ℤ) - 1)) :=
    zpow_pos (by norm_num) _
  have hlow' : (10 : ℚ) ^ (digits.length - 1) ≤ digitsValue digits := by exact_mod_cast hlow
  have hhigh' : (digitsValue digits : ℚ) < 10 ^ digits.length := by exact_mod_cast hhigh
  have hsplit : (10 : ℚ) ^ (digits.length - 1) * 10 ^ (exponent - ((digits.length : ℤ) - 1)) =
      10 ^ exponent := by
    rw [← zpow_natCast, ← zpow_add₀ (by norm_num)]
    congr 1
    omega
  have hsplit' : (10 : ℚ) ^ digits.length * 10 ^ (exponent - ((digits.length : ℤ) - 1)) =
      10 ^ (exponent + 1) := by
    rw [← zpow_natCast, ← zpow_add₀ (by norm_num)]
    congr 1
    omega
  rw [abs_scientificValue]
  constructor
  · rw [← hsplit]
    exact mul_le_mul_of_nonneg_right hlow' hpower.le
  · rw [← hsplit']
    exact mul_lt_mul_of_pos_right hhigh' hpower

theorem scientificValue_sign (h : Significant digits) (negative : Bool) (exponent : ℤ) :
    scientificValue negative digits exponent < 0 ↔ negative = true := by
  have hdigits : (0 : ℚ) < digitsValue digits := by
    have := h.range.1
    have : 0 < 10 ^ (digits.length - 1) := by positivity
    exact_mod_cast (by omega : 0 < digitsValue digits)
  have hpower : (0 : ℚ) < 10 ^ (exponent - ((digits.length : ℤ) - 1)) :=
    zpow_pos (by norm_num) _
  have hmul := mul_pos hdigits hpower
  unfold scientificValue
  cases negative with
  | true => simpa using by linarith
  | false => simpa using hmul.le

theorem scientificValue_inj {digits' : Bytes} (h : Significant digits) (h' : Significant digits')
    {negative negative' : Bool} {exponent exponent' : ℤ}
    (heq : scientificValue negative digits exponent = scientificValue negative' digits' exponent') :
    negative = negative' ∧ digits = digits' ∧ exponent = exponent' := by
  have hsign : negative = negative' := by
    rw [Bool.eq_iff_iff, ← scientificValue_sign h negative exponent, heq,
      scientificValue_sign h' negative' exponent']
  have hexponent : exponent = exponent' := by
    obtain ⟨hlow, hhigh⟩ := scientificValue_range h negative exponent
    obtain ⟨hlow', hhigh'⟩ := scientificValue_range h' negative' exponent'
    rw [heq] at hlow hhigh
    have hle := (zpow_lt_zpow_iff_right₀ (by norm_num : (1 : ℚ) < 10)).1 (hlow.trans_lt hhigh')
    have hle' := (zpow_lt_zpow_iff_right₀ (by norm_num : (1 : ℚ) < 10)).1 (hlow'.trans_lt hhigh)
    omega
  subst hexponent
  have hlength := h.length_pos
  have hlength' := h'.length_pos
  -- The digits are multiples of one another by powers of ten.
  have habs := congrArg abs heq
  rw [abs_scientificValue, abs_scientificValue] at habs
  have hcross : digitsValue digits * 10 ^ digits'.length =
      digitsValue digits' * 10 ^ digits.length := by
    have hscale := congrArg (· * (10 : ℚ) ^ ((digits.length : ℤ) + digits'.length - 1 - exponent))
      habs
    simp only [mul_assoc, ← zpow_add₀ (by norm_num : (10 : ℚ) ≠ 0)] at hscale
    rw [show exponent - ((digits.length : ℤ) - 1) +
        ((digits.length : ℤ) + digits'.length - 1 - exponent) = (digits'.length : ℕ) by omega,
      show exponent - ((digits'.length : ℤ) - 1) +
        ((digits.length : ℤ) + digits'.length - 1 - exponent) = (digits.length : ℕ) by omega,
      zpow_natCast, zpow_natCast] at hscale
    exact_mod_cast hscale
  have hsame : digits.length = digits'.length := by
    have hstep {xs ys : Bytes} (hy : Significant ys) (hlt : xs.length < ys.length)
        (hmul : digitsValue xs * 10 ^ ys.length = digitsValue ys * 10 ^ xs.length) : False := by
      obtain ⟨k, hk⟩ := Nat.exists_eq_add_of_lt hlt
      have hpos : 0 < 10 ^ xs.length := by positivity
      rw [hk, show xs.length + k + 1 = k + 1 + xs.length by omega, pow_add, ← mul_assoc] at hmul
      have hvalue := eq_of_mul_eq_mul_right hpos hmul
      refine hy.mod_ten ?_
      rw [← hvalue, pow_succ, ← mul_assoc]
      exact mul_mod_left _ _
    rcases lt_trichotomy digits.length digits'.length with hlt | heq | hgt
    · exact (hstep h' hlt hcross).elim
    · exact heq
    · exact (hstep h hgt hcross.symm).elim
  have hvalue : digitsValue digits = digitsValue digits' := by
    rw [hsame] at hcross
    exact eq_of_mul_eq_mul_right (by positivity) hcross
  exact ⟨hsign, digitsValue_inj h.digits.2 h'.digits.2 hsame hvalue, rfl⟩

/-! ### Shortest texts of integers -/

theorem isBinary64_int {z : ℤ} (h : |z| < 2 ^ 53) : IsBinary64 z :=
  ⟨z, 0, h, by omega, by omega, by simp⟩

variable {library : JsonLibrary}

variable {exponent n : ℤ} {k : ℕ}

/-- A whole number that is read as an integer below `2 ^ 53` is the integer. -/
theorem whole_value {z : ℤ} (hlt : |n| < 2 ^ 53)
    (hnearest : ∀ y, IsBinary64 y → |(z : ℚ) - n| ≤ |(z : ℚ) - y|) : z = n := by
  rcases lt_or_ge |z| (2 ^ 53) with hsmall | hlarge
  · have hle := hnearest z (isBinary64_int hsmall)
    rw [sub_self, abs_zero] at hle
    have heq := abs_nonpos_iff.1 hle
    exact_mod_cast sub_eq_zero.1 heq
  · -- The power of two on its side is nearer.
    exfalso
    have hpower (sign : ℤ) (hsign : |sign| = 1) : IsBinary64 ((sign * 2 ^ 53 : ℤ) : ℚ) := by
      refine ⟨sign * 2 ^ 52, 1, ?_, by omega, by omega, ?_⟩
      · rw [abs_mul, hsign]
        norm_num
      · push_cast
        ring
    rw [abs_lt] at hlt
    rcases le_total 0 z with hpos | hneg
    · rw [abs_of_nonneg hpos] at hlarge
      have hle := hnearest _ (hpower 1 rfl)
      have hle' : |z - n| ≤ |z - 1 * 2 ^ 53| := by exact_mod_cast hle
      rw [abs_of_nonneg (by omega : 0 ≤ z - 1 * 2 ^ 53)] at hle'
      have := le_abs_self (z - n)
      omega
    · rw [abs_of_nonpos hneg] at hlarge
      have hle := hnearest _ (hpower (-1) rfl)
      have hle' : |z - n| ≤ |z - -1 * 2 ^ 53| := by exact_mod_cast hle
      rw [abs_of_nonpos (by omega : z - -1 * 2 ^ 53 ≤ 0)] at hle'
      have := neg_abs_le (z - n)
      omega

/-- A value below the first digit of an integer is not read as the integer. -/
theorem fraction_value (hlt : |n| < 2 ^ 53) {v : ℚ} (hv : |v| ≤ (10 ^ (k + 1) - 1) / 10)
    (hn : 10 ^ k + (if k = 0 then 0 else 1) ≤ |n|)
    (hnearest : ∀ y, IsBinary64 y → |v - n| ≤ |v - y|) : False := by
  have hapart : (|n| : ℤ) - |v| ≤ |v - n| := by
    have := abs_sub_abs_le_abs_sub (n : ℚ) v
    rw [abs_sub_comm] at this
    push_cast
    exact this
  have hn' : (10 : ℚ) ^ k + (if k = 0 then 0 else 1) ≤ (|n| : ℤ) := by
    split_ifs at hn ⊢ <;> exact_mod_cast hn
  rcases Nat.eq_zero_or_pos k with rfl | hk
  · -- The sixteenth below the value is nearer.
    norm_num at hv hn'
    have hfloor := Int.floor_le (16 * v)
    have hfloor' := Int.lt_floor_add_one (16 * v)
    rw [abs_le] at hv
    have hsize : |⌊16 * v⌋| < 2 ^ 53 := by
      have hlow : (-16 : ℤ) ≤ ⌊16 * v⌋ := Int.le_floor.2 (by push_cast; linarith)
      have hhigh : ⌊16 * v⌋ ≤ 16 := by
        have : (⌊16 * v⌋ : ℚ) < 17 := by linarith
        have : ⌊16 * v⌋ < 17 := by exact_mod_cast this
        omega
      rw [abs_lt]
      omega
    have hle := hnearest ((⌊16 * v⌋ : ℤ) * 2 ^ (-4 : ℤ))
      ⟨⌊16 * v⌋, -4, hsize, by omega, by omega, rfl⟩
    have hclose : |v - (⌊16 * v⌋ : ℤ) * 2 ^ (-4 : ℤ)| ≤ 1 / 16 := by
      rw [abs_le]
      norm_num
      constructor <;> linarith
    have hvabs : |v| ≤ 9 / 10 := abs_le.2 hv
    have hfar := hle.trans hclose
    push_cast at hapart
    linarith only [hfar, hapart, hvabs, hn']
  · -- The power of ten on its side is nearer.
    rw [if_neg (by omega)] at hn'
    have hpow : (10 : ℚ) ^ (k + 1) = 10 * 10 ^ k := by ring
    rw [hpow] at hv
    have hsize : |(10 : ℤ) ^ k| < 2 ^ 53 := by
      rw [abs_of_pos (by positivity)]
      have : (10 : ℤ) ^ k ≤ |n| := by
        omega
      omega
    rcases le_total 0 v with hpos | hneg
    · have hle := hnearest _ (isBinary64_int hsize)
      push_cast at hle
      rw [abs_of_nonneg hpos] at hv hapart
      rw [abs_of_nonpos (by linarith : v - 10 ^ k ≤ 0)] at hle
      linarith
    · have hle := hnearest _ (isBinary64_int (by rwa [abs_neg] : |-(10 : ℤ) ^ k| < 2 ^ 53))
      push_cast at hle
      rw [abs_of_nonpos hneg] at hv hapart
      rw [abs_of_nonneg (by linarith : 0 ≤ v - -10 ^ k)] at hle
      linarith

/-- The decimal text of an integer, as a tree. -/
def integerText (n : ℤ) : NumberText := ⟨decide (n < 0), decimalText n.natAbs, none, none⟩

theorem integerText_text (n : ℤ) : (integerText n).text = decimalText n := by
  rcases lt_or_ge n 0 with hneg | hpos
  · rw [decimalText_neg hneg]
    simp [integerText, text, signText, fractionText, exponentText, hneg]
  · have habs : (n.natAbs : ℤ) = n := Int.natAbs_of_nonneg hpos
    simp [integerText, text, signText, fractionText, exponentText, habs, hpos]

theorem integerText_wellFormed (hn : n ≠ 0) : (integerText n).WellFormed :=
  ⟨.inr ⟨(decimalText_natCast _).digits, (decimalText_natCast _).lead (by omega)⟩, nofun, nofun⟩

theorem integerText_digits (n : ℤ) : (integerText n).digits = decimalText n.natAbs := by
  simp [integerText, NumberText.digits, fractionDigits]

theorem integerText_value (n : ℤ) : (integerText n).value = n := by
  have hvalue : digitsValue (integerText n).digits = n.natAbs := by
    rw [integerText_digits, (decimalText_natCast _).value]
  rw [value, hvalue]
  simp only [integerText, exponentValue, fractionDigits, Option.elim_none,
    Option.getD_none, length_nil, cast_zero, sub_zero, zpow_zero, mul_one, cast_natAbs]
  rcases lt_or_ge n 0 with hneg | hpos
  · rw [if_pos (by simpa using hneg), abs_of_neg hneg]
    push_cast
    ring
  · rw [if_neg (by simpa using hpos), abs_of_nonneg hpos, one_mul]

theorem decimalText_strip {n : ℕ} (hn : n ≠ 0) :
    stripLeadingZeros (decimalText n) = decimalText n := by
  obtain ⟨first, rest, hdigits, -, -⟩ := (decimalText_natCast n).digits.cons
  have hlead := (decimalText_natCast n).lead hn
  rw [hdigits] at hlead ⊢
  refine dropWhile_cons_of_neg ?_
  simpa using hlead

theorem integerText_significant (hn : n ≠ 0) :
    ∃ j, decimalText n.natAbs = (integerText n).significant ++ replicate j zero := by
  obtain ⟨j, hj⟩ := stripTrailingZeros_append (decimalText n.natAbs)
  refine ⟨j, ?_⟩
  rw [significant, integerText_digits, decimalText_strip (by omega)]
  exact hj

theorem integerText_scientificExponent (hn : n ≠ 0) :
    (integerText n).scientificExponent = ((decimalText n.natAbs).length : ℤ) - 1 := by
  rw [scientificExponent, integerText_digits, decimalText_strip (by omega)]
  simp [integerText, exponentValue]

/-- Digits with a place behind the point are below the power of ten of their number. -/
theorem abs_scientificValue_le {digits : Bytes} (h : Significant digits)
    (hk : digits.length ≤ k + 1) (negative : Bool)
    (hexponent : exponent - ((digits.length : ℤ) - 1) < 0) :
    |scientificValue negative digits exponent| ≤ (10 ^ (k + 1) - 1) / 10 := by
  have hdigits : (digitsValue digits : ℚ) ≤ 10 ^ (k + 1) - 1 := by
    have hhigh := h.range.2
    have hpow : 10 ^ digits.length ≤ 10 ^ (k + 1) := Nat.pow_le_pow_right (by omega) hk
    have hlt : digitsValue digits + 1 ≤ 10 ^ (k + 1) := by omega
    have hcast : ((digitsValue digits + 1 : ℕ) : ℚ) ≤ (10 ^ (k + 1) : ℕ) := cast_le.2 hlt
    push_cast at hcast
    linarith only [hcast]
  have hpower : (10 : ℚ) ^ (exponent - ((digits.length : ℤ) - 1)) ≤ 10 ^ (-1 : ℤ) :=
    zpow_le_zpow_right₀ (by norm_num) (by omega)
  rw [zpow_neg_one] at hpower
  have hnonneg : (0 : ℚ) ≤ digitsValue digits := cast_nonneg _
  rw [abs_scientificValue]
  calc (digitsValue digits : ℚ) * 10 ^ (exponent - ((digits.length : ℤ) - 1))
      ≤ (10 ^ (k + 1) - 1) * 10⁻¹ :=
        mul_le_mul hdigits hpower (zpow_pos (by norm_num) _).le (hnonneg.trans hdigits)
    _ = (10 ^ (k + 1) - 1) / 10 := by rw [div_eq_mul_inv]

theorem scientificValue_whole (negative : Bool) (digits : Bytes)
    (hexponent : 0 ≤ exponent - ((digits.length : ℤ) - 1)) :
    ∃ z : ℤ, scientificValue negative digits exponent = z := by
  obtain ⟨e, he⟩ := Int.eq_ofNat_of_zero_le hexponent
  refine ⟨(if negative then -1 else 1) * digitsValue digits * 10 ^ e, ?_⟩
  rw [scientificValue, he, zpow_natCast]
  push_cast
  split_ifs <;> simp

/-- A text with as few digits as an integer has that is read as the integer has its value. -/
theorem shortest_value (hreads : library.ReadsNearest) (hn : n ≠ 0) (hlt : |n| < 2 ^ 53)
    {number : NumberText} (h : number.WellFormed) (hsignificant : Significant number.significant)
    (hread : library.fromChars number.text = some (.finite n))
    (hle : number.significant.length ≤ (integerText n).significant.length) : number.value = n := by
  have hnearest := hreads.nearest number h n hread
  have howned : Significant (integerText n).significant :=
    significant_spec (integerText_wellFormed hn)
      (by rw [integerText_value]; exact_mod_cast hn)
  obtain ⟨j, hj⟩ := integerText_significant hn
  have hdecimal := congrArg digitsValue hj
  rw [(decimalText_natCast _).value, digitsValue_append, digitsValue_replicate, add_zero,
    length_replicate] at hdecimal
  have hform := number.value_eq
  have hlength := hsignificant.length_pos
  rcases le_or_gt 0 (number.scientificExponent - ((number.significant.length : ℤ) - 1)) with
    hwhole | hfraction
  · -- The value is a whole number.
    obtain ⟨z, hz⟩ := scientificValue_whole number.negative number.significant hwhole
    rw [hform, hz] at hnearest
    rw [hform, hz, whole_value hlt hnearest]
  · -- The value is below the first digit of the integer.
    exfalso
    obtain ⟨k, hk⟩ : ∃ k, (integerText n).significant.length = k + 1 :=
      ⟨_, (succ_pred_eq_of_pos howned.length_pos).symm⟩
    obtain ⟨hlow, -⟩ := howned.range
    have htens := howned.mod_ten
    rw [hk, Nat.add_sub_cancel] at hlow
    rw [hform] at hnearest
    generalize digitsValue (integerText n).significant = m at hlow htens hdecimal
    have hmul : m ≤ n.natAbs := by
      rw [hdecimal]
      exact Nat.le_mul_of_pos_right m (by positivity)
    refine fraction_value hlt (abs_scientificValue_le hsignificant (hle.trans hk.le) _ hfraction) ?_
      hnearest
    rw [Int.abs_eq_natAbs]
    split_ifs with hk0
    · exact_mod_cast hlow.trans hmul
    · have hne : m ≠ 10 ^ k := by
        rintro rfl
        obtain ⟨k', rfl⟩ : ∃ k', k = k' + 1 := ⟨k - 1, by omega⟩
        exact htens (by rw [pow_succ]; exact mul_mod_left _ _)
      have hlt' : 10 ^ k + 1 ≤ n.natAbs := by omega
      exact_mod_cast hlt'

/-- The digits of an integer below `2 ^ 53` are laid out as they stand. -/
theorem layoutNumber_integer (hn : n ≠ 0) (hlt : |n| < 2 ^ 53) :
    layoutNumber (integerText n).negative (integerText n).significant
      (integerText n).scientificExponent = decimalText n := by
  obtain ⟨j, hj⟩ := integerText_significant hn
  have hlength : 0 < (decimalText n.natAbs).length ∧ (decimalText n.natAbs).length ≤ 16 := by
    obtain ⟨first, rest, hdigits, -, -⟩ := (decimalText_natCast n.natAbs).digits.cons
    have hspec := decimalText_natCast n.natAbs
    rw [hdigits] at hspec ⊢
    have hlow := le_digitsValue hspec.digits.2 fun hzero => hspec.lead (by omega) (by rw [hzero]; rfl)
    rw [hspec.value] at hlow
    rw [abs_lt] at hlt
    refine ⟨succ_pos _, ?_⟩
    by_contra hlong
    rw [length_cons] at hlong
    have hpow : 10 ^ 16 ≤ 10 ^ rest.length := Nat.pow_le_pow_right (by omega) (by omega)
    omega
  have hsplit := congrArg List.length hj
  rw [length_append, length_replicate] at hsplit
  have htext := integerText_text n
  rw [text] at htext
  rw [integerText_scientificExponent hn, layoutNumber, if_pos (by omega)]
  rw [if_pos (by omega), ← htext, show (((decimalText n.natAbs).length : ℤ) - 1).toNat + 1 -
    (integerText n).significant.length = j by omega, append_assoc, ← hj]
  simp [integerText, signText, fractionText, exponentText]

theorem ecmascriptNumber_integer (hreads : library.ReadsNearest) (hprints : library.PrintsShortest)
    (hlt : |n| < 2 ^ 53) : ecmascriptNumber library (.finite n) = .ok (decimalText n) := by
  rcases eq_or_ne n 0 with rfl | hn
  · rfl
  have hne : (n : ℚ) ≠ 0 := by exact_mod_cast hn
  have hformed := integerText_wellFormed hn
  have hvalue' := integerText_value n
  have hown : library.fromChars (integerText n).text = some (.finite n) := by
    have hexact := hreads.exact _ hformed (by rw [hvalue']; exact isBinary64_int hlt)
      (by rwa [hvalue'])
    rwa [hvalue'] at hexact
  obtain ⟨number, h, hsignificant, hread, hshortest, hwritten⟩ :=
    ecmascriptNumber_spec hreads hprints (isBinary64_int hlt) hne
  have hvalue := shortest_value hreads hn hlt h hsignificant hread
    (hshortest _ hformed nofun hown)
  have howned : Significant (integerText n).significant :=
    significant_spec hformed (by rwa [hvalue'])
  have hforms : scientificValue number.negative number.significant number.scientificExponent =
      scientificValue (integerText n).negative (integerText n).significant
        (integerText n).scientificExponent := by
    rw [← number.value_eq, ← (integerText n).value_eq, hvalue, hvalue']
  obtain ⟨hnegative, hdigits, hexponent⟩ := scientificValue_inj hsignificant howned hforms
  rw [hwritten, hnegative, hdigits, hexponent, layoutNumber_integer hn hlt]

end AgenticCircuit.Bindings
