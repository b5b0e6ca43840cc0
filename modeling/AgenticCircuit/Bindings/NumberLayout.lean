import AgenticCircuit.Bindings.Canonical
import AgenticCircuit.Bindings.JsonText
import Mathlib.Tactic.FieldSimp
import Mathlib.Tactic.IntervalCases
import Mathlib.Tactic.Linarith

/-! # The layout of numbers

`layoutShortest` takes a number apart and `layoutNumber` writes it again.  A `NumberText` stands for
a rational number (`NumberText.value`); its significant digits and its scientific exponent say the
same (`NumberText.value_eq`), and what is written from them is a number with that value
(`layoutText`). -/

namespace AgenticCircuit.Bindings

open List NumberText Nat

abbrev zero : UInt8 := '0'.toUInt8

/-! ### Digits -/

theorem digitsValue_append (xs ys : Bytes) :
    digitsValue (xs ++ ys) = digitsValue xs * 10 ^ ys.length + digitsValue ys := by
  have hstep (ys : Bytes) (start : ℕ) :
      ys.foldl (fun value digit => 10 * value + (digit.toNat - '0'.toNat)) start =
        start * 10 ^ ys.length + digitsValue ys := by
    unfold digitsValue
    induction ys generalizing start with
    | nil => simp
    | cons y ys ih =>
      rw [foldl_cons, foldl_cons, ih, ih (10 * 0 + _), length_cons, pow_succ]
      ring
  rw [digitsValue, foldl_append, hstep]
  rfl

variable (n : ℕ) {separator digit : UInt8}

theorem digitsValue_replicate : digitsValue (replicate n zero) = 0 := by
  induction n with
  | zero => rfl
  | succ n ih =>
    rw [replicate_succ', digitsValue_append, ih]
    decide

@[simp] theorem isDigit_replicate : (replicate n zero).all isDigit = true := by
  rw [all_eq_true]
  intro digit hdigit
  rw [eq_of_mem_replicate hdigit]
  decide

theorem digit_le (h : isDigit digit = true) : 48 ≤ digit.toNat ∧ digit.toNat ≤ 57 := by
  simp only [isDigit, Bool.and_eq_true, decide_eq_true_eq] at h
  exact h

theorem digitsValue_lt {digits : Bytes} (h : digits.all isDigit = true) :
    digitsValue digits < 10 ^ digits.length := by
  induction digits using reverseRecOn with
  | nil => decide
  | append_singleton digits digit ih =>
    rw [all_append, Bool.and_eq_true] at h
    have hlast : isDigit digit = true := by simpa using h.2
    have hdigit := digit_le hlast
    have hvalue := ih h.1
    have hsingle : digitsValue [digit] = digit.toNat - 48 := by
      simp [digitsValue]
    rw [digitsValue_append, hsingle, length_append, length_singleton, pow_one, pow_succ]
    omega

theorem le_digitsValue {digits : Bytes}
    (h : (digit :: digits).all isDigit = true) (hdigit : digit ≠ zero) :
    10 ^ digits.length ≤ digitsValue (digit :: digits) := by
  rw [all_cons, Bool.and_eq_true] at h
  have hrange := digit_le h.1
  have hlead : digitsValue [digit] = digit.toNat - 48 := by
    simp [digitsValue]
  have hpos : 1 ≤ digit.toNat - 48 := by
    have : digit.toNat ≠ 48 := fun heq => hdigit (UInt8.toNat_inj.1 heq)
    omega
  rw [← singleton_append, digitsValue_append, hlead]
  have := Nat.mul_le_mul_right (10 ^ digits.length) hpos
  omega

theorem digitsValue_eq_zero {digits : Bytes} (h : digits.all isDigit = true) :
    digitsValue digits = 0 ↔ stripLeadingZeros digits = [] := by
  rw [stripLeadingZeros, dropWhile_eq_nil_iff]
  induction digits with
  | nil => simp [digitsValue]
  | cons digit digits ih =>
    rw [forall_mem_cons]
    rcases eq_or_ne digit zero with rfl | hne
    · rw [all_cons, Bool.and_eq_true] at h
      have htail : digitsValue (zero :: digits) = digitsValue digits := by
        rw [← singleton_append, digitsValue_append, show digitsValue [zero] = 0 by decide]
        omega
      rw [htail, ih h.2]
      simp
    · have hle := le_digitsValue h hne
      have hpos : 0 < 10 ^ digits.length := by positivity
      simp only [beq_iff_eq]
      constructor
      · omega
      · exact fun hzeros => absurd hzeros.1 hne

/-- The digits of a whole number. -/
structure IsDecimal (n : ℕ) (text : Bytes) : Prop where
  digits : Digits text
  value : digitsValue text = n
  lead : n ≠ 0 → text.head? ≠ some zero

theorem digitChar_encode {d : ℕ} (h : d < 10) :
    String.utf8EncodeChar d.digitChar = [(48 + d).toUInt8] := by
  interval_cases d <;> decide

theorem isDecimal_toDigits : IsDecimal n ((toDigits 10 n).flatMap String.utf8EncodeChar) := by
  have hone {d : ℕ} (h : d < 10) : isDigit (48 + d).toUInt8 = true ∧
      digitsValue [(48 + d).toUInt8] = d ∧ (d ≠ 0 → (48 + d).toUInt8 ≠ zero) := by
    interval_cases d <;> decide
  induction n using Nat.strongRecOn with
  | ind n ih =>
    rcases Nat.lt_or_ge n 10 with hlt | hge
    · obtain ⟨hdigit, hvalue, hzero⟩ := hone hlt
      rw [toDigits_of_lt_base hlt, flatMap_singleton, digitChar_encode hlt]
      exact ⟨⟨by simp, by rw [all_cons, hdigit]; rfl⟩, hvalue, fun hn => by simpa using hzero hn⟩
    · obtain ⟨hdigits, hvalue, hlead⟩ := ih (n / 10) (by omega)
      obtain ⟨hdigit, hlast, -⟩ := hone (mod_lt n (by omega : 10 > 0))
      rw [toDigits_of_base_le (by omega) hge, flatMap_append, flatMap_singleton,
        digitChar_encode (mod_lt n (by omega))]
      refine ⟨⟨by simp, ?_⟩, ?_, fun _ => ?_⟩
      · rw [all_append, hdigits.2, all_cons, hdigit]
        rfl
      · rw [digitsValue_append, hvalue, hlast, length_singleton]
        omega
      · rw [head?_append_of_ne_nil _ hdigits.1]
        exact hlead (by omega)

theorem decimalText_natCast : IsDecimal n (decimalText n) := by
  have htext : decimalText n = (toDigits 10 n).flatMap String.utf8EncodeChar := by
    rw [decimalText, utf8, Int.toString_eq_repr]
    change (Nat.repr n).toList.flatMap _ = _
    rw [toList_repr]
  rw [htext]
  exact isDecimal_toDigits n

theorem decimalText_neg {n : ℤ} (h : n < 0) :
    decimalText n = '-'.toUInt8 :: decimalText n.natAbs := by
  obtain ⟨m, rfl⟩ := Int.eq_negSucc_of_lt_zero h
  rw [decimalText, decimalText, utf8, utf8, Int.toString_eq_repr, Int.toString_eq_repr]
  change (String.append "-" (Nat.repr (m + 1))).toList.flatMap _ =
    _ :: (Nat.repr (m + 1)).toList.flatMap _
  rw [show String.append "-" (Nat.repr (m + 1)) = "-" ++ Nat.repr (m + 1) from rfl,
    String.toList_append, flatMap_append]
  rfl

/-! ### The value of a number -/

namespace NumberText

def fractionDigits (number : NumberText) : Bytes := number.fraction.getD []

def digits (number : NumberText) : Bytes := number.integer ++ number.fractionDigits

def exponentValue (number : NumberText) : ℤ :=
  number.exponent.elim 0 fun exponent =>
    if '-'.toUInt8 ∈ exponent.1 then -digitsValue exponent.2 else digitsValue exponent.2

/-- The number that the text stands for. -/
def value (number : NumberText) : ℚ :=
  (if number.negative then -1 else 1) * digitsValue number.digits *
    10 ^ (number.exponentValue - number.fractionDigits.length)

/-- The digits without the zeros at both ends. -/
def significant (number : NumberText) : Bytes :=
  stripTrailingZeros (stripLeadingZeros number.digits)

/-- The power of ten of the first significant digit. -/
def scientificExponent (number : NumberText) : ℤ :=
  number.exponentValue + number.integer.length -
    (number.digits.length - (stripLeadingZeros number.digits).length) - 1

variable {number : NumberText}

theorem WellFormed.digits (h : number.WellFormed) : number.digits.all isDigit = true := by
  have hinteger : number.integer.all isDigit = true := by
    rcases h.integer with hzero | ⟨hdigits, -⟩
    · rw [hzero]
      decide
    · exact hdigits.2
  rw [NumberText.digits, all_append, hinteger, Bool.true_and, fractionDigits]
  cases hfraction : number.fraction with
  | none => rfl
  | some digits => exact (h.fraction digits hfraction).2

end NumberText

/-- A number in scientific form: the digits have no zero at either end. -/
structure Significant (text : Bytes) : Prop where
  digits : Digits text
  first : text.head? ≠ some zero
  last : text.getLast? ≠ some zero

/-- What digits stand for, the first of them before the point. -/
def scientificValue (negative : Bool) (digits : Bytes) (exponent : ℤ) : ℚ :=
  (if negative then -1 else 1) * digitsValue digits * 10 ^ (exponent - (digits.length - 1))

theorem stripTrailingZeros_append (digits : Bytes) :
    ∃ n, digits = stripTrailingZeros digits ++ replicate n zero := by
  refine ⟨(digits.rtakeWhile (· == zero)).length, ?_⟩
  have hzeros : digits.rtakeWhile (· == zero) =
      replicate (digits.rtakeWhile (· == zero)).length zero := by
    refine eq_replicate_of_mem fun digit hdigit => ?_
    simpa using mem_rtakeWhile_imp hdigit
  rw [← hzeros]
  exact (rdropWhile_append_rtakeWhile ..).symm

theorem stripLeadingZeros_append (digits : Bytes) :
    ∃ n, digits = replicate n zero ++ stripLeadingZeros digits := by
  refine ⟨(digits.takeWhile (· == zero)).length, ?_⟩
  have hzeros : digits.takeWhile (· == zero) =
      replicate (digits.takeWhile (· == zero)).length zero := by
    refine eq_replicate_of_mem fun digit hdigit => ?_
    simpa using mem_takeWhile_imp hdigit
  rw [← hzeros]
  exact (takeWhile_append_dropWhile ..).symm

theorem significant_strip {digits : Bytes} (h : digits.all isDigit = true)
    (hne : stripLeadingZeros digits ≠ []) :
    Significant (stripTrailingZeros (stripLeadingZeros digits)) := by
  obtain ⟨n, hleading⟩ := stripLeadingZeros_append digits
  have hfirst : (stripLeadingZeros digits).head? ≠ some zero := by
    intro hzero
    obtain ⟨rest, hrest⟩ := head?_eq_some_iff.1 hzero
    have hstop := head?_dropWhile_not (· == zero) digits
    rw [show digits.dropWhile (· == zero) = stripLeadingZeros digits from rfl, hzero] at hstop
    simp at hstop
  have hall : (stripLeadingZeros digits).all isDigit = true := by
    rw [hleading, all_append, Bool.and_eq_true] at h
    exact h.2
  generalize stripLeadingZeros digits = leading at hne hfirst hall ⊢
  obtain ⟨m, htrailing⟩ := stripTrailingZeros_append leading
  have hne' : stripTrailingZeros leading ≠ [] := by
    intro hnil
    rw [hnil, nil_append] at htrailing
    rw [htrailing] at hne hfirst
    cases m with
    | zero => exact hne rfl
    | succ m => exact hfirst rfl
  refine ⟨⟨hne', ?_⟩, ?_, ?_⟩
  · rw [htrailing, all_append, Bool.and_eq_true] at hall
    exact hall.1
  · rw [htrailing, head?_append_of_ne_nil _ hne'] at hfirst
    exact hfirst
  · intro hlast
    have hstop := rdropWhile_last_not (· == zero) leading hne'
    rw [getLast?_eq_some_getLast hne', Option.some_inj] at hlast
    exact hstop (beq_iff_eq.2 hlast)

namespace NumberText

variable {number : NumberText}

theorem significant_nil (h : number.WellFormed) :
    stripLeadingZeros number.digits = [] ↔ number.value = 0 := by
  rw [← digitsValue_eq_zero h.digits, value]
  have hpower : (10 : ℚ) ^ (number.exponentValue - number.fractionDigits.length) ≠ 0 :=
    zpow_ne_zero _ (by norm_num)
  split_ifs <;> simp [hpower]

theorem value_eq (number : NumberText) :
    number.value = scientificValue number.negative number.significant number.scientificExponent := by
  obtain ⟨n, hleading⟩ := stripLeadingZeros_append number.digits
  obtain ⟨m, htrailing⟩ := stripTrailingZeros_append (stripLeadingZeros number.digits)
  have hvalue : digitsValue number.digits = digitsValue number.significant * 10 ^ m := by
    rw [hleading, digitsValue_append, digitsValue_replicate, Nat.zero_mul, Nat.zero_add, htrailing,
      digitsValue_append, digitsValue_replicate, length_replicate, Nat.add_zero]
    rfl
  have hlead : number.digits.length = n + (stripLeadingZeros number.digits).length := by
    conv_lhs => rw [hleading]
    simp
  have hlength : (stripLeadingZeros number.digits).length = number.significant.length + m := by
    conv_lhs => rw [htrailing]
    simp [significant]
  have hdigits : number.digits.length = number.integer.length + number.fractionDigits.length := by
    rw [digits, length_append]
  have hexponent : number.scientificExponent - (number.significant.length - 1) =
      number.exponentValue - number.fractionDigits.length + m := by
    rw [scientificExponent]
    omega
  rw [value, scientificValue, hexponent, hvalue, zpow_add₀ (by norm_num)]
  push_cast
  rw [zpow_natCast]
  ring

/-! ### Taking a number apart -/

/-- The exponent is an `int`. -/
def ExponentFits (number : NumberText) : Prop :=
  ∀ exponent ∈ number.exponent, digitsValue exponent.2 < 2 ^ 31

instance (number : NumberText) : Decidable number.ExponentFits := by
  unfold ExponentFits
  infer_instance

end NumberText

theorem splitAt_mem {xs ys : Bytes} (h : separator ∉ xs) :
    splitAt separator (xs ++ separator :: ys) = (xs, ys) := by
  have hall : ∀ x ∈ xs, decide (x ≠ separator) = true := by
    intro x hx
    simp only [decide_eq_true_eq]
    rintro rfl
    exact h hx
  unfold splitAt
  rw [takeWhile_append_of_pos hall, dropWhile_append_of_pos hall]
  simp

theorem splitAt_not_mem {xs : Bytes} (h : separator ∉ xs) : splitAt separator xs = (xs, []) := by
  have hall : ∀ x ∈ xs, decide (x ≠ separator) = true := by
    intro x hx
    simp only [decide_eq_true_eq]
    rintro rfl
    exact h hx
  unfold splitAt
  rw [takeWhile_eq_self_iff.2 hall, dropWhile_eq_nil_iff.2 hall]
  rfl

theorem consumeFront_ne {byte first : UInt8} {rest : Bytes} (h : first ≠ byte) :
    consumeFront byte (first :: rest) = (false, first :: rest) := if_neg h

theorem consumeFront_eq (byte : UInt8) (rest : Bytes) :
    consumeFront byte (byte :: rest) = (true, rest) := if_pos rfl

theorem getAsInteger_digits {digits : Bytes} (h : Digits digits) :
    getAsInteger digits = if digitsValue digits < 2 ^ 31 then some ↑(digitsValue digits) else none := by
  obtain ⟨b, rest, rfl, hb, -⟩ := h.cons
  have hminus : b ≠ '-'.toUInt8 := by
    rintro rfl
    exact absurd hb (by decide)
  unfold getAsInteger
  rw [consumeFront_ne hminus]
  simp only [Bool.false_eq_true, if_false]
  generalize digitsValue (b :: rest) = value
  split_ifs with hint hfits hfits
  · rfl
  · omega
  · exact absurd ⟨h.1, h.2, by omega, by omega⟩ hint
  · rfl

theorem consumeFront_sign {mark digits : Bytes} (hmark : mark ∈ exponentMarks) (h : Digits digits) :
    ∃ unsigned, consumeFront '-'.toUInt8 (mark.drop 1 ++ digits) =
        (decide ('-'.toUInt8 ∈ mark), unsigned) ∧
      (consumeFront '+'.toUInt8 unsigned).2 = digits := by
  obtain ⟨b, rest, rfl, hb, -⟩ := h.cons
  have hminus : b ≠ '-'.toUInt8 := by
    rintro rfl
    exact absurd hb (by decide)
  have hplus : b ≠ '+'.toUInt8 := by
    rintro rfl
    exact absurd hb (by decide)
  have hnone : (consumeFront '+'.toUInt8 (b :: rest)).2 = b :: rest := by
    rw [consumeFront_ne hplus]
  simp only [exponentMarks, mem_cons, not_mem_nil, or_false] at hmark
  rcases hmark with rfl | rfl | rfl | rfl | rfl | rfl
  · exact ⟨b :: rest, consumeFront_ne hminus, hnone⟩
  · exact ⟨b :: rest, consumeFront_ne hminus, hnone⟩
  · exact ⟨'+'.toUInt8 :: b :: rest, consumeFront_ne (by decide), by rw [consumeFront_eq]⟩
  · exact ⟨b :: rest, consumeFront_eq _ _, hnone⟩
  · exact ⟨'+'.toUInt8 :: b :: rest, consumeFront_ne (by decide), by rw [consumeFront_eq]⟩
  · exact ⟨b :: rest, consumeFront_eq _ _, hnone⟩

/-- The exponent behind its letter. -/
theorem explicitExponent_sign {mark digits : Bytes} (hmark : mark ∈ exponentMarks)
    (h : Digits digits) : explicitExponent (mark.drop 1 ++ digits) =
      if digitsValue digits < 2 ^ 31 then
        .ok (if '-'.toUInt8 ∈ mark then -(digitsValue digits : ℤ) else digitsValue digits)
      else jsonError "binary64 exponent conversion failed" := by
  obtain ⟨unsigned, hsign, hdigits⟩ := consumeFront_sign hmark h
  unfold explicitExponent
  rw [if_neg (by simp [h.1]), hsign]
  simp only [hdigits, getAsInteger_digits h, decide_eq_true_eq]
  by_cases hfits : digitsValue digits < 2 ^ 31
  · rw [if_pos hfits, if_pos hfits]
  · rw [if_neg hfits, if_neg hfits]

namespace NumberText

variable {number : NumberText}

theorem WellFormed.isDigit_integer (h : number.WellFormed) : number.integer.all isDigit = true := by
  have hdigits := h.digits
  rw [NumberText.digits, all_append, Bool.and_eq_true] at hdigits
  exact hdigits.1

theorem WellFormed.isDigit_fraction (h : number.WellFormed) :
    number.fractionDigits.all isDigit = true := by
  have hdigits := h.digits
  rw [NumberText.digits, all_append, Bool.and_eq_true] at hdigits
  exact hdigits.2

theorem not_mem_digits (byte : UInt8) {digits : Bytes} (hbyte : isDigit byte = false)
    (h : digits.all isDigit = true) : byte ∉ digits := by
  intro hmem
  rw [all_eq_true] at h
  rw [h byte hmem] at hbyte
  cases hbyte

theorem fractionText_mem (byte : UInt8) (h : number.WellFormed) (hbyte : isDigit byte = false)
    (hpoint : byte ≠ '.'.toUInt8) : byte ∉ number.integer ++ number.fractionText := by
  have hinteger := not_mem_digits byte hbyte h.isDigit_integer
  have hfraction := not_mem_digits byte hbyte h.isDigit_fraction
  rw [mem_append, fractionText]
  rw [fractionDigits] at hfraction
  cases hcase : number.fraction with
  | none => simpa using hinteger
  | some digits =>
    rw [hcase] at hfraction
    simpa [hpoint, hinteger] using hfraction

section

variable (h : number.WellFormed)

include h

/-- The mantissa and the exponent. -/
theorem split_exponent :
    (let magnitude := number.integer ++ (number.fractionText ++ number.exponentText)
      let lower := splitAt 'e'.toUInt8 magnitude
      if lower.2 = [] then splitAt 'E'.toUInt8 magnitude else lower) =
      (number.integer ++ number.fractionText,
        number.exponent.elim [] fun exponent => exponent.1.drop 1 ++ exponent.2) := by
  have hlower := fractionText_mem 'e'.toUInt8 h (by decide) (by decide)
  have hupper := fractionText_mem 'E'.toUInt8 h (by decide) (by decide)
  simp only [← append_assoc]
  cases hexponent : number.exponent with
  | none =>
    simp only [exponentText, hexponent, Option.elim, append_nil]
    rw [splitAt_not_mem hlower, splitAt_not_mem hupper]
    rfl
  | some exponent =>
    obtain ⟨mark, digits⟩ := exponent
    obtain ⟨hmark, hdigits⟩ := h.exponent _ hexponent
    simp only [exponentText, hexponent, Option.elim]
    have hletter : (∃ sign, mark = 'e'.toUInt8 :: sign) ∨
        ∃ sign, mark = 'E'.toUInt8 :: sign ∧ 'e'.toUInt8 ∉ sign := by
      simp only [exponentMarks, mem_cons, not_mem_nil, or_false] at hmark
      rcases hmark with rfl | rfl | rfl | rfl | rfl | rfl
      · exact .inl ⟨_, rfl⟩
      · exact .inr ⟨_, rfl, by decide⟩
      · exact .inl ⟨_, rfl⟩
      · exact .inl ⟨_, rfl⟩
      · exact .inr ⟨_, rfl, by decide⟩
      · exact .inr ⟨_, rfl, by decide⟩
    rcases hletter with ⟨sign, rfl⟩ | ⟨sign, rfl, hsign⟩
    · rw [cons_append, splitAt_mem hlower, if_neg (by simp [hdigits.1])]
      rfl
    · have hdigit := not_mem_digits 'e'.toUInt8 (by decide) hdigits.2
      have hnone : 'e'.toUInt8 ∉
          number.integer ++ number.fractionText ++ 'E'.toUInt8 :: (sign ++ digits) := by
        intro hmem
        rcases mem_append.1 hmem with hmem | hmem
        · exact hlower hmem
        · rcases mem_cons.1 hmem with heq | hmem
          · exact absurd heq (by decide)
          · exact (mem_append.1 hmem).elim hsign hdigit
      rw [cons_append, splitAt_not_mem hnone, if_pos rfl, splitAt_mem hupper]
      rfl

theorem takeWhile_point :
    (number.integer ++ number.fractionText).takeWhile (· ≠ '.'.toUInt8) = number.integer := by
  have hpoint := not_mem_digits '.'.toUInt8 (by decide) h.isDigit_integer
  have hall : ∀ x ∈ number.integer, decide (x ≠ '.'.toUInt8) = true := by
    intro x hx
    simp only [decide_eq_true_eq]
    rintro rfl
    exact hpoint hx
  rw [takeWhile_append_of_pos hall, fractionText]
  cases number.fraction <;> simp

theorem filter_point :
    (number.integer ++ number.fractionText).filter (· ≠ '.'.toUInt8) = number.digits := by
  have hkeep {digits : Bytes} (hdigits : digits.all isDigit = true) :
      digits.filter (· ≠ '.'.toUInt8) = digits := by
    refine filter_eq_self.2 fun x hx => ?_
    simp only [decide_eq_true_eq]
    rintro rfl
    exact not_mem_digits _ (by decide) hdigits hx
  have hfraction := h.isDigit_fraction
  rw [filter_append, hkeep h.isDigit_integer, digits, fractionText]
  rw [fractionDigits] at hfraction ⊢
  cases hcase : number.fraction with
  | none => rfl
  | some digits =>
    rw [hcase] at hfraction
    exact congrArg _ (hkeep hfraction)

theorem consumeFront_text : consumeFront '-'.toUInt8 number.text =
    (number.negative, number.integer ++ (number.fractionText ++ number.exponentText)) := by
  obtain ⟨b, rest, hinteger, hb⟩ := integer_cons h
  have hminus : b ≠ '-'.toUInt8 := by
    rintro rfl
    exact absurd hb (by decide)
  rw [text, signText]
  cases number.negative with
  | true => exact consumeFront_eq _ _
  | false =>
    rw [hinteger]
    exact consumeFront_ne hminus

theorem layoutShortest_text : layoutShortest number.text =
      if number.ExponentFits then
        if number.value = 0 then .ok (utf8 "0")
        else .ok (layoutNumber number.negative number.significant number.scientificExponent)
      else jsonError "binary64 exponent conversion failed" := by
  have hexponent : explicitExponent
      (number.exponent.elim [] fun exponent => exponent.1.drop 1 ++ exponent.2) =
      if number.ExponentFits then .ok number.exponentValue
      else jsonError "binary64 exponent conversion failed" := by
    cases hcase : number.exponent with
    | none =>
      have hfits : number.ExponentFits := by simp [ExponentFits, hcase]
      rw [if_pos hfits, exponentValue, hcase]
      rfl
    | some exponent =>
      obtain ⟨hmark, hdigits⟩ := h.exponent _ hcase
      have hfits : number.ExponentFits ↔ digitsValue exponent.2 < 2 ^ 31 := by
        simp [ExponentFits, hcase]
      simp only [hfits, exponentValue, hcase]
      exact explicitExponent_sign hmark hdigits
  have hsplit := split_exponent h
  unfold layoutShortest
  rw [consumeFront_text h]
  simp only []
  rw [hsplit]
  rw [hexponent, takeWhile_point h, filter_point h]
  have hzero := significant_nil h
  by_cases hfits : number.ExponentFits
  · rw [if_pos hfits, if_pos hfits, ok_bind]
    by_cases hvalue : number.value = 0
    · rw [if_pos hvalue, if_pos (hzero.2 hvalue)]
      rfl
    · rw [if_neg hvalue, if_neg fun hnil => hvalue (hzero.1 hnil), scientificExponent, significant]
      have hle : (stripLeadingZeros number.digits).length ≤ number.digits.length :=
        (dropWhile_suffix _).length_le
      rw [cast_sub hle]
      rfl
  · rw [if_neg hfits, if_neg hfits]
    rfl

end

end NumberText

/-! ### Writing a number -/

/-- What `layoutNumber` writes, as a tree. -/
def layoutText (negative : Bool) (digits : Bytes) (exponent : ℤ) : NumberText :=
  if 0 ≤ exponent ∧ exponent < 21 then
    let integerDigits := exponent.toNat + 1
    if digits.length ≤ integerDigits then
      ⟨negative, digits ++ replicate (integerDigits - digits.length) zero, none, none⟩
    else ⟨negative, digits.take integerDigits, some (digits.drop integerDigits), none⟩
  else if -6 ≤ exponent ∧ exponent < 0 then
    ⟨negative, [zero], some (replicate (-exponent - 1).toNat zero ++ digits), none⟩
  else
    ⟨negative, digits.take 1, if 1 < digits.length then some (digits.drop 1) else none,
      some (if 0 ≤ exponent then utf8 "e+" else utf8 "e-", decimalText exponent.natAbs)⟩

theorem exponentSign_decimalText (exponent : ℤ) :
    (if 0 ≤ exponent then ['+'.toUInt8] else []) ++ decimalText exponent =
      (if 0 ≤ exponent then ['+'.toUInt8] else ['-'.toUInt8]) ++ decimalText exponent.natAbs := by
  rcases lt_or_ge exponent 0 with hneg | hpos
  · rw [if_neg (by omega), if_neg (by omega), decimalText_neg hneg]
    rfl
  · rw [Int.natAbs_of_nonneg hpos]
    simp [hpos]

theorem layoutText_text (negative : Bool) (digits : Bytes) (exponent : ℤ) :
    (layoutText negative digits exponent).text = layoutNumber negative digits exponent := by
  unfold layoutText layoutNumber
  by_cases hfixed : 0 ≤ exponent ∧ exponent < 21
  · rw [if_pos hfixed, if_pos hfixed]
    by_cases hlength : digits.length ≤ exponent.toNat + 1
    · rw [if_pos hlength, if_pos hlength]
      simp [text, signText, fractionText, exponentText]
    · rw [if_neg hlength, if_neg hlength]
      simp [text, signText, fractionText, exponentText]
  · rw [if_neg hfixed, if_neg hfixed]
    by_cases hsmall : -6 ≤ exponent ∧ exponent < 0
    · rw [if_pos hsmall, if_pos hsmall]
      simp only [text, exponentText, Option.elim, append_nil, append_assoc]
      rfl
    · rw [if_neg hsmall, if_neg hsmall]
      have hmark : (if 0 ≤ exponent then utf8 "e+" else utf8 "e-") =
          'e'.toUInt8 :: if 0 ≤ exponent then ['+'.toUInt8] else ['-'.toUInt8] := by
        split_ifs <;> rfl
      have hfraction : (if 1 < digits.length then some (digits.drop 1) else none).elim []
          (fun digits => '.'.toUInt8 :: digits) =
          if 1 < digits.length then ['.'.toUInt8] ++ digits.drop 1 else [] := by
        split_ifs <;> rfl
      simp only [text, signText, fractionText,
        exponentText, Option.elim_some, hmark, hfraction, append_assoc,
        exponentSign_decimalText, cons_append, nil_append]

theorem layoutText_wellFormed {digits : Bytes} (h : Significant digits) (negative : Bool)
    (exponent : ℤ) : (layoutText negative digits exponent).WellFormed := by
  obtain ⟨first, rest, hdigits, hfirst, hrest⟩ := h.digits.cons
  have hall : digits.all isDigit = true := h.digits.2
  have htake (n : ℕ) : Digits (digits.take (n + 1)) ∧
      (digits.take (n + 1)).head? ≠ some zero := by
    refine ⟨⟨by simp [hdigits], ?_⟩, ?_⟩
    · rw [all_eq_true] at hall ⊢
      exact fun digit hdigit => hall digit (mem_of_mem_take hdigit)
    · have := h.first
      rw [hdigits] at this ⊢
      simpa using this
  have hdrop {n : ℕ} (hn : n < digits.length) : Digits (digits.drop n) := by
    refine ⟨by simpa using hn, ?_⟩
    rw [all_eq_true] at hall ⊢
    exact fun digit hdigit => hall digit (mem_of_mem_drop hdigit)
  unfold layoutText
  by_cases hfixed : 0 ≤ exponent ∧ exponent < 21
  · rw [if_pos hfixed]
    by_cases hlength : digits.length ≤ exponent.toNat + 1
    · rw [if_pos hlength]
      refine ⟨.inr ⟨⟨by simp [h.digits.1], ?_⟩, ?_⟩, nofun, nofun⟩
      · rw [all_append, hall, isDigit_replicate, Bool.and_self]
      · rw [head?_append_of_ne_nil _ h.digits.1]
        exact h.first
    · rw [if_neg hlength]
      refine ⟨.inr (htake _), ?_, nofun⟩
      intro fraction hfraction
      rw [← Option.some.inj hfraction]
      exact hdrop (by omega)
  · rw [if_neg hfixed]
    by_cases hsmall : -6 ≤ exponent ∧ exponent < 0
    · rw [if_pos hsmall]
      refine ⟨.inl rfl, ?_, nofun⟩
      intro fraction hfraction
      rw [← Option.some.inj hfraction]
      refine ⟨by simp [h.digits.1], ?_⟩
      rw [all_append, hall, isDigit_replicate, Bool.and_self]
    · rw [if_neg hsmall]
      refine ⟨.inr (htake 0), ?_, ?_⟩
      · intro fraction hfraction
        rw [Option.mem_def, Option.ite_none_right_eq_some] at hfraction
        rw [← Option.some.inj hfraction.2]
        exact hdrop hfraction.1
      · intro exponent' hexponent
        rw [← Option.some.inj hexponent]
        refine ⟨?_, (decimalText_natCast _).digits⟩
        simp only []
        split_ifs <;> decide

/-- What is written stands for the number that it is written for. -/
theorem layoutText_value {digits : Bytes} (h : digits ≠ []) (negative : Bool) (exponent : ℤ) :
    (layoutText negative digits exponent).value = scientificValue negative digits exponent := by
  have hpos : 0 < digits.length := length_pos_iff.2 h
  have hsame (n : ℕ) : digitsValue (digits.take n ++ digits.drop n) = digitsValue digits := by
    rw [take_append_drop]
  unfold layoutText scientificValue
  by_cases hfixed : 0 ≤ exponent ∧ exponent < 21
  · rw [if_pos hfixed]
    by_cases hlength : digits.length ≤ exponent.toNat + 1
    · rw [if_pos hlength]
      have hexponent : exponent - (digits.length - 1) =
          ((exponent.toNat + 1 - digits.length : ℕ) : ℤ) := by
        omega
      simp only [NumberText.value, NumberText.digits, NumberText.fractionDigits,
        NumberText.exponentValue, Option.getD_none, append_nil, Option.elim_none]
      rw [digitsValue_append, digitsValue_replicate, length_replicate, hexponent, zpow_natCast]
      simp only [length_nil]
      push_cast
      ring
    · rw [if_neg hlength]
      simp only [NumberText.value, NumberText.digits, NumberText.fractionDigits,
        NumberText.exponentValue, Option.getD_some, Option.elim_none, hsame]
      congr 2
      rw [length_drop]
      omega
  · rw [if_neg hfixed]
    by_cases hsmall : -6 ≤ exponent ∧ exponent < 0
    · rw [if_pos hsmall]
      have hzeros : digitsValue ([zero] ++ (replicate (-exponent - 1).toNat zero ++ digits)) =
          digitsValue digits := by
        rw [← append_assoc, digitsValue_append, singleton_append, ← replicate_succ,
          digitsValue_replicate]
        omega
      simp only [NumberText.value, NumberText.digits, NumberText.fractionDigits,
        NumberText.exponentValue, Option.getD_some, Option.elim_none, hzeros]
      congr 2
      rw [length_append, length_replicate]
      omega
    · rw [if_neg hsmall]
      have hfraction : (if 1 < digits.length then some (digits.drop 1) else none).getD [] =
          digits.drop 1 := by
        split_ifs with hlong
        · rfl
        · rw [drop_of_length_le (by omega)]
          rfl
      have hexponent : (if '-'.toUInt8 ∈ (if 0 ≤ exponent then utf8 "e+" else utf8 "e-") then
          -(digitsValue (decimalText exponent.natAbs) : ℤ)
          else digitsValue (decimalText exponent.natAbs)) = exponent := by
        rw [(decimalText_natCast _).value]
        split_ifs with hsign hmem hmem
        · exact absurd hmem (by decide)
        · omega
        · omega
        · exact absurd (by decide) hmem
      simp only [NumberText.value, NumberText.digits, NumberText.fractionDigits,
        NumberText.exponentValue, hfraction, Option.elim_some, hsame]
      congr 2
      rw [length_drop]
      omega

end AgenticCircuit.Bindings
