import AgenticCircuit.Bindings.IntegerPrinting
import AgenticCircuit.Frontend.CanonicalJson

/-! # Floats in both canonical encoders

`layoutRepr` takes a number text apart as `layoutShortest` does and writes the same layout.  Where
`repr` and `std::to_chars` give texts with the same digits and exponent, both sides write the same
bytes (`encodeFloat_agrees`). -/

namespace AgenticCircuit.Frontend

open Bindings NumberText

variable {number : NumberText}

theorem layoutFloat_eq (negative : Bool) (digits : Bytes) (exponent : ℤ) :
    layoutFloat negative digits exponent = layoutNumber negative digits exponent := by
  unfold layoutFloat layoutNumber
  by_cases hfixed : 0 ≤ exponent ∧ exponent < 21
  · rw [if_pos hfixed, if_pos hfixed, show (exponent + 1).toNat = exponent.toNat + 1 by omega]
    rfl
  · rw [if_neg hfixed, if_neg hfixed]
    by_cases hsmall : -6 ≤ exponent ∧ exponent < 0
    · rw [if_pos hsmall, if_pos hsmall]
      rfl
    · rw [if_neg hsmall, if_neg hsmall]
      have hmantissa : (if 1 < digits.length then digits.take 1 ++ (utf8 "." ++ digits.drop 1)
          else digits.take 1) =
          digits.take 1 ++ if 1 < digits.length then ['.'.toUInt8] ++ digits.drop 1 else [] := by
        split_ifs
        · rfl
        · rw [List.append_nil]
      rw [hmantissa]
      simp only [List.append_assoc]
      rfl

theorem findIdx?_zeros (digits : Bytes) : digits.findIdx? (· ≠ '0'.toUInt8) =
        (if stripLeadingZeros digits = [] then none
        else some (digits.length - (stripLeadingZeros digits).length)) ∧
      digits.drop (digits.length - (stripLeadingZeros digits).length) =
        stripLeadingZeros digits := by
  induction digits with
  | nil => exact ⟨rfl, rfl⟩
  | cons digit digits ih =>
    obtain ⟨hfind, hdrop⟩ := ih
    have hle : (stripLeadingZeros digits).length ≤ digits.length :=
      (List.dropWhile_suffix _).length_le
    rw [List.findIdx?_cons]
    by_cases hzero : digit = zero
    · have hstrip : stripLeadingZeros (digit :: digits) = stripLeadingZeros digits :=
        List.dropWhile_cons_of_pos (by simpa using hzero)
      rw [hstrip, if_neg (by simpa using hzero), hfind, List.length_cons,
        show digits.length + 1 - (stripLeadingZeros digits).length =
          digits.length - (stripLeadingZeros digits).length + 1 by omega, List.drop_succ_cons]
      refine ⟨?_, hdrop⟩
      split_ifs <;> rfl
    · have hstrip : stripLeadingZeros (digit :: digits) = digit :: digits :=
        List.dropWhile_cons_of_neg (by simpa using hzero)
      rw [hstrip, if_pos (by simpa using hzero), Nat.sub_self, if_neg (by simp)]
      exact ⟨rfl, rfl⟩

/-- A number with its exponent behind a small letter, as `repr` writes it. -/
def LowerCase (number : NumberText) : Prop :=
  ∀ exponent ∈ number.exponent, 'E'.toUInt8 ∉ exponent.1

theorem lower_text (h : number.WellFormed) (hlower : LowerCase number) :
    lower number.text = number.text := by
  have hdigits {digits : Bytes} (hall : digits.all isDigit = true) (byte : UInt8)
      (hbyte : byte ∈ digits) : ¬ ('A'.toUInt8 ≤ byte ∧ byte ≤ 'Z'.toUInt8) := by
    have hrange := digit_le (List.all_eq_true.1 hall byte hbyte)
    rw [UInt8.le_iff_toNat_le]
    have : 'A'.toUInt8.toNat = 65 := rfl
    omega
  have hall : ∀ byte ∈ number.text, ¬ ('A'.toUInt8 ≤ byte ∧ byte ≤ 'Z'.toUInt8) := by
    intro byte hbyte
    simp only [text, List.mem_append] at hbyte
    rcases hbyte with hsign | hinteger | hfraction | hexponent
    · rw [signText] at hsign
      split_ifs at hsign
      · rw [List.mem_singleton.1 hsign]
        decide
      · cases hsign
    · exact hdigits h.isDigit_integer byte hinteger
    · rw [fractionText] at hfraction
      cases hcase : number.fraction with
      | none =>
        rw [hcase] at hfraction
        cases hfraction
      | some digits =>
        rw [hcase] at hfraction
        rcases List.mem_cons.1 hfraction with rfl | hmem
        · decide
        · exact hdigits (h.fraction digits hcase).2 byte hmem
    · rw [exponentText] at hexponent
      cases hcase : number.exponent with
      | none =>
        rw [hcase] at hexponent
        cases hexponent
      | some exponent =>
        rw [hcase] at hexponent
        obtain ⟨hmark, hall⟩ := h.exponent exponent hcase
        rcases List.mem_append.1 hexponent with hmem | hmem
        · have hmarks : ∀ mark ∈ exponentMarks, 'E'.toUInt8 ∉ mark →
              ∀ byte ∈ mark, ¬ ('A'.toUInt8 ≤ byte ∧ byte ≤ 'Z'.toUInt8) := by
            decide +kernel
          exact hmarks _ hmark (hlower exponent hcase) byte hmem
        · exact hdigits hall.2 byte hmem
  exact (List.map_congr_left fun byte hbyte => if_neg (hall byte hbyte)).trans (List.map_id' _)

/-- Taking the exponent off a number with a small letter. -/
theorem split_lowerCase (h : number.WellFormed) (hlower : LowerCase number) :
    let magnitude := number.integer ++ (number.fractionText ++ number.exponentText)
    splitAt 'e'.toUInt8 magnitude = (number.integer ++ number.fractionText,
        number.exponent.elim [] fun exponent => exponent.1.drop 1 ++ exponent.2) ∧
      ('e'.toUInt8 ∈ magnitude ↔ number.exponent.isSome = true) := by
  have hletter := fractionText_mem 'e'.toUInt8 h (by decide) (by decide)
  simp only [← List.append_assoc]
  cases hcase : number.exponent with
  | none =>
    simp only [exponentText, hcase, Option.elim_none, List.append_nil]
    exact ⟨splitAt_not_mem hletter, by simpa using hletter⟩
  | some exponent =>
    obtain ⟨mark, digits⟩ := exponent
    obtain ⟨hmark, -⟩ := h.exponent _ hcase
    obtain ⟨sign, rfl⟩ : ∃ sign, mark = 'e'.toUInt8 :: sign := by
      have hsmall : 'E'.toUInt8 ∉ mark := hlower _ hcase
      simp only [exponentMarks, List.mem_cons, List.not_mem_nil, or_false] at hmark
      rcases hmark with rfl | rfl | rfl | rfl | rfl | rfl
      · exact ⟨_, rfl⟩
      · exact absurd hsmall (by decide)
      · exact ⟨_, rfl⟩
      · exact ⟨_, rfl⟩
      · exact absurd hsmall (by decide)
      · exact absurd hsmall (by decide)
    simp only [exponentText, hcase]
    exact ⟨splitAt_mem hletter, by simp⟩

theorem parseInt_sign {mark digits : Bytes} (hmark : mark ∈ exponentMarks) (h : Digits digits) :
    parseInt (mark.drop 1 ++ digits) =
      .ok (if '-'.toUInt8 ∈ mark then -(digitsValue digits : ℤ) else digitsValue digits) := by
  obtain ⟨b, rest, rfl, hb, -⟩ := h.cons
  have hminus : ¬ b = '-'.toUInt8 := by
    rintro rfl
    exact absurd hb (by decide)
  have hplus : ¬ b = '+'.toUInt8 := by
    rintro rfl
    exact absurd hb (by decide)
  have hnone : parseInt (b :: rest) = .ok (digitsValue (b :: rest) : ℤ) := by
    unfold parseInt
    simp only [if_neg hminus, if_neg hplus]
    exact if_pos h
  have hsign : parseInt ('+'.toUInt8 :: b :: rest) = .ok (digitsValue (b :: rest) : ℤ) :=
    if_pos h
  have hnegative : parseInt ('-'.toUInt8 :: b :: rest) = .ok (-(digitsValue (b :: rest) : ℤ)) :=
    if_pos h
  simp only [exponentMarks, List.mem_cons, List.not_mem_nil, or_false] at hmark
  rcases hmark with rfl | rfl | rfl | rfl | rfl | rfl
  · exact hnone
  · exact hnone
  · exact hsign
  · exact hnegative
  · exact hsign
  · exact hnegative

theorem layoutRepr_text (h : number.WellFormed) (hlower : LowerCase number)
    (hvalue : number.value ≠ 0) : layoutRepr number.text =
      .ok (layoutNumber number.negative number.significant number.scientificExponent) := by
  obtain ⟨hsplit, hletter⟩ := split_lowerCase h hlower
  have hmantissa := congrArg Prod.fst hsplit
  have hrest := congrArg Prod.snd hsplit
  simp only [splitAt] at hmantissa hrest
  have hsign : (number.text.head? == some '-'.toUInt8) = number.negative ∧
      (if number.negative = true then number.text.drop 1 else number.text) =
        number.integer ++ (number.fractionText ++ number.exponentText) := by
    obtain ⟨b, rest, hinteger, hb⟩ := integer_cons h
    rw [text, signText]
    cases number.negative with
    | true => exact ⟨rfl, rfl⟩
    | false =>
      refine ⟨?_, rfl⟩
      rw [hinteger]
      refine beq_eq_false_iff_ne.2 fun heq => ?_
      rw [Option.some.inj heq] at hb
      exact absurd hb (by decide)
  have hexponent : explicitExponent
      (number.integer ++ (number.fractionText ++ number.exponentText)) =
        .ok number.exponentValue := by
    unfold explicitExponent exponentValue
    rw [hrest]
    cases hcase : number.exponent with
    | none =>
      rw [hcase] at hletter
      exact if_neg (by simpa using hletter)
    | some exponent =>
      obtain ⟨hmark, hdigits⟩ := h.exponent exponent hcase
      rw [hcase] at hletter
      rw [if_pos (hletter.2 rfl)]
      exact parseInt_sign hmark hdigits
  obtain ⟨hfind, hdrop⟩ := findIdx?_zeros number.digits
  have hstrip : stripLeadingZeros number.digits ≠ [] := fun hnil =>
    hvalue ((significant_nil h).1 hnil)
  have hle : (stripLeadingZeros number.digits).length ≤ number.digits.length :=
    (List.dropWhile_suffix _).length_le
  have hsignificant : (stripLeadingZeros number.digits).rdropWhile (· == '0'.toUInt8) ≠ [] :=
    (number.significant_spec h hvalue).digits.1
  rw [if_neg hstrip] at hfind
  unfold layoutRepr
  simp only [hsign.1, hsign.2, hmantissa, hexponent, takeWhile_point h, filter_point h]
  simp only [hfind, hdrop]
  rw [if_neg hsignificant]
  simp only [bind, Except.bind, layoutFloat_eq]
  rw [scientificExponent, Nat.cast_sub hle]
  rfl

/-- `repr` and `std::to_chars` give the same digits and the same exponent. -/
def SharesDigits (library : JsonLibrary) (repr : ℚ → Bytes) : Prop :=
  ∀ x, IsBinary64 x → x ≠ 0 → ∃ number number' : NumberText, number.WellFormed ∧
    number.ExponentFits ∧ number'.WellFormed ∧ LowerCase number' ∧ number.value ≠ 0 ∧
    library.toChars x = some number.text ∧ repr x = number'.text ∧
    number'.negative = number.negative ∧ number'.significant = number.significant ∧
    number'.scientificExponent = number.scientificExponent

theorem encodeFloat_agrees {library : JsonLibrary} {repr : ℚ → Bytes}
    (h : SharesDigits library repr) {x : ℚ} (hx : IsBinary64 x) :
    ∃ text, encodeFloat repr (.finite x) = .ok text ∧
      ecmascriptNumber library (.finite x) = .ok text := by
  rcases eq_or_ne x 0 with rfl | hne
  · exact ⟨utf8 "0", rfl, rfl⟩
  obtain ⟨number, number', hformed, hfits, hformed', hlower, hvalue, hchars, hrepr, hnegative,
    hdigits, hexponent⟩ := h x hx hne
  have hvalue' : number'.value ≠ 0 := by
    rwa [number'.value_eq, hnegative, hdigits, hexponent, ← number.value_eq]
  refine ⟨layoutNumber number.negative number.significant number.scientificExponent, ?_, ?_⟩
  · rw [encodeFloat, if_neg hne, hrepr, lower_text hformed' hlower,
      layoutRepr_text hformed' hlower hvalue', hnegative, hdigits, hexponent]
  · rw [ecmascriptNumber, if_neg hne, hchars]
    simp only []
    rw [layoutShortest_text hformed, if_pos hfits, if_neg hvalue]

end AgenticCircuit.Frontend
