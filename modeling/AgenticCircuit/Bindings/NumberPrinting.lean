import AgenticCircuit.Bindings.NumberLayout

/-! # Reading and printing binary64

What the emitter relies on in `std::from_chars` and `std::to_chars`: reading rounds to the nearest
value, and printing gives a shortest text that is read back.  A canonical text is then read back as
the number it was written for (`fromChars_ecmascriptNumber`). -/

namespace AgenticCircuit.Bindings

open Option NumberText List

namespace JsonLibrary

/-- `std::from_chars` on a number: the result depends on its value and its sign only, and it is the
nearest value of the format. -/
structure ReadsNearest (library : JsonLibrary) : Prop where
  zero : ∀ number : NumberText, number.WellFormed → number.value = 0 →
    library.fromChars number.text =
      some (if number.negative then .negativeZero else .finite 0)
  exact : ∀ number : NumberText, number.WellFormed → IsBinary64 number.value → number.value ≠ 0 →
    library.fromChars number.text = some (.finite number.value)
  nearest : ∀ number : NumberText, number.WellFormed → ∀ x,
    library.fromChars number.text = some (.finite x) →
      ∀ y, IsBinary64 y → |number.value - x| ≤ |number.value - y|
  value : ∀ number number' : NumberText, number.WellFormed → number'.WellFormed →
    number.negative = number'.negative → number.value = number'.value →
      library.fromChars number.text = library.fromChars number'.text

/-- `std::to_chars` without a precision: the text is read back as the value, and no text with fewer
significant digits is. -/
structure PrintsShortest (library : JsonLibrary) : Prop where
  prints : ∀ x, IsBinary64 x → x ≠ 0 → ∃ number : NumberText, number.WellFormed ∧
    number.ExponentFits ∧ library.toChars x = some number.text ∧
    library.fromChars number.text = some (.finite x) ∧
    ∀ number' : NumberText, number'.WellFormed → number'.ExponentFits →
      library.fromChars number'.text = some (.finite x) →
        number.significant.length ≤ number'.significant.length

end JsonLibrary

variable {library : JsonLibrary}

variable {number : NumberText} {x : ℚ} {number : NumberText}

theorem value_ne_zero (hreads : library.ReadsNearest) (h : number.WellFormed) (hx : x ≠ 0)
    (hread : library.fromChars number.text = some (.finite x)) : number.value ≠ 0 := by
  intro hzero
  rw [hreads.zero number h hzero, some_inj] at hread
  split_ifs at hread
  exact hx (Double.finite.inj hread).symm

theorem NumberText.significant_spec (h : number.WellFormed) (hvalue : number.value ≠ 0) :
    Significant number.significant :=
  significant_strip h.digits fun hnil => hvalue ((significant_nil h).1 hnil)

/-- What is written for a number other than zero is the layout of a shortest text. -/
theorem ecmascriptNumber_spec (hreads : library.ReadsNearest) (hprints : library.PrintsShortest)
    (hx : IsBinary64 x) (hne : x ≠ 0) :
    ∃ number : NumberText, number.WellFormed ∧ Significant number.significant ∧
      library.fromChars number.text = some (.finite x) ∧
      (∀ number' : NumberText, number'.WellFormed → number'.ExponentFits →
        library.fromChars number'.text = some (.finite x) →
          number.significant.length ≤ number'.significant.length) ∧
      ecmascriptNumber library (.finite x) =
        .ok (layoutNumber number.negative number.significant number.scientificExponent) := by
  obtain ⟨number, hformed, hfits, hchars, hread, hshortest⟩ := hprints.prints x hx hne
  have hvalue := value_ne_zero hreads hformed hne hread
  refine ⟨number, hformed, number.significant_spec hformed hvalue, hread, hshortest, ?_⟩
  rw [ecmascriptNumber, if_neg hne, hchars]
  simp only []
  rw [layoutShortest_text hformed, if_pos hfits, if_neg hvalue]

theorem fromChars_ecmascriptNumber (hreads : library.ReadsNearest)
    (hprints : library.PrintsShortest) (hx : IsBinary64 x) {text : Bytes}
    (h : ecmascriptNumber library (.finite x) = .ok text) :
    ∃ number : NumberText, number.WellFormed ∧ number.text = text ∧
      library.fromChars text = some (.finite x) := by
  rcases eq_or_ne x 0 with rfl | hne
  · have htext : utf8 "0" = text := by
      rw [ecmascriptNumber, if_pos rfl] at h
      exact Except.ok.inj h
    have hformed : (⟨false, [zero], none, none⟩ : NumberText).WellFormed := ⟨.inl rfl, nofun, nofun⟩
    have hvalue : (⟨false, [zero], none, none⟩ : NumberText).value = 0 :=
      (significant_nil hformed).1 (by decide)
    rw [← htext]
    exact ⟨_, hformed, rfl, hreads.zero _ hformed hvalue⟩
  · obtain ⟨number, hformed, hsignificant, hread, -, hwritten⟩ :=
      ecmascriptNumber_spec hreads hprints hx hne
    rw [hwritten] at h
    have htext := layoutText_text number.negative number.significant number.scientificExponent
    have hlayout := layoutText_wellFormed hsignificant number.negative number.scientificExponent
    have hvalue : (layoutText number.negative number.significant
        number.scientificExponent).value = number.value := by
      rw [layoutText_value hsignificant.digits.1, number.value_eq]
    have hnegative : (layoutText number.negative number.significant
        number.scientificExponent).negative = number.negative := by
      unfold layoutText
      simp only []
      split_ifs <;> rfl
    rw [← Except.ok.inj h]
    refine ⟨_, hlayout, htext, ?_⟩
    rw [← htext, hreads.value _ _ hlayout hformed hnegative hvalue, hread]

/-! ### A library that reads and prints exact texts -/

namespace NumberText

variable {number number' : NumberText}

/-- The exponent that stands behind a letter, of any size. -/
def exponentOf (text : Bytes) : ℤ :=
  let (negative, unsigned) := consumeFront '-'.toUInt8 text
  let digits := (consumeFront '+'.toUInt8 unsigned).2
  if negative then -digitsValue digits else digitsValue digits

theorem exponentValue_eq (h : number.WellFormed) : number.exponentValue =
      exponentOf (number.exponent.elim [] fun exponent => exponent.1.drop 1 ++ exponent.2) := by
  unfold exponentValue
  cases hcase : number.exponent with
  | none => rfl
  | some exponent =>
    obtain ⟨hmark, hdigits⟩ := h.exponent _ hcase
    obtain ⟨unsigned, hsign, hunsigned⟩ := consumeFront_sign hmark hdigits
    simp only [elim_some, exponentOf, hsign, hunsigned, decide_eq_true_eq]

theorem value_inj (h : number.WellFormed) (h' : number'.WellFormed)
    (heq : number.text = number'.text) :
    number.negative = number'.negative ∧ number.value = number'.value := by
  have hsign := consumeFront_text h
  rw [heq, consumeFront_text h', Prod.mk.injEq] at hsign
  obtain ⟨hnegative, hmagnitude⟩ := hsign
  have hsplit := split_exponent h
  rw [← hmagnitude, split_exponent h', Prod.mk.injEq] at hsplit
  obtain ⟨hmantissa, hexponent⟩ := hsplit
  have hinteger : number'.integer = number.integer := by
    rw [← takeWhile_point h, ← hmantissa, takeWhile_point h']
  have hdigits : number'.digits = number.digits := by
    rw [← filter_point h, ← hmantissa, filter_point h']
  have hfraction : number'.fractionDigits.length = number.fractionDigits.length := by
    have := congrArg length hdigits
    rw [digits, digits, length_append, length_append, hinteger] at this
    omega
  refine ⟨hnegative.symm, ?_⟩
  rw [value, value, exponentValue_eq h, exponentValue_eq h', hexponent, hdigits, hfraction,
    hnegative]

end NumberText

theorem exists_numberText {x : ℚ} (hx : IsBinary64 x) (hne : x ≠ 0) :
    ∃ number : NumberText, number.WellFormed ∧ number.ExponentFits ∧ number.value = x := by
  obtain ⟨m, e, hm, hlow, hhigh, rfl⟩ := hx
  have hm0 : m ≠ 0 := by
    rintro rfl
    simp at hne
  have hsign : (if decide (m < 0) = true then (-1 : ℚ) else 1) * (m.natAbs : ℕ) = m := by
    rw [Nat.cast_natAbs]
    rcases lt_or_ge m 0 with hneg | hpos
    · rw [if_pos (by simpa using hneg), abs_of_neg hneg]
      push_cast
      ring
    · rw [if_neg (by simpa using hpos), abs_of_nonneg hpos, one_mul]
  have hinteger {n : ℕ} (hn : n ≠ 0) (exponent : Option (Bytes × Bytes))
      (hexponent : ∀ e ∈ exponent, e.1 ∈ exponentMarks ∧ Digits e.2) :
      (⟨decide (m < 0), decimalText n, none, exponent⟩ : NumberText).WellFormed :=
    ⟨.inr ⟨(decimalText_natCast n).digits, (decimalText_natCast n).lead hn⟩, by simp, hexponent⟩
  rcases lt_or_ge e 0 with hneg | hpos
  · -- A negative power of two is one of five times one of ten.
    obtain ⟨k, rfl⟩ : ∃ k : ℕ, e = -k := ⟨e.natAbs, by omega⟩
    refine ⟨⟨decide (m < 0), decimalText (m.natAbs * 5 ^ k : ℕ), none,
      some (utf8 "e-", decimalText k)⟩, hinteger (by positivity) _ ?_, ?_, ?_⟩
    · intro exponent hexponent
      rw [← some.inj hexponent]
      have hmark : utf8 "e-" ∈ exponentMarks := by decide
      exact ⟨hmark, (decimalText_natCast k).digits⟩
    · intro exponent hexponent
      rw [← some.inj hexponent, (decimalText_natCast k).value]
      omega
    · have hmark : '-'.toUInt8 ∈ utf8 "e-" := by decide
      have hten : (10 : ℚ) ^ (-(k : ℤ)) * 5 ^ k = 2 ^ (-(k : ℤ)) := by
        rw [zpow_neg, zpow_neg, zpow_natCast, zpow_natCast, ← inv_pow, ← inv_pow, ← mul_pow]
        norm_num
      simp only [value, digits, fractionDigits, exponentValue, getD_none, append_nil,
        elim_some, if_pos hmark, (decimalText_natCast _).value, length_nil]
      rw [← hsign, ← hten]
      push_cast
      ring_nf
  · obtain ⟨k, rfl⟩ : ∃ k : ℕ, e = k := ⟨e.natAbs, by omega⟩
    refine ⟨⟨decide (m < 0), decimalText (m.natAbs * 2 ^ k : ℕ), none, none⟩,
      hinteger (by positivity) none (by simp), by simp [ExponentFits], ?_⟩
    simp only [value, digits, fractionDigits, exponentValue, getD_none, append_nil, elim_none,
      (decimalText_natCast _).value, length_nil]
    rw [← hsign]
    push_cast
    rw [zpow_natCast]
    ring

open Classical in
/-- A library that reads the texts of values of the format and prints a shortest of them. -/
noncomputable def printingLibrary : JsonLibrary where
  parseString _ := none
  fromChars token :=
    if h : ∃ number : NumberText, number.WellFormed ∧ number.text = token then
      if h.choose.value = 0 then
        some (if h.choose.negative then .negativeZero else .finite 0)
      else if IsBinary64 h.choose.value then some (.finite h.choose.value)
      else none
    else none
  parseDocument _ := .error []
  toChars x :=
    if h : ∃ number : NumberText, number.WellFormed ∧ number.ExponentFits ∧ number.value = x then
      some (Function.argminOn (fun number : NumberText => number.significant.length)
        {number | number.WellFormed ∧ number.ExponentFits ∧ number.value = x} h).text
    else none
  sha256 _ := []

open Classical in
theorem printingLibrary_fromChars (h : number.WellFormed) : printingLibrary.fromChars number.text =
      if number.value = 0 then some (if number.negative then .negativeZero else .finite 0)
      else if IsBinary64 number.value then some (.finite number.value) else none := by
  have hex : ∃ number' : NumberText, number'.WellFormed ∧ number'.text = number.text :=
    ⟨number, h, rfl⟩
  obtain ⟨hnegative, hvalue⟩ := value_inj hex.choose_spec.1 h hex.choose_spec.2
  unfold printingLibrary
  simp only []
  rw [dif_pos hex, hnegative, hvalue]

theorem printingLibrary_finite (h : number.WellFormed) {x : ℚ}
    (hread : printingLibrary.fromChars number.text = some (.finite x)) : number.value = x := by
  rw [printingLibrary_fromChars h] at hread
  split_ifs at hread with hzero hnegative hformat
  · cases hread
  · rw [hzero]
    exact Double.finite.inj (some.inj hread)
  · exact Double.finite.inj (some.inj hread)

theorem printingLibrary_reads : printingLibrary.ReadsNearest where
  zero number h hzero := by
    rw [printingLibrary_fromChars h, if_pos hzero]
  exact number h hformat hne := by
    rw [printingLibrary_fromChars h, if_neg hne, if_pos hformat]
  nearest number h x hread y _ := by
    rw [printingLibrary_finite h hread, sub_self, abs_zero]
    exact abs_nonneg _
  value number number' h h' hnegative hvalue := by
    rw [printingLibrary_fromChars h, printingLibrary_fromChars h', hnegative, hvalue]

theorem printingLibrary_prints : printingLibrary.PrintsShortest where
  prints x hx hne := by
    have hex := exists_numberText hx hne
    have hmem := Function.argminOn_mem (fun number : NumberText => number.significant.length)
      {number | number.WellFormed ∧ number.ExponentFits ∧ number.value = x} hex
    refine ⟨_, hmem.1, hmem.2.1, dif_pos hex, ?_, ?_⟩
    · rw [printingLibrary_fromChars hmem.1, hmem.2.2, if_neg hne, if_pos hx]
    · intro number' h' hfits' hread'
      exact Function.argminOn_le (fun number : NumberText => number.significant.length)
        {number | number.WellFormed ∧ number.ExponentFits ∧ number.value = x}
        ⟨h', hfits', printingLibrary_finite h' hread'⟩

end AgenticCircuit.Bindings
