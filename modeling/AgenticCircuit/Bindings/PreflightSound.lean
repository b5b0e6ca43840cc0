import AgenticCircuit.Bindings.JsonText
import Mathlib.Data.List.TakeWhile
import Mathlib.Tactic.IntervalCases

/-! # What the preflight accepts is an I-JSON text

`Meets` states what a scan returns together with its safety: it reads inside the input and does not
run out of fuel.  Each function of the scanner has one lemma of this form; `Scans` says which bytes
it took and what it added to the two counters.  The values, elements and members are proved together
by induction on the fuel (`scan_meets`). -/

namespace AgenticCircuit.Bindings

open List MembersText

/-- The scan is safe and what it returns has the property. -/
def Meets {α : Type} (property : α → Prop) : Scanned α → Prop
  | .ok a => property a
  | .error (.json _) => True
  | .error .outOfBounds => False
  | .error .outOfFuel => False

namespace Meets

variable {α β : Type} {P : α → Prop} {r : Scanned α}

theorem jsonError (message : String) : Meets P (jsonError message) := trivial

theorem bind {f : α → Scanned β} {Q : β → Prop} (h : Meets P r)
    (hf : ∀ a, P a → Meets Q (f a)) : Meets Q (r >>= f) := by
  match r, h with
  | .ok a, h => exact hf a h
  | .error (.json _), _ => trivial

theorem mono {Q : α → Prop} (h : Meets P r) (hPQ : ∀ a, P a → Q a) : Meets Q r := by
  match r, h with
  | .ok a, h => exact hPQ a h
  | .error (.json _), _ => trivial

end Meets

/-- From one state to the other a scan took the bytes, spent the work and counted the bytes of
strings. -/
structure Scans (s s' : Scan) (text : Bytes) (work stringBytes : ℕ) : Prop where
  rest : s.rest = text ++ s'.rest
  work : s'.structuralWork = s.structuralWork + work
  stringBytes : s'.totalStringBytes = s.totalStringBytes + stringBytes

namespace Scans

variable {s s' s'' : Scan} {text text' : Bytes} {work work' bytes bytes' : ℕ}

theorem refl (s : Scan) : Scans s s [] 0 0 := ⟨rfl, rfl, rfl⟩

theorem trans (h : Scans s s' text work bytes) (h' : Scans s' s'' text' work' bytes') :
    Scans s s'' (text ++ text') (work + work') (bytes + bytes') where
  rest := by rw [h.rest, h'.rest, List.append_assoc]
  work := by rw [h'.work, h.work, Nat.add_assoc]
  stringBytes := by rw [h'.stringBytes, h.stringBytes, Nat.add_assoc]

theorem cast (h : Scans s s' text work bytes) (ht : text = text') (hw : work = work')
    (hb : bytes = bytes') : Scans s s' text' work' bytes' := by
  subst ht hw hb
  exact h

theorem length (h : Scans s s' text work bytes) : s.rest.length = text.length + s'.rest.length := by
  rw [h.rest, length_append]

end Scans

/-! ### Reading and skipping -/

variable {s : Scan} {b : UInt8} {rest text : Bytes}

theorem isEmpty_false {bytes : Bytes} (h : ¬ bytes.isEmpty = true) :
    ∃ b rest, bytes = b :: rest := by
  cases bytes with
  | nil => exact absurd rfl h
  | cons b rest => exact ⟨b, rest, rfl⟩

theorem read_zero (h : s.rest = b :: rest) : s.read 0 = .ok b := by
  simp [Scan.read, h]

theorem scans_advance_one (h : s.rest = b :: rest) : Scans s (s.advance 1) [b] 0 0 :=
  ⟨by simp [Scan.advance, h], rfl, rfl⟩

theorem nextIs_iff {p : UInt8 → Bool} :
    nextIs s p = true ↔ ∃ b rest, s.rest = b :: rest ∧ p b = true := by
  unfold nextIs
  cases s.rest <;> simp

theorem scans_skipWhitespace (s : Scan) :
    ∃ space, Whitespace space ∧ Scans s (skipWhitespace s) space 0 0 := by
  refine ⟨s.rest.takeWhile isWhitespace, ?_, ?_, rfl, rfl⟩
  · exact all_takeWhile
  · exact (takeWhile_append_dropWhile).symm

theorem scans_skipDigits (s : Scan) :
    ∃ digits, digits.all isDigit = true ∧ Scans s (skipDigits s) digits 0 0 := by
  refine ⟨s.rest.takeWhile isDigit, ?_, ?_, rfl, rfl⟩
  · exact all_takeWhile
  · exact (takeWhile_append_dropWhile).symm

theorem Whitespace.append {a b : Bytes} (ha : Whitespace a) (hb : Whitespace b) :
    Whitespace (a ++ b) := by
  unfold Whitespace at *
  rw [all_append, ha, hb, Bool.and_self]

theorem take_length_sub : (text ++ rest).take ((text ++ rest).length - rest.length) = text := by
  rw [length_append, Nat.add_sub_cancel, take_left]

theorem Scans.token {s' : Scan} {work bytes : ℕ} (h : Scans s s' text work bytes) :
    s.rest.take (s.rest.length - s'.rest.length) = text := by
  rw [h.rest, take_length_sub]

section sound

variable {library : JsonLibrary} {limits : JsonParseLimits} {size : ℕ}

/-- The counters of a state keep to their limits. -/
structure Within (limits : JsonParseLimits) (s : Scan) : Prop where
  work : s.structuralWork ≤ limits.maxStructuralWork
  stringBytes : s.totalStringBytes ≤ limits.maxTotalStringBytes

variable {s s' start : Scan} {text : Bytes} {done : StringText}

theorem Within.of_scans (hs : Within limits s) (h : Scans s s' text 0 0) : Within limits s' :=
  ⟨by rw [h.work]; exact hs.work, by rw [h.stringBytes]; exact hs.stringBytes⟩

theorem spendWork_meets (hs : Within limits s) :
    Meets (fun s' => Scans s s' [] 1 0 ∧ Within limits s') (spendWork limits s) := by
  unfold spendWork
  split_ifs with h
  · exact Meets.jsonError _
  · exact ⟨⟨rfl, rfl, rfl⟩, by simp only; omega, hs.stringBytes⟩

theorem scanLiteral_meets (literal : String) (s : Scan) :
    Meets (fun s' => Scans s s' (utf8 literal) 0 0) (scanLiteral size literal s) := by
  unfold scanLiteral
  split_ifs with h
  · obtain ⟨rest, hrest⟩ := isPrefixOf_iff_prefix.1 h
    refine ⟨?_, rfl, rfl⟩
    simp [Scan.advance, ← hrest]
  · exact Meets.jsonError _

/-! ### Strings -/

theorem readUnit_eq (offset : ℕ) (h : offset + 4 ≤ s.rest.length) :
    readUnit s offset = .ok (codeUnit ((s.rest.drop offset).take 4)) := by
  have hread : ∀ index (hi : index < s.rest.length), s.read index = .ok s.rest[index] := by
    intro index hi
    simp [Scan.read, hi]
  have htake : (s.rest.drop offset).take 4 =
      [s.rest[offset], s.rest[offset + 1], s.rest[offset + 2], s.rest[offset + 3]] := by
    apply ext_getElem
    · simp only [length_take, length_drop, length_cons, length_nil]
      omega
    · intro i h1 h2
      simp only [length_cons, length_nil] at h2
      interval_cases i <;> simp
  rw [htake]
  unfold readUnit
  rw [hread offset (by omega), hread (offset + 1) (by omega), hread (offset + 2) (by omega),
    hread (offset + 3) (by omega)]
  rfl

theorem scanUnicodeEscape_meets (h : 4 ≤ s.rest.length) :
    Meets (fun s' => ∃ c : Character, ∃ text, c.WellFormed ∧
      c.text = backslash :: 'u'.toUInt8 :: text ∧ Scans s s' text 0 0)
      (scanUnicodeEscape size s) := by
  have hfirst : Scans s (s.advance 4) (s.rest.take 4) 0 0 :=
    ⟨(take_append_drop 4 s.rest).symm, rfl, rfl⟩
  unfold scanUnicodeEscape
  rw [readUnit_eq 0 (by omega), drop_zero]
  have hlength : (s.rest.take 4).length = 4 := by
    rw [length_take]
    omega
  generalize s.rest.take 4 = high at hfirst hlength
  cases hunit : codeUnit high with
  | none => exact Meets.jsonError _
  | some unit =>
    simp only [bind, Except.bind]
    split_ifs with h1 h2 h3
    · exact Meets.jsonError _
    · refine ⟨.codeUnit high, high, ⟨hlength, unit, hunit, by omega⟩, rfl, hfirst⟩
    · exact Meets.jsonError _
    · generalize s.advance 4 = t at hfirst h3
      obtain ⟨b, u, rest, hrest⟩ : ∃ b u rest, t.rest = b :: u :: rest := by
        match hr : t.rest with
        | [] | [_] => simp [hr] at h3
        | b :: u :: rest => exact ⟨b, u, rest, rfl⟩
      have hb : t.read 0 = .ok b := by simp [Scan.read, hrest]
      have hu : t.read 1 = .ok u := by simp [Scan.read, hrest]
      rw [hb, hu]
      simp only []
      split_ifs with h4
      · exact Meets.jsonError _
      · rw [readUnit_eq _ (by omega)]
        have hlow : Scans t (t.advance 6) (b :: u :: (t.rest.drop 2).take 4) 0 0 := by
          refine ⟨?_, rfl, rfl⟩
          simp [Scan.advance, hrest]
        have hlowLength : ((t.rest.drop 2).take 4).length = 4 := by
          rw [length_take, length_drop]
          omega
        generalize (t.rest.drop 2).take 4 = low at hlow hlowLength
        cases hlowUnit : codeUnit low with
        | none => exact Meets.jsonError _
        | some lowUnit =>
          simp only []
          split_ifs with h5
          · exact Meets.jsonError _
          · push Not at h4
            refine ⟨.surrogates high low, high ++ b :: u :: low,
              ⟨⟨hlength, unit, hunit, by omega⟩, ⟨hlowLength, lowUnit, hlowUnit, by omega⟩⟩,
              ?_, hfirst.trans hlow⟩
            simp [Character.text, h4.1, h4.2]

/-- The characters after the opening quote of a string. -/
structure Opened (start s : Scan) (done : StringText) : Prop where
  scans : Scans start s (quote :: done.body) 0 0
  lexical : done.Lexical

theorem Opened.push {c : Character} (h : Opened start s done) (hc : c.WellFormed)
    (hs : Scans s s' text 0 0) (ht : c.text = text) : Opened start s' (done ++ [c]) where
  scans := (h.scans.trans hs).cast (by simp [StringText.body, ht]) rfl rfl
  lexical := by
    intro c' hc'
    rcases mem_append.1 hc' with hc' | hc'
    · exact h.lexical c' hc'
    · rw [mem_singleton.1 hc']
      exact hc

/-- What a scan of a string returns. -/
def StringScanned (limits : JsonParseLimits) (start : Scan) (result : Bytes × Scan) : Prop :=
  ∃ s : StringText, s.Accepted limits ∧ result.1 = s.unescaped ∧
    Scans start result.2 s.text 0 s.unescaped.length ∧ Within limits result.2

theorem finishString_meets (hlibrary : library.StringsFollowSpec) (h : Opened start s done)
    (hs : Scans s s' [quote] 0 0) (hw : Within limits start) :
    Meets (StringScanned limits start) (finishString library limits size start s') := by
  have hscans : Scans start s' done.text 0 0 := h.scans.trans hs
  unfold finishString
  rw [hscans.token]
  by_cases hutf : ValidUtf8 done.body
  · rw [hlibrary.valid done ⟨h.lexical, hutf⟩]
    simp only []
    split_ifs with h1 h2
    · exact Meets.jsonError _
    · exact Meets.jsonError _
    · refine ⟨done, ⟨⟨h.lexical, hutf⟩, by omega⟩, rfl, ⟨hscans.rest, hscans.work, ?_⟩, ?_, ?_⟩
      · simp [hscans.stringBytes]
      · exact (hw.of_scans hscans).work
      · simp only
        omega
  · rw [hlibrary.invalid done h.lexical hutf]
    exact Meets.jsonError _

theorem scanCharacters_meets (hlibrary : library.StringsFollowSpec) (hw : Within limits start)
    (fuel : ℕ) : ∀ {s : Scan} (done : StringText), Opened start s done → s.rest.length < fuel →
      Meets (StringScanned limits start) (scanCharacters library limits size start fuel s) := by
  induction fuel with
  | zero =>
    intro s done _ hfuel
    omega
  | succ fuel ih =>
    intro s done hopen hfuel
    unfold scanCharacters
    split_ifs with hempty
    · exact Meets.jsonError _
    · obtain ⟨byte, rest, hrest⟩ := isEmpty_false hempty
      rw [read_zero hrest]
      have hone := scans_advance_one hrest
      have hlength := hone.length
      generalize s.advance 1 = s₁ at hone hlength
      simp only [bind, Except.bind, length_singleton] at hlength ⊢
      split_ifs with hquote hcontrol hplain hend
      · subst hquote
        exact finishString_meets hlibrary hopen hone hw
      · exact Meets.jsonError _
      · refine ih _ (hopen.push (c := .unescaped byte) ⟨?_, hquote, hplain⟩ hone rfl) (by omega)
        exact UInt8.not_lt.1 hcontrol
      · exact Meets.jsonError _
      · have hbackslash : byte = backslash := by simpa using hplain
        obtain ⟨escape, rest', hrest'⟩ := isEmpty_false hend
        rw [read_zero hrest']
        have htwo := hone.trans (scans_advance_one hrest')
        have hlength' := (scans_advance_one hrest').length
        generalize s₁.advance 1 = s₂ at htwo hlength'
        simp only [length_singleton] at hlength' ⊢
        split_ifs with hsimple hbad
        · refine ih _ (hopen.push (c := .escaped escape) hsimple htwo ?_) (by omega)
          simp [Character.text, hbackslash]
        · exact Meets.jsonError _
        · push Not at hbad
          refine (scanUnicodeEscape_meets hbad.2).bind ?_
          rintro s₃ ⟨c, text, hc, htext, hscans⟩
          have hlength₃ := hscans.length
          refine ih _ (hopen.push hc (htwo.trans hscans) ?_) (by omega)
          simp [htext, hbackslash, hbad.1]

theorem scanString_meets (hlibrary : library.StringsFollowSpec) {rest : Bytes}
    (hrest : s.rest = quote :: rest) (hw : Within limits s) :
    Meets (StringScanned limits s) (scanString library limits size s) := by
  have hone := scans_advance_one hrest
  have hlength := hone.length
  refine scanCharacters_meets hlibrary hw _ [] ⟨hone, by simp [StringText.Lexical]⟩ ?_
  omega

/-! ### Numbers -/

theorem scanIntegerPart_meets (h : ¬ s.rest.isEmpty = true) :
    Meets (fun s' => ∃ integer, (integer = ['0'.toUInt8] ∨
      NumberText.Digits integer ∧ integer.head? ≠ some '0'.toUInt8) ∧ Scans s s' integer 0 0)
      (scanIntegerPart s) := by
  obtain ⟨byte, rest, hrest⟩ := isEmpty_false h
  unfold scanIntegerPart
  rw [read_zero hrest]
  simp only [bind, Except.bind]
  split_ifs with hzero hleading hdigit
  · exact Meets.jsonError _
  · exact ⟨[byte], .inl (by rw [hzero]), scans_advance_one hrest⟩
  · exact Meets.jsonError _
  · obtain ⟨digits, hall, hscans⟩ := scans_skipDigits s
    refine ⟨digits, .inr ⟨⟨?_, hall⟩, ?_⟩, hscans⟩
    all_goals
      have hdigits : digits = s.rest.takeWhile isDigit := by
        have := hscans.rest
        rw [show (skipDigits s).rest = s.rest.dropWhile isDigit from rfl] at this
        have hsplit := takeWhile_append_dropWhile (p := isDigit) (l := s.rest)
        exact (append_cancel_right (hsplit.trans this)).symm
      rw [hdigits, hrest, takeWhile_cons_of_pos (by simpa using hdigit)]
    · exact cons_ne_nil _ _
    · simpa using hzero

theorem digits_of_skip (h : ¬ (skipDigits s).rest.length = s.rest.length) :
    ∃ digits, NumberText.Digits digits ∧ Scans s (skipDigits s) digits 0 0 := by
  obtain ⟨digits, hall, hscans⟩ := scans_skipDigits s
  refine ⟨digits, ⟨?_, hall⟩, hscans⟩
  rintro rfl
  exact h (by simpa using hscans.length.symm)

theorem scanFraction_meets (s : Scan) :
    Meets (fun s' => ∃ fraction : Option Bytes, (∀ digits ∈ fraction, NumberText.Digits digits) ∧
      Scans s s' (fraction.elim [] fun digits => '.'.toUInt8 :: digits) 0 0) (scanFraction s) := by
  unfold scanFraction
  by_cases hnext : nextIs s (· == '.'.toUInt8) = true
  · obtain ⟨byte, rest, hrest, hdot⟩ := nextIs_iff.1 hnext
    rw [if_pos hnext]
    have hone := scans_advance_one hrest
    generalize s.advance 1 = s₁ at hone
    simp only []
    split_ifs with hsame
    · exact Meets.jsonError _
    · obtain ⟨digits, hdigits, hscans⟩ := digits_of_skip hsame
      refine ⟨some digits, by simpa using hdigits, ?_⟩
      exact (hone.trans hscans).cast (by simp [eq_of_beq hdot]) rfl rfl
  · rw [if_neg hnext]
    exact ⟨none, by simp, Scans.refl s⟩

theorem scanExponent_meets (s : Scan) :
    Meets (fun s' => ∃ exponent : Option (Bytes × Bytes),
      (∀ e ∈ exponent, e.1 ∈ NumberText.exponentMarks ∧ NumberText.Digits e.2) ∧
      Scans s s' (exponent.elim [] fun e => e.1 ++ e.2) 0 0) (scanExponent s) := by
  unfold scanExponent
  by_cases hnext : nextIs s (fun byte => byte == 'e'.toUInt8 || byte == 'E'.toUInt8) = true
  · obtain ⟨letter, rest, hrest, hletter⟩ := nextIs_iff.1 hnext
    rw [if_pos hnext]
    have hone := scans_advance_one hrest
    generalize s.advance 1 = s₁ at hone
    simp only [Bool.or_eq_true, beq_iff_eq] at hletter
    obtain ⟨mark, s₂, hs₂, hmark, hscans⟩ : ∃ mark s₂,
        (if nextIs s₁ (fun byte => byte == '+'.toUInt8 || byte == '-'.toUInt8)
          then s₁.advance 1 else s₁) = s₂ ∧ mark ∈ NumberText.exponentMarks ∧
        Scans s s₂ mark 0 0 := by
      by_cases hsign : nextIs s₁ (fun byte => byte == '+'.toUInt8 || byte == '-'.toUInt8) = true
      · obtain ⟨sign, rest', hrest', hsigns⟩ := nextIs_iff.1 hsign
        simp only [Bool.or_eq_true, beq_iff_eq] at hsigns
        refine ⟨[letter] ++ [sign], _, if_pos hsign, ?_, hone.trans (scans_advance_one hrest')⟩
        rcases hletter with rfl | rfl <;> rcases hsigns with rfl | rfl <;> decide
      · refine ⟨[letter], _, if_neg hsign, ?_, hone⟩
        rcases hletter with rfl | rfl <;> decide
    simp only [hs₂]
    split_ifs with hsame
    · exact Meets.jsonError _
    · obtain ⟨digits, hdigits, hskip⟩ := digits_of_skip hsame
      refine ⟨some (mark, digits), ?_, hscans.trans hskip⟩
      simpa using ⟨hmark, hdigits⟩
  · rw [if_neg hnext]
    exact ⟨none, by simp, Scans.refl s⟩

theorem scanUnsigned_meets (h : ¬ s.rest.isEmpty = true) (negative : Bool) :
    Meets (fun s' => ∃ number : NumberText, number.WellFormed ∧ number.negative = negative ∧
      Scans s s' (number.integer ++ (number.fractionText ++ number.exponentText)) 0 0)
      (scanUnsigned s) := by
  refine (scanIntegerPart_meets h).bind ?_
  rintro s₁ ⟨integer, hinteger, hscans₁⟩
  refine (scanFraction_meets s₁).bind ?_
  rintro s₂ ⟨fraction, hfraction, hscans₂⟩
  refine (scanExponent_meets s₂).mono ?_
  rintro s₃ ⟨exponent, hexponent, hscans₃⟩
  exact ⟨⟨negative, integer, fraction, exponent⟩, ⟨hinteger, hfraction, hexponent⟩, rfl,
    hscans₁.trans (hscans₂.trans hscans₃)⟩

theorem convertNumber_meets (hlibrary : library.SignedZeros) {number : NumberText}
    (hformed : number.WellFormed) (hscans : Scans start s number.text 0 0) :
    Meets (fun s' => s' = s ∧ number.IsBinary64 library)
      (convertNumber library start number.negative s) := by
  unfold convertNumber
  rw [hscans.token]
  cases hvalue : library.fromChars number.text with
  | none => exact Meets.jsonError _
  | some value =>
    simp only []
    split_ifs with hfinite hzero
    · exact Meets.jsonError _
    · exact Meets.jsonError _
    · refine ⟨rfl, ?_⟩
      cases value with
      | finite value => exact ⟨value, hvalue⟩
      | negativeZero =>
        cases hnegative : number.negative with
        | true => simp [Double.isZero, hnegative] at hzero
        | false => exact absurd hvalue (hlibrary.positive number hformed hnegative)
      | infinite negative | nan => simp [Double.isFinite] at hfinite

theorem scanNumber_meets (hlibrary : library.SignedZeros) (h : ¬ s.rest.isEmpty = true) :
    Meets (fun s' => ∃ number : NumberText, number.WellFormed ∧ number.IsBinary64 library ∧
      Scans s s' number.text 0 0) (scanNumber library s) := by
  obtain ⟨byte, rest, hrest⟩ := isEmpty_false h
  unfold scanNumber
  rw [read_zero hrest]
  refine Meets.bind (P := (· = byte)) rfl ?_
  rintro byte' hbyte
  subst hbyte
  obtain ⟨s₁, hs₁, hsign⟩ : ∃ s₁, (if byte' == '-'.toUInt8 then s.advance 1 else s) = s₁ ∧
      Scans s s₁ (if byte' == '-'.toUInt8 then ['-'.toUInt8] else []) 0 0 := by
    refine ⟨_, rfl, ?_⟩
    split_ifs with hminus
    · rw [← eq_of_beq hminus]
      exact scans_advance_one hrest
    · exact Scans.refl s
  simp only []
  rw [hs₁]
  generalize (byte' == '-'.toUInt8) = negative at hsign hs₁ ⊢
  split_ifs with hincomplete
  · exact Meets.jsonError _
  · have hnonempty : ¬ s₁.rest.isEmpty = true := by
      intro hempty
      cases negative with
      | true => exact hincomplete (by simp [hempty])
      | false =>
        have := hsign.rest
        rw [List.isEmpty_iff.1 hempty, hrest] at this
        simp at this
    refine (scanUnsigned_meets hnonempty negative).bind ?_
    rintro s₂ ⟨number, hformed, rfl, hscans₂⟩
    have hscans : Scans s s₂ number.text 0 0 := hsign.trans hscans₂
    refine (convertNumber_meets hlibrary hformed hscans).mono ?_
    rintro _ ⟨rfl, hvalue⟩
    exact ⟨number, hformed, hvalue, hscans⟩

/-! ### Values -/

/-- What a scan of a value at a depth returns. -/
def ValueScanned (library : JsonLibrary) (limits : JsonParseLimits) (depth : ℕ) (s s' : Scan) :
    Prop :=
  ∃ space, ∃ t : JsonText, Whitespace space ∧ t.Accepted library limits ∧
    t.depth + depth ≤ limits.maxDepth + 1 ∧
    Scans s s' (space ++ t.text) t.values t.stringBytes ∧ Within limits s'

/-- What a scan of the elements of an array at a depth returns, after some of them. -/
def ElementsScanned (library : JsonLibrary) (limits : JsonParseLimits) (depth elements : ℕ)
    (s s' : Scan) : Prop :=
  ∃ space, ∃ t : ElementsText, Whitespace space ∧ t.Accepted library limits ∧
    elements + t.count ≤ limits.maxArrayElements ∧ t.depth + depth ≤ limits.maxDepth ∧
    Scans s s' (space ++ t.text) t.values t.stringBytes ∧ Within limits s'

/-- What a scan of the members of an object at a depth returns, after those with the names. -/
def MembersScanned (library : JsonLibrary) (limits : JsonParseLimits) (depth : ℕ)
    (names : List Bytes) (s s' : Scan) : Prop :=
  ∃ t : MembersText, t.Accepted library limits ∧
    names.length + t.names.length ≤ limits.maxObjectMembers ∧ t.names.Nodup ∧
    (∀ name ∈ t.names, name ∉ names) ∧ t.depth + depth ≤ limits.maxDepth ∧
    Scans s s' t.text t.values t.stringBytes ∧ Within limits s'

theorem scanLiteral_value {depth : ℕ} {s₁ : Scan} {space : Bytes} (t : JsonText) (literal : String)
    (ht : t.text = utf8 literal) (hvalues : t.values = 1) (hbytes : t.stringBytes = 0)
    (hdepth : t.depth = 1) (haccepted : t.Accepted library limits) (hspace : Whitespace space)
    (hs : Scans s s₁ space 1 0) (hw : Within limits s₁) (hlimit : depth ≤ limits.maxDepth) :
    Meets (ValueScanned library limits depth s) (scanLiteral size literal s₁) := by
  refine (scanLiteral_meets literal s₁).mono ?_
  intro s₂ hscans
  refine ⟨space, t, hspace, haccepted, by omega, ?_, hw.of_scans hscans⟩
  rw [ht, hvalues, hbytes]
  exact hs.trans hscans

/-- The statement on the three functions with the given fuel. -/
structure ScansWithFuel (library : JsonLibrary) (limits : JsonParseLimits) (size fuel : ℕ) :
    Prop where
  value : ∀ (depth : ℕ) {s : Scan}, Within limits s → 2 * s.rest.length + 1 ≤ fuel →
    Meets (ValueScanned library limits depth s) (scanValue library limits size fuel depth s)
  elements : ∀ (depth elements : ℕ) {s : Scan}, Within limits s → 2 * s.rest.length + 2 ≤ fuel →
    Meets (ElementsScanned library limits depth elements s)
      (scanElements library limits size fuel depth elements s)
  members : ∀ (depth : ℕ) (names : List Bytes) {s : Scan}, Within limits s →
    2 * s.rest.length + 2 ≤ fuel →
    Meets (MembersScanned library limits depth names s)
      (scanMembers library limits size fuel depth names s)

variable {fuel : ℕ}

variable {depth : ℕ} {s s₁ : Scan} {rest space : Bytes}

theorem scanArray_meets (ih : ScansWithFuel library limits size fuel) (hspace : Whitespace space)
    (hs : Scans s s₁ space 1 0) (hw : Within limits s₁) (hrest : s₁.rest = '['.toUInt8 :: rest)
    (hdepth : depth ≤ limits.maxDepth) (hfuel : 2 * s₁.rest.length ≤ fuel) :
    Meets (ValueScanned library limits depth s)
      (scanArray (scanElements library limits size fuel depth 0) s₁) := by
  obtain ⟨inner, hinner, hskip⟩ := scans_skipWhitespace (s₁.advance 1)
  have hone := scans_advance_one hrest
  have hs₂ := hs.trans (hone.trans hskip)
  have hw₂ := hw.of_scans (hone.trans hskip)
  have hlength := (hone.trans hskip).length
  unfold scanArray
  generalize skipWhitespace (s₁.advance 1) = s₂ at hs₂ hw₂ hlength
  simp only [length_append, length_singleton] at hlength ⊢
  split_ifs with hclose
  · obtain ⟨b, rest', hrest', hb⟩ := nextIs_iff.1 hclose
    have hlast := scans_advance_one hrest'
    refine ⟨space, .emptyArray inner, hspace, hinner, ?_, (hs₂.trans hlast).cast ?_ rfl rfl,
      hw₂.of_scans hlast⟩
    · simp only [JsonText.depth]
      omega
    · simp [JsonText.text, eq_of_beq hb]
  · refine (ih.elements _ 0 hw₂ (by omega)).mono ?_
    rintro s₃ ⟨inner', t, hinner', haccepted, hcount, htdepth, hscans, hw₃⟩
    refine ⟨space, .array (inner ++ inner') t, hspace, ?_, ?_, ?_, hw₃⟩
    · exact ⟨hinner.append hinner', haccepted, by omega⟩
    · simp only [JsonText.depth]
      omega
    · refine (hs₂.trans hscans).cast ?_ ?_ ?_
      · simp [JsonText.text]
      · simp only [JsonText.values]
        omega
      · simp [JsonText.stringBytes]

theorem scanObject_meets (ih : ScansWithFuel library limits size fuel) (hspace : Whitespace space)
    (hs : Scans s s₁ space 1 0) (hw : Within limits s₁) (hrest : s₁.rest = '\x7b'.toUInt8 :: rest)
    (hdepth : depth ≤ limits.maxDepth) (hfuel : 2 * s₁.rest.length ≤ fuel) :
    Meets (ValueScanned library limits depth s)
      (scanObject (scanMembers library limits size fuel depth []) s₁) := by
  obtain ⟨inner, hinner, hskip⟩ := scans_skipWhitespace (s₁.advance 1)
  have hone := scans_advance_one hrest
  have hs₂ := hs.trans (hone.trans hskip)
  have hw₂ := hw.of_scans (hone.trans hskip)
  have hlength := (hone.trans hskip).length
  unfold scanObject
  generalize skipWhitespace (s₁.advance 1) = s₂ at hs₂ hw₂ hlength
  simp only [length_append, length_singleton] at hlength ⊢
  split_ifs with hclose
  · obtain ⟨b, rest', hrest', hb⟩ := nextIs_iff.1 hclose
    have hlast := scans_advance_one hrest'
    refine ⟨space, .emptyObject inner, hspace, hinner, ?_, (hs₂.trans hlast).cast ?_ rfl rfl,
      hw₂.of_scans hlast⟩
    · simp only [JsonText.depth]
      omega
    · simp [JsonText.text, eq_of_beq hb]
  · refine (ih.members _ [] hw₂ (by omega)).mono ?_
    rintro s₃ ⟨t, haccepted, hcount, hnodup, -, htdepth, hscans, hw₃⟩
    refine ⟨space, .object inner t, hspace, ?_, ?_, ?_, hw₃⟩
    · exact ⟨hinner, haccepted, hnodup, by simpa using hcount⟩
    · simp only [JsonText.depth]
      omega
    · refine (hs₂.trans hscans).cast ?_ ?_ ?_
      · simp [JsonText.text]
      · simp only [JsonText.values]
        omega
      · simp [JsonText.stringBytes]

theorem scanValue_step (hstrings : library.StringsFollowSpec) (hnumbers : library.SignedZeros)
    (ih : ScansWithFuel library limits size fuel) (hw : Within limits s)
    (hfuel : 2 * s.rest.length + 1 ≤ fuel + 1) : Meets (ValueScanned library limits depth s)
      (scanValue library limits size (fuel + 1) depth s) := by
  unfold scanValue
  split_ifs with hdepth
  · exact Meets.jsonError _
  · refine (spendWork_meets hw).bind ?_
    rintro s₀ ⟨hspend, hw₀⟩
    obtain ⟨space, hspace, hskip⟩ := scans_skipWhitespace s₀
    have hw₁ := hw₀.of_scans hskip
    have hs : Scans s (skipWhitespace s₀) space 1 0 := hspend.trans hskip
    generalize skipWhitespace s₀ = s₁ at hs hw₁
    have hlength := hs.length
    simp only []
    split_ifs with hempty
    · exact Meets.jsonError _
    · obtain ⟨byte, rest, hrest⟩ := isEmpty_false hempty
      have hlimit : depth ≤ limits.maxDepth := by omega
      unfold scanToken
      rw [read_zero hrest]
      refine Meets.bind (P := (· = byte)) rfl ?_
      rintro byte' hbyte
      subst hbyte
      split_ifs with hn ht hf hquote hbracket hbrace hnumber
      · exact scanLiteral_value .literalNull "null" rfl rfl rfl rfl trivial hspace hs hw₁ hlimit
      · exact scanLiteral_value .literalTrue "true" rfl rfl rfl rfl trivial hspace hs hw₁ hlimit
      · exact scanLiteral_value .literalFalse "false" rfl rfl rfl rfl trivial hspace hs hw₁ hlimit
      · rw [hquote] at hrest
        refine (scanString_meets hstrings hrest hw₁).bind ?_
        rintro ⟨value, s₂⟩ ⟨t, haccepted, -, hscans, hw₂⟩
        refine ⟨space, .string t, hspace, haccepted, ?_, ?_, hw₂⟩
        · simp only [JsonText.depth]
          omega
        · exact (hs.trans hscans).cast rfl rfl (Nat.zero_add _)
      · rw [hbracket] at hrest
        exact scanArray_meets ih hspace hs hw₁ hrest hlimit (by omega)
      · rw [hbrace] at hrest
        exact scanObject_meets ih hspace hs hw₁ hrest hlimit (by omega)
      · refine (scanNumber_meets hnumbers hempty).mono ?_
        rintro s₂ ⟨number, hformed, hvalue, hscans⟩
        refine ⟨space, .number number, hspace, ⟨hformed, hvalue⟩, ?_, hs.trans hscans,
          hw₁.of_scans hscans⟩
        simp only [JsonText.depth]
        omega
      · exact Meets.jsonError _

theorem scanElements_step (ih : ScansWithFuel library limits size fuel) {elements : ℕ}
    (hw : Within limits s) (hfuel : 2 * s.rest.length + 2 ≤ fuel + 1) :
    Meets (ElementsScanned library limits depth elements s)
      (scanElements library limits size (fuel + 1) depth elements s) := by
  unfold scanElements
  split_ifs with hmax
  · exact Meets.jsonError _
  · refine (ih.value (depth + 1) hw (by omega)).bind ?_
    rintro s₀ ⟨space, t, hspace, haccepted, hdepth, hscans, hw₀⟩
    obtain ⟨after, hafter, hskip⟩ := scans_skipWhitespace s₀
    have hw₁ := hw₀.of_scans hskip
    have hs := hscans.trans hskip
    generalize skipWhitespace s₀ = s₁ at hs hw₁
    have hlength := hs.length
    simp only [length_append] at hlength ⊢
    split_ifs with hempty
    · exact Meets.jsonError _
    · obtain ⟨byte, rest, hrest⟩ := isEmpty_false hempty
      rw [read_zero hrest]
      have hone := scans_advance_one hrest
      have hlengthOne := hone.length
      simp only [bind, Except.bind, length_singleton] at hlengthOne ⊢
      split_ifs with hclose hcomma
      · subst hclose
        refine ⟨space, .last t after, hspace, ⟨haccepted, hafter⟩, ?_, ?_, ?_, hw₁.of_scans hone⟩
        · simp only [ElementsText.count]
          omega
        · simp only [ElementsText.depth]
          omega
        · exact (hs.trans hone).cast (by simp [ElementsText.text]) rfl rfl
      · exact Meets.jsonError _
      · have hcomma : byte = ','.toUInt8 := by simpa using hcomma
        subst hcomma
        obtain ⟨before, hbefore, hskip'⟩ := scans_skipWhitespace (s₁.advance 1)
        have hlength₂ := hskip'.length
        refine (ih.elements _ (elements + 1) (hw₁.of_scans (hone.trans hskip'))
          (by omega)).mono ?_
        rintro s₂ ⟨before', t', hbefore', haccepted', hcount, hdepth', hscans', hw₂⟩
        refine ⟨space, .more t after (before ++ before') t', hspace,
          ⟨haccepted, hafter, hbefore.append hbefore', haccepted'⟩, ?_, ?_, ?_, hw₂⟩
        · simp only [ElementsText.count]
          omega
        · simp only [ElementsText.depth]
          omega
        · refine ((hs.trans (hone.trans hskip')).trans hscans').cast ?_ ?_ ?_
          · simp [ElementsText.text]
          · simp [ElementsText.values]
          · simp [ElementsText.stringBytes]

theorem scanMembers_step (hstrings : library.StringsFollowSpec)
    (ih : ScansWithFuel library limits size fuel) {names : List Bytes} (hw : Within limits s)
    (hfuel : 2 * s.rest.length + 2 ≤ fuel + 1) : Meets (MembersScanned library limits depth names s)
      (scanMembers library limits size (fuel + 1) depth names s) := by
  unfold scanMembers
  split_ifs with hmax hnext
  · exact Meets.jsonError _
  · exact Meets.jsonError _
  · obtain ⟨b, rest, hrest, hb⟩ := nextIs_iff.1 (by simpa using hnext)
    rw [eq_of_beq hb] at hrest
    refine (scanString_meets hstrings hrest hw).bind ?_
    rintro ⟨value, s₀⟩ ⟨name, hname, rfl, hscans, hw₀⟩
    simp only []
    by_cases hduplicate : name.unescaped ∈ names
    · rw [if_pos hduplicate]
      trivial
    · rw [if_neg hduplicate]
      obtain ⟨colonBefore, hcolonBefore, hskip⟩ := scans_skipWhitespace s₀
      have hw₁ := hw₀.of_scans hskip
      have hs := hscans.trans hskip
      generalize skipWhitespace s₀ = s₁ at hs hw₁
      have hlength := hs.length
      split_ifs with hempty
      · exact Meets.jsonError _
      · obtain ⟨separator, rest₁, hrest₁⟩ := isEmpty_false hempty
        rw [read_zero hrest₁]
        have hone := scans_advance_one hrest₁
        have hlengthOne := hone.length
        simp only [bind, Except.bind] at hlengthOne ⊢
        split_ifs with hcolon
        · exact Meets.jsonError _
        · have hcolon : separator = ':'.toUInt8 := by simpa using hcolon
          subst hcolon
          refine (ih.value (depth + 1) (hw₁.of_scans hone) (by omega)).bind ?_
          rintro s₂ ⟨colonAfter, t, hcolonAfter, haccepted, hdepth, hscans₂, hw₂⟩
          obtain ⟨after, hafter, hskip₂⟩ := scans_skipWhitespace s₂
          have hw₃ := hw₂.of_scans hskip₂
          have hs₃ := (hs.trans hone).trans (hscans₂.trans hskip₂)
          have hlength₃ := (hscans₂.trans hskip₂).length
          generalize skipWhitespace s₂ = s₃ at hs₃ hw₃ hlength₃
          split_ifs with hempty₃
          · exact Meets.jsonError _
          · obtain ⟨byte, rest₃, hrest₃⟩ := isEmpty_false hempty₃
            rw [read_zero hrest₃]
            have hone₃ := scans_advance_one hrest₃
            have hlengthOne₃ := hone₃.length
            simp only [length_singleton] at hlengthOne₃ ⊢
            split_ifs with hclose hcomma
            · subst hclose
              refine ⟨.last name colonBefore colonAfter t after,
                ⟨hname, hcolonBefore, hcolonAfter, haccepted, hafter⟩, ?_, ?_, ?_, ?_, ?_,
                hw₃.of_scans hone₃⟩
              · simp only [MembersText.names, length_singleton]
                omega
              · simp [MembersText.names]
              · simpa [MembersText.names] using hduplicate
              · simp only [MembersText.depth]
                omega
              · refine (hs₃.trans hone₃).cast ?_ ?_ ?_
                · simp [text]
                · simp [values]
                · simp [stringBytes]
            · exact Meets.jsonError _
            · have hcomma : byte = ','.toUInt8 := by simpa using hcomma
              subst hcomma
              obtain ⟨before, hbefore, hskip'⟩ := scans_skipWhitespace (s₃.advance 1)
              have hlength₄ := hskip'.length
              simp only [length_append] at hlength₃
              refine (ih.members _ (name.unescaped :: names)
                (hw₃.of_scans (hone₃.trans hskip')) (by omega)).mono ?_
              rintro s₄ ⟨t', haccepted', hcount, hnodup, hfresh, hdepth', hscans', hw₄⟩
              refine ⟨.more name colonBefore colonAfter t after before t',
                ⟨hname, hcolonBefore, hcolonAfter, haccepted, hafter, hbefore, haccepted'⟩,
                ?_, ?_, ?_, ?_, ?_, hw₄⟩
              · simp only [MembersText.names, length_cons] at hcount ⊢
                omega
              · refine nodup_cons.2 ⟨fun hmem => ?_, hnodup⟩
                exact hfresh _ hmem (mem_cons_self ..)
              · intro n hn
                rcases mem_cons.1 hn with rfl | hn
                · exact hduplicate
                · exact fun hmem => hfresh n hn (mem_cons_of_mem _ hmem)
              · simp only [MembersText.depth]
                omega
              · refine ((hs₃.trans (hone₃.trans hskip')).trans hscans').cast ?_ ?_ ?_
                · simp [text]
                · simp [values]
                · simp [stringBytes]

/-- By induction on the fuel, which bounds the bytes that are left. -/
theorem scan_meets (hstrings : library.StringsFollowSpec) (hnumbers : library.SignedZeros)
    (fuel : ℕ) : ScansWithFuel library limits size fuel := by
  induction fuel with
  | zero =>
    constructor
    all_goals
      intros
      omega
  | succ fuel ih =>
    constructor
    · exact fun _ _ => scanValue_step hstrings hnumbers ih
    · exact fun _ _ _ => scanElements_step ih
    · exact fun _ _ _ => scanMembers_step hstrings ih

end sound

theorem IJsonPreflight.run_meets {library : JsonLibrary} (hstrings : library.StringsFollowSpec)
    (hnumbers : library.SignedZeros) (limits : JsonParseLimits) (input : Bytes) :
    Meets (fun _ => ∃ before after document, IsIJson library limits input before after document)
      (run library limits input) := by
  unfold run
  split_ifs with hsize
  · exact Meets.jsonError _
  · obtain ⟨before, hbefore, hskip⟩ := scans_skipWhitespace { rest := input }
    have hw : Within limits { rest := input } := ⟨Nat.zero_le _, Nat.zero_le _⟩
    have hlength := hskip.length
    refine ((scan_meets hstrings hnumbers _).value 1 (hw.of_scans hskip)
      (by simp only at hlength; omega)).bind ?_
    rintro s₁ ⟨space, t, hspace, haccepted, hdepth, hscans, hw₁⟩
    obtain ⟨after, hafter, hskip'⟩ := scans_skipWhitespace s₁
    have hs := (hskip.trans hscans).trans hskip'
    have hw₂ := hw₁.of_scans hskip'
    generalize skipWhitespace s₁ = s₂ at hs hw₂
    simp only []
    split_ifs with hempty
    · refine ⟨before ++ space, after, t, ?_, hbefore.append hspace, hafter, haccepted, by omega,
        by omega, ?_, ?_⟩
      · have hrest := hs.rest
        rw [List.isEmpty_iff.1 hempty] at hrest
        simpa using hrest
      · have hwork := hs.work
        have := hw₂.work
        omega
      · have hbytes := hs.stringBytes
        have := hw₂.stringBytes
        omega
    · exact Meets.jsonError _

end AgenticCircuit.Bindings
