import AgenticCircuit.Bindings.PreflightSound

/-! # The preflight accepts every I-JSON text within the limits

Each function of the scanner has one equation: on the text of a tree and a tail it takes the text
and leaves the tail.  What follows a number must not continue it (`Ends`); in an array, an object or
at the end of the input nothing else can stand there.  With the other direction this is
`preflight_accepts_iff`. -/

namespace AgenticCircuit.Bindings

open List NumberText ElementsText Character MembersText Scan Stops

/-- The bytes that could continue a number. -/
def continuesNumber (byte : UInt8) : Bool :=
  isDigit byte || byte == '.'.toUInt8 || byte == 'e'.toUInt8 || byte == 'E'.toUInt8

abbrev Ends (tail : Bytes) : Prop := Stops continuesNumber tail

theorem continuesNumber_of_whitespace {b : UInt8} (h : isWhitespace b = true) :
    continuesNumber b = false := by
  simp only [isWhitespace, Bool.or_eq_true, beq_iff_eq] at h
  rcases h with ((rfl | rfl) | rfl) | rfl <;> decide

theorem ends_append {space rest : Bytes} (hspace : Whitespace space) (hrest : Ends rest) :
    Ends (space ++ rest) := by
  cases space with
  | nil => exact hrest
  | cons b space =>
    simp only [Whitespace, all_cons, Bool.and_eq_true] at hspace
    exact cons (continuesNumber_of_whitespace hspace.1)

theorem skipWhitespace_eq {space rest : Bytes} {work bytes : ℕ} (hspace : Whitespace space)
    (hrest : Stops isWhitespace rest) :
    skipWhitespace ⟨space ++ rest, work, bytes⟩ = ⟨rest, work, bytes⟩ := by
  unfold skipWhitespace
  rw [hrest.dropWhile hspace]

section complete

variable {library : JsonLibrary} {limits : JsonParseLimits} {size : ℕ}
variable {b : UInt8} {fuel : ℕ} {number : NumberText} {s : Scan}

variable {after before colonAfter colonBefore digits inner rest space tail : Bytes}
    {bytes depth work : ℕ} {start : Scan} {t value : JsonText}
    {elements members : Scan → Scanned Scan} {name : StringText}

theorem scanLiteral_eq (literal : String) :
    scanLiteral size literal ⟨utf8 literal ++ tail, work, bytes⟩ = .ok ⟨tail, work, bytes⟩ := by
  unfold scanLiteral
  simp [advance]

/-! ### Strings -/

theorem scanUnicodeEscape_unit (h : IsUnit digits fun unit => unit < 0xd800 ∨ 0xdfff < unit) :
    scanUnicodeEscape size ⟨digits ++ tail, work, bytes⟩ = .ok ⟨tail, work, bytes⟩ := by
  obtain ⟨hlength, unit, hunit, hrange⟩ := h
  unfold scanUnicodeEscape
  rw [readUnit_eq _ (by simp [hlength]), drop_zero, take_left' hlength, hunit]
  simp only [bind, Except.bind]
  rw [if_neg (by omega), if_pos (by omega)]
  simp [advance, drop_left' hlength, pure, Except.pure]

theorem scanUnicodeEscape_pair {high low : Bytes}
    (hhigh : IsUnit high fun unit => 0xd800 ≤ unit ∧ unit ≤ 0xdbff)
    (hlow : IsUnit low fun unit => 0xdc00 ≤ unit ∧ unit ≤ 0xdfff) :
    scanUnicodeEscape size ⟨high ++ (backslash :: 'u'.toUInt8 :: (low ++ tail)), work, bytes⟩ =
      .ok ⟨tail, work, bytes⟩ := by
  obtain ⟨hlength, unit, hunit, hrange⟩ := hhigh
  obtain ⟨hlength', unit', hunit', hrange'⟩ := hlow
  unfold scanUnicodeEscape
  rw [readUnit_eq _ (by simp [hlength]), drop_zero, take_left' hlength, hunit]
  simp only [bind, Except.bind, advance, drop_left' hlength]
  rw [if_neg (by omega), if_neg (by omega), if_neg (by simp [hlength']), readUnit_eq]
  · simp only [Scan.read, getElem?_cons_zero, getElem?_cons_succ, drop_succ_cons,
      drop_zero, take_left' hlength', hunit']
    rw [if_neg (by simp), if_neg (by omega)]
    simp [drop_left' hlength', pure, Except.pure]
  · simp [hlength']

theorem finishString_eq {s : StringText} (hlibrary : library.StringsFollowSpec)
    (hs : s.Accepted limits) (hstart : start.rest = s.text ++ tail)
    (hbytes : bytes + s.unescaped.length ≤ limits.maxTotalStringBytes) :
    finishString library limits size start ⟨tail, work, bytes⟩ =
      .ok (s.unescaped, ⟨tail, work, bytes + s.unescaped.length⟩) := by
  unfold finishString
  rw [hstart, take_length_sub, hlibrary.valid s hs.1]
  simp only []
  rw [if_neg (Nat.not_lt.2 hs.2), if_neg (by omega)]

theorem scanCharacters_close (h : s.rest = quote :: rest) :
    scanCharacters library limits size start (fuel + 1) s =
      finishString library limits size start (s.advance 1) := by
  rw [scanCharacters, if_neg (by simp [h]), read_zero h, ok_bind]
  exact if_pos rfl

theorem scanCharacters_unescaped {byte : UInt8} (h : s.rest = byte :: rest)
    (hbyte : (unescaped byte).WellFormed) : scanCharacters library limits size start (fuel + 1) s =
      scanCharacters library limits size start fuel (s.advance 1) := by
  obtain ⟨hlow, hquote, hbackslash⟩ := hbyte
  rw [scanCharacters, if_neg (by simp [h]), read_zero h, ok_bind]
  exact (if_neg hquote).trans ((if_neg (UInt8.not_lt.2 hlow)).trans (if_pos hbackslash))

/-- After a backslash the scan looks at the next byte. -/
theorem scanCharacters_backslash {escape : UInt8} (h : s.rest = backslash :: escape :: rest) :
    scanCharacters library limits size start (fuel + 1) s = if isSimpleEscape escape then
        scanCharacters library limits size start fuel ((s.advance 1).advance 1)
      else if escape ≠ 'u'.toUInt8 ∨ ((s.advance 1).advance 1).rest.length < 4 then
        jsonError s!"invalid string escape at byte {position size ((s.advance 1).advance 1) - 1}"
      else scanUnicodeEscape size ((s.advance 1).advance 1) >>=
        scanCharacters library limits size start fuel := by
  have h' : (s.advance 1).rest = escape :: rest := by simp [advance, h]
  rw [scanCharacters, if_neg (by simp [h]), read_zero h, ok_bind]
  refine (if_neg (by decide)).trans ((if_neg (by decide)).trans ((if_neg (by simp)).trans ?_))
  rw [if_neg (by simp [h']), read_zero h', ok_bind]

theorem scanCharacters_character {c : Character} (hc : c.WellFormed) :
    scanCharacters library limits size start (fuel + 1) ⟨c.text ++ rest, work, bytes⟩ =
      scanCharacters library limits size start fuel ⟨rest, work, bytes⟩ := by
  cases c with
  | unescaped byte => exact scanCharacters_unescaped rfl hc
  | escaped letter =>
    have hsimple : isSimpleEscape letter = true := hc
    rw [scanCharacters_backslash rfl, if_pos hsimple]
    rfl
  | codeUnit digits =>
    have hlength : digits.length = 4 := hc.1
    rw [scanCharacters_backslash rfl, if_neg (by decide), if_neg]
    · exact congrArg (· >>= scanCharacters library limits size start fuel)
        (scanUnicodeEscape_unit hc)
    · simp [advance, Character.text, hlength]
  | surrogates high low =>
    have hlength : high.length = 4 := hc.1.1
    have htext : (surrogates high low).text ++ rest = backslash :: 'u'.toUInt8 ::
        (high ++ (backslash :: 'u'.toUInt8 :: (low ++ rest))) := by
      simp [Character.text]
    rw [htext, scanCharacters_backslash rfl, if_neg (by decide), if_neg]
    · exact congrArg (· >>= scanCharacters library limits size start fuel)
        (scanUnicodeEscape_pair hc.1 hc.2)
    · simp [advance, hlength]

/-- By induction on the characters that are left. -/
theorem scanCharacters_eq (hlibrary : library.StringsFollowSpec) {s : StringText}
    (hs : s.Accepted limits) (hstart : start.rest = s.text ++ tail)
    (hbytes : bytes + s.unescaped.length ≤ limits.maxTotalStringBytes) (left : StringText) :
    ∀ fuel : ℕ, (∀ c ∈ left, c.WellFormed) → left.length < fuel →
      scanCharacters library limits size start fuel ⟨left.body ++ quote :: tail, work, bytes⟩ =
        .ok (s.unescaped, ⟨tail, work, bytes + s.unescaped.length⟩) := by
  induction left with
  | nil =>
    intro fuel _ hfuel
    obtain _ | fuel := fuel
    · omega
    rw [scanCharacters_close rfl]
    exact finishString_eq hlibrary hs hstart hbytes
  | cons c left ih =>
    intro fuel hformed hfuel
    rw [length_cons] at hfuel
    obtain _ | fuel := fuel
    · omega
    rw [StringText.body_cons, List.append_assoc,
      scanCharacters_character (hformed c (mem_cons_self ..))]
    exact ih fuel (fun c hc => hformed c (mem_cons_of_mem _ hc)) (by omega)

theorem Character.text_length_pos (c : Character) : 0 < c.text.length := by
  cases c <;> simp [Character.text]

theorem StringText.length_le (s : StringText) : s.length ≤ s.body.length := by
  induction s with
  | nil => rfl
  | cons c s ih =>
    have := c.text_length_pos
    simp only [length_cons, StringText.body_cons, length_append]
    omega

theorem scanString_eq (hlibrary : library.StringsFollowSpec) {s : StringText}
    (hs : s.Accepted limits) (hbytes : bytes + s.unescaped.length ≤ limits.maxTotalStringBytes) :
    scanString library limits size ⟨s.text ++ tail, work, bytes⟩ =
      .ok (s.unescaped, ⟨tail, work, bytes + s.unescaped.length⟩) := by
  have hadvance : advance ⟨s.text ++ tail, work, bytes⟩ 1 =
      ⟨s.body ++ quote :: tail, work, bytes⟩ := by
    simp [advance, StringText.text]
  unfold scanString
  rw [hadvance]
  refine scanCharacters_eq hlibrary hs rfl hbytes s _ hs.1.1 ?_
  have := s.length_le
  simp only [StringText.text, length_cons, length_append]
  omega

/-! ### Numbers -/

theorem skipDigits_eq (h : digits.all isDigit = true) (hrest : Stops isDigit rest) :
    skipDigits ⟨digits ++ rest, work, bytes⟩ = ⟨rest, work, bytes⟩ := by
  unfold skipDigits
  rw [hrest.dropWhile h]

theorem Ends.digit (h : Ends tail) : Stops isDigit tail :=
  h.mono fun b hb => by
    simp only [continuesNumber, Bool.or_eq_false_iff] at hb
    exact hb.1.1.1

theorem stops_exponent (h : number.WellFormed) (htail : Ends tail) :
    Stops (fun b => isDigit b || b == '.'.toUInt8) (number.exponentText ++ tail) := by
  unfold exponentText
  cases hexponent : number.exponent with
  | none =>
    refine htail.mono ?_
    intro b hb
    simp only [continuesNumber, Bool.or_eq_false_iff] at hb ⊢
    exact hb.1.1
  | some exponent =>
    obtain ⟨hmark, -⟩ := h.exponent exponent hexponent
    obtain ⟨mark, digits⟩ := exponent
    simp only [exponentMarks, mem_cons, not_mem_nil, or_false] at hmark
    rcases hmark with rfl | rfl | rfl | rfl | rfl | rfl <;> exact cons (by decide)

theorem stops_fraction (h : number.WellFormed) (htail : Ends tail) :
    Stops isDigit (number.fractionText ++ (number.exponentText ++ tail)) := by
  unfold fractionText
  cases number.fraction with
  | none =>
    refine (stops_exponent h htail).mono ?_
    intro b hb
    simp only [Bool.or_eq_false_iff] at hb
    exact hb.1
  | some digits => exact cons (by decide)

theorem scanIntegerPart_eq (h : number.WellFormed) (hrest : Stops isDigit rest) :
    scanIntegerPart ⟨number.integer ++ rest, work, bytes⟩ = .ok ⟨rest, work, bytes⟩ := by
  unfold scanIntegerPart
  rcases h.integer with hzero | ⟨hdigits, hhead⟩
  · rw [hzero, read_zero rfl]
    simp only [cons_append]
    rw [Stops.nextIs hrest]
    rfl
  · obtain ⟨b, digits, hinteger, hb, hall⟩ := hdigits.cons
    have hzero : ¬ b = '0'.toUInt8 := by simpa [hinteger] using hhead
    rw [hinteger, cons_append, read_zero rfl]
    simp only [bind, Except.bind]
    rw [if_neg hzero, if_neg (by simp [hb]), ← cons_append,
      skipDigits_eq (by simp [hb, hall]) hrest]
    rfl

theorem scanFraction_eq (h : number.WellFormed) (htail : Ends tail) :
    scanFraction ⟨number.fractionText ++ (number.exponentText ++ tail), work, bytes⟩ =
      .ok ⟨number.exponentText ++ tail, work, bytes⟩ := by
  have hnext := stops_exponent h htail
  unfold scanFraction fractionText
  cases hfraction : number.fraction with
  | none =>
    rw [if_neg]
    · rfl
    · rw [Stops.nextIs]
      · simp
      · refine hnext.mono ?_
        intro b hb
        simp only [Bool.or_eq_false_iff] at hb
        exact hb.2
  | some digits =>
    obtain ⟨hne, hall⟩ := h.fraction digits hfraction
    simp only [Option.elim_some, cons_append, advance, drop_succ_cons, drop_zero]
    rw [if_pos (by simp [nextIs]), skipDigits_eq hall]
    · rw [if_neg]
      simpa using hne
    · refine hnext.mono ?_
      intro b hb
      simp only [Bool.or_eq_false_iff] at hb
      exact hb.1

/-- After the letter and a sign, where there is one, the scan takes the digits. -/
theorem scanExponent_digits {exponent : Scan} {letter : UInt8} (hs : s.rest = letter :: rest)
    (hletter : letter = 'e'.toUInt8 ∨ letter = 'E'.toUInt8)
    (hexponent :
      (if nextIs (s.advance 1) (fun byte => byte == '+'.toUInt8 || byte == '-'.toUInt8) then
        (s.advance 1).advance 1 else s.advance 1) =
      exponent) (hrest : exponent.rest = b :: digits ++ tail)
    (hdigits : (b :: digits).all isDigit = true) (htail : Ends tail) :
    scanExponent s = .ok ⟨tail, exponent.structuralWork, exponent.totalStringBytes⟩ := by
  have hnext : nextIs s (fun byte => byte == 'e'.toUInt8 || byte == 'E'.toUInt8) = true := by
    refine nextIs_iff.2 ⟨letter, rest, hs, ?_⟩
    rcases hletter with rfl | rfl <;> decide
  have hskip : skipDigits exponent =
      ⟨tail, exponent.structuralWork, exponent.totalStringBytes⟩ := by
    rw [← skipDigits_eq hdigits htail.digit, ← hrest]
  unfold scanExponent
  rw [if_pos hnext]
  simp only [hexponent, hskip, hrest]
  rw [if_neg]
  simp only [length_append, length_cons]
  omega

theorem scanExponent_eq (h : number.WellFormed) (htail : Ends tail) :
    scanExponent ⟨number.exponentText ++ tail, work, bytes⟩ = .ok ⟨tail, work, bytes⟩ := by
  unfold exponentText
  cases hexponent : number.exponent with
  | none =>
    unfold scanExponent
    rw [if_neg]
    · rfl
    · rw [Stops.nextIs]
      · simp
      · refine htail.mono ?_
        intro b hb
        simp only [continuesNumber, Bool.or_eq_false_iff] at hb ⊢
        exact ⟨hb.1.2, hb.2⟩
  | some exponent =>
    obtain ⟨hmark, hdigits⟩ := h.exponent exponent hexponent
    obtain ⟨mark, digits⟩ := exponent
    obtain ⟨b, digits', rfl, hb, hall⟩ := hdigits.cons
    have hall' : (b :: digits').all isDigit = true := by simp [hb, hall]
    have hsign : (b == '+'.toUInt8 || b == '-'.toUInt8) = false := by
      rw [Bool.or_eq_false_iff]
      constructor
      all_goals
        rw [beq_eq_false_iff_ne]
        rintro rfl
        exact absurd hb (by decide)
    have hunsigned : ∀ letter, ¬ nextIs (advance ⟨letter :: (b :: digits' ++ tail), work, bytes⟩ 1)
        (fun byte => byte == '+'.toUInt8 || byte == '-'.toUInt8) = true := by
      intro letter
      exact Bool.eq_false_iff.1 hsign
    simp only [exponentMarks, mem_cons, not_mem_nil, or_false] at hmark
    rcases hmark with rfl | rfl | rfl | rfl | rfl | rfl
    · exact scanExponent_digits rfl (.inl rfl) (if_neg (hunsigned _)) rfl hall' htail
    · exact scanExponent_digits rfl (.inr rfl) (if_neg (hunsigned _)) rfl hall' htail
    · exact scanExponent_digits rfl (.inl rfl) rfl rfl hall' htail
    · exact scanExponent_digits rfl (.inl rfl) rfl rfl hall' htail
    · exact scanExponent_digits rfl (.inr rfl) rfl rfl hall' htail
    · exact scanExponent_digits rfl (.inr rfl) rfl rfl hall' htail

theorem scanUnsigned_eq (h : number.WellFormed) (htail : Ends tail) :
    scanUnsigned ⟨number.integer ++ (number.fractionText ++ (number.exponentText ++ tail)), work,
      bytes⟩ = .ok ⟨tail, work, bytes⟩ := by
  unfold scanUnsigned
  rw [scanIntegerPart_eq h (stops_fraction h htail), ok_bind, scanFraction_eq h htail, ok_bind,
    scanExponent_eq h htail]

theorem convertNumber_eq (hlibrary : library.SignedZeros) (h : number.WellFormed)
    (hvalue : number.IsBinary64 library) (hstart : start.rest = number.text ++ s.rest) :
    convertNumber library start number.negative s = .ok s := by
  obtain ⟨value, hvalue⟩ := hvalue
  have hzero : ¬ (number.negative && (Double.finite value).isZero) = true := by
    intro hzero
    simp only [Bool.and_eq_true, Double.isZero, decide_eq_true_eq] at hzero
    exact hlibrary.negative number h hzero.1 (by rw [hvalue, hzero.2])
  unfold convertNumber
  rw [hstart, take_length_sub, hvalue]
  simp only []
  rw [if_neg (by simp [Double.isFinite]), if_neg hzero]

theorem scanNumber_eq (hlibrary : library.SignedZeros) (h : number.WellFormed)
    (hvalue : number.IsBinary64 library) (htail : Ends tail) :
    scanNumber library ⟨number.text ++ tail, work, bytes⟩ = .ok ⟨tail, work, bytes⟩ := by
  obtain ⟨b, rest, hinteger, hb⟩ := integer_cons h
  have hunsigned : scanUnsigned ⟨number.integer ++ (number.fractionText ++ (number.exponentText ++
      tail)), work, bytes⟩ = .ok ⟨tail, work, bytes⟩ := scanUnsigned_eq h htail
  have hconvert : convertNumber library ⟨number.text ++ tail, work, bytes⟩ number.negative
      ⟨tail, work, bytes⟩ = .ok ⟨tail, work, bytes⟩ :=
    convertNumber_eq hlibrary h hvalue rfl
  unfold scanNumber
  cases hsign : number.negative with
  | false =>
    have hminus : (b == '-'.toUInt8) = false := by
      rw [beq_eq_false_iff_ne]
      rintro rfl
      exact absurd hb (by decide)
    have htext : number.text ++ tail =
        number.integer ++ (number.fractionText ++ (number.exponentText ++ tail)) := by
      simp [NumberText.text, NumberText.signText, hsign]
    rw [hsign, htext] at hconvert
    rw [htext, read_zero (b := b) (by rw [hinteger]; rfl), ok_bind]
    simp only [hminus, Bool.false_eq_true, if_false]
    rw [hunsigned, ok_bind]
    exact hconvert
  | true =>
    have htext : number.text ++ tail = '-'.toUInt8 ::
        (number.integer ++ (number.fractionText ++ (number.exponentText ++ tail))) := by
      simp [NumberText.text, NumberText.signText, hsign]
    rw [hsign, htext] at hconvert
    rw [htext, read_zero rfl, ok_bind]
    simp only [beq_self_eq_true, if_true, advance, drop_succ_cons, drop_zero]
    rw [if_neg (by simp [hinteger]), hunsigned, ok_bind]
    exact hconvert

/-! ### Values -/

theorem ends_delimiter (hafter : Whitespace after) (hb : continuesNumber b = false) :
    Ends (after ++ b :: rest) :=
  ends_append hafter (cons hb)

/-- The first byte of a value, which is no whitespace and closes nothing. -/
theorem JsonText.text_cons (h : t.Accepted library limits) :
    ∃ b rest, t.text = b :: rest ∧ isWhitespace b = false ∧ b ≠ ']'.toUInt8 := by
  cases t with
  | number number =>
    obtain ⟨b, rest, hinteger, hb⟩ := integer_cons h.1
    simp only [JsonText.text, NumberText.text, NumberText.signText, hinteger]
    split_ifs
    · exact ⟨_, _, rfl, by decide, by decide⟩
    · refine ⟨_, _, rfl, ?_, ?_⟩
      · refine Bool.eq_false_iff.2 fun hspace => ?_
        have := continuesNumber_of_whitespace hspace
        simp [continuesNumber, hb] at this
      · rintro rfl
        exact absurd hb (by decide)
  | literalNull | literalTrue | literalFalse | string characters | emptyArray space
  | array space elements | emptyObject space | object space members =>
    exact ⟨_, _, rfl, by decide, by decide⟩

theorem ElementsText.text_cons {t : ElementsText} (h : t.Accepted library limits) :
    ∃ b rest, t.text = b :: rest ∧ isWhitespace b = false ∧ b ≠ ']'.toUInt8 := by
  cases t with
  | last value after | more value after before elements =>
    obtain ⟨b, rest, htext, hb⟩ := JsonText.text_cons h.1
    exact ⟨b, _, by rw [text, htext]; rfl, hb⟩

theorem MembersText.text_cons (t : MembersText) : ∃ rest, t.text = quote :: rest := by
  cases t <;> exact ⟨_, rfl⟩

theorem scanValue_eq (hdepth : depth ≤ limits.maxDepth)
    (hwork : work + 1 ≤ limits.maxStructuralWork) (hspace : Whitespace space)
    (hb : isWhitespace b = false) :
    scanValue library limits size (fuel + 1) depth ⟨space ++ b :: tail, work, bytes⟩ =
      scanToken library limits size (scanElements library limits size fuel depth 0)
        (scanMembers library limits size fuel depth []) ⟨b :: tail, work + 1, bytes⟩ := by
  rw [scanValue, if_neg (Nat.not_lt.2 hdepth), spendWork, if_neg (Nat.not_lt.2 hwork), ok_bind,
    skipWhitespace_eq hspace (cons hb)]
  exact if_neg (by simp)

theorem scanToken_number (hs : s.rest = b :: rest) (hb : b = '-'.toUInt8 ∨ isDigit b = true) :
    scanToken library limits size elements members s = scanNumber library s := by
  have hne : ∀ c : UInt8, c ≠ '-'.toUInt8 → isDigit c = false → ¬ b = c := by
    rintro c hminus hdigit rfl
    rcases hb with rfl | hb
    · exact hminus rfl
    · simp [hb] at hdigit
  rw [scanToken, read_zero hs, ok_bind, if_neg (hne _ (by decide) (by decide)),
    if_neg (hne _ (by decide) (by decide)), if_neg (hne _ (by decide) (by decide)),
    if_neg (hne _ (by decide) (by decide)), if_neg (hne _ (by decide) (by decide)),
    if_neg (hne _ (by decide) (by decide)), if_pos (by simpa using hb)]

/-- A part of a text with these measures keeps to the limits at a depth, after the work and the
bytes. -/
structure Fits (limits : JsonParseLimits) (depth work bytes partDepth values stringBytes : ℕ) :
    Prop where
  depth : partDepth + depth ≤ limits.maxDepth + 1
  work : work + values ≤ limits.maxStructuralWork
  stringBytes : bytes + stringBytes ≤ limits.maxTotalStringBytes

/-- The scan takes the text of the value after whitespace. -/
def JsonText.IsScanned (library : JsonLibrary) (limits : JsonParseLimits) (size : ℕ)
    (t : JsonText) : Prop :=
  t.Accepted library limits → ∀ {fuel depth work bytes : ℕ} {space tail : Bytes},
    Whitespace space → Ends tail → Fits limits depth work bytes t.depth t.values t.stringBytes →
    2 * (t.text ++ tail).length + 1 ≤ fuel →
    scanValue library limits size fuel depth ⟨space ++ (t.text ++ tail), work, bytes⟩ =
      .ok ⟨tail, work + t.values, bytes + t.stringBytes⟩

/-- The scan takes the elements and the end of the array. -/
def ElementsText.IsScanned (library : JsonLibrary) (limits : JsonParseLimits) (size : ℕ)
    (t : ElementsText) : Prop :=
  t.Accepted library limits → ∀ {fuel depth elements work bytes : ℕ} {tail : Bytes},
    elements + t.count ≤ limits.maxArrayElements →
    Fits limits (depth + 1) work bytes t.depth t.values t.stringBytes →
    2 * (t.text ++ tail).length + 2 ≤ fuel →
    scanElements library limits size fuel depth elements ⟨t.text ++ tail, work, bytes⟩ =
      .ok ⟨tail, work + t.values, bytes + t.stringBytes⟩

/-- The scan takes the members and the end of the object. -/
def MembersText.IsScanned (library : JsonLibrary) (limits : JsonParseLimits) (size : ℕ)
    (t : MembersText) : Prop :=
  t.Accepted library limits → t.names.Nodup →
    ∀ {fuel depth work bytes : ℕ} {names : List Bytes} {tail : Bytes},
    names.length + t.names.length ≤ limits.maxObjectMembers →
    (∀ name ∈ t.names, name ∉ names) →
    Fits limits (depth + 1) work bytes t.depth t.values t.stringBytes →
    2 * (t.text ++ tail).length + 2 ≤ fuel →
    scanMembers library limits size fuel depth names ⟨t.text ++ tail, work, bytes⟩ =
      .ok ⟨tail, work + t.values, bytes + t.stringBytes⟩

/-- On a value the scan comes to its first byte. -/
theorem JsonText.scanValue_eq (h : t.Accepted library limits) (hspace : Whitespace space)
    (hfits : Fits limits depth work bytes t.depth t.values t.stringBytes) :
    scanValue library limits size (fuel + 1) depth ⟨space ++ (t.text ++ tail), work, bytes⟩ =
      scanToken library limits size (scanElements library limits size fuel depth 0)
        (scanMembers library limits size fuel depth []) ⟨t.text ++ tail, work + 1, bytes⟩ := by
  obtain ⟨b, rest, htext, hb, -⟩ := JsonText.text_cons h
  have hdepth := hfits.depth
  have hwork := hfits.work
  have hpositive : 1 ≤ t.depth ∧ 1 ≤ t.values := by
    cases t <;> simp [JsonText.depth, JsonText.values]
  rw [htext]
  exact Bindings.scanValue_eq (by omega) (by omega) hspace hb

theorem isScanned_literal (hvalues : t.values = 1) (hbytes : t.stringBytes = 0)
    (htoken : ∀ (elements members : Scan → Scanned Scan) (tail : Bytes) (work bytes : ℕ),
      scanToken library limits size elements members ⟨t.text ++ tail, work, bytes⟩ = .ok ⟨tail,
      work, bytes⟩) : t.IsScanned library limits size := by
  intro h fuel depth work bytes space tail hspace _ hfits hfuel
  obtain _ | fuel := fuel
  · omega
  rw [JsonText.scanValue_eq h hspace hfits, htoken, hvalues, hbytes]
  rfl

theorem isScanned_string (hstrings : library.StringsFollowSpec) (characters : StringText) :
    (JsonText.string characters).IsScanned library limits size := by
  intro h fuel depth work bytes space tail hspace _ hfits hfuel
  obtain _ | fuel := fuel
  · omega
  have hstring : scanString library limits size
      ⟨(JsonText.string characters).text ++ tail, work + 1, bytes⟩ = _ :=
    scanString_eq hstrings h hfits.stringBytes
  rw [JsonText.scanValue_eq h hspace hfits, scanToken, read_zero rfl, ok_bind,
    if_neg (by decide), if_neg (by decide), if_neg (by decide), if_pos rfl, hstring]
  rfl

theorem isScanned_number (hnumbers : library.SignedZeros) (number : NumberText) :
    (JsonText.number number).IsScanned library limits size := by
  intro h fuel depth work bytes space tail hspace htail hfits hfuel
  obtain _ | fuel := fuel
  · omega
  have hnumber : scanNumber library ⟨(JsonText.number number).text ++ tail, work + 1, bytes⟩ = _ :=
    scanNumber_eq hnumbers h.1 h.2 htail
  obtain ⟨b, rest, htext, hb⟩ : ∃ b rest, (JsonText.number number).text = b :: rest ∧
      (b = '-'.toUInt8 ∨ isDigit b = true) := by
    obtain ⟨b, rest, hinteger, hb⟩ := integer_cons h.1
    simp only [JsonText.text, NumberText.text, NumberText.signText, hinteger]
    split_ifs
    · exact ⟨_, _, rfl, .inl rfl⟩
    · exact ⟨_, _, rfl, .inr hb⟩
  have hread : (JsonText.number number).text ++ tail = b :: (rest ++ tail) := by
    rw [htext]
    rfl
  rw [JsonText.scanValue_eq h hspace hfits, scanToken_number hread hb, hnumber]
  rfl

theorem scanToken_array :
    scanToken library limits size elements members ⟨'['.toUInt8 :: rest, work, bytes⟩ =
      scanArray elements ⟨'['.toUInt8 :: rest, work, bytes⟩ := by
  rw [scanToken, read_zero rfl, ok_bind, if_neg (by decide), if_neg (by decide),
    if_neg (by decide), if_neg (by decide), if_pos rfl]

theorem scanToken_object :
    scanToken library limits size elements members ⟨'\x7b'.toUInt8 :: rest, work, bytes⟩ =
      scanObject members ⟨'\x7b'.toUInt8 :: rest, work, bytes⟩ := by
  rw [scanToken, read_zero rfl, ok_bind, if_neg (by decide), if_neg (by decide),
    if_neg (by decide), if_neg (by decide), if_neg (by decide), if_pos rfl]

theorem isScanned_emptyArray (inner : Bytes) :
    (JsonText.emptyArray inner).IsScanned library limits size := by
  intro h
  refine isScanned_literal rfl rfl ?_ h
  intro elements members tail work bytes
  have htext : (JsonText.emptyArray inner).text ++ tail =
      '['.toUInt8 :: (inner ++ ']'.toUInt8 :: tail) := by
    simp [JsonText.text]
  rw [htext, scanToken_array]
  unfold scanArray
  simp only [advance, drop_succ_cons, drop_zero]
  rw [skipWhitespace_eq h (cons (by decide))]
  rfl

theorem isScanned_emptyObject (inner : Bytes) :
    (JsonText.emptyObject inner).IsScanned library limits size := by
  intro h
  refine isScanned_literal rfl rfl ?_ h
  intro elements members tail work bytes
  have htext : (JsonText.emptyObject inner).text ++ tail =
      '\x7b'.toUInt8 :: (inner ++ '\x7d'.toUInt8 :: tail) := by
    simp [JsonText.text]
  rw [htext, scanToken_object]
  unfold scanObject
  simp only [advance, drop_succ_cons, drop_zero]
  rw [skipWhitespace_eq h (cons (by decide))]
  rfl

theorem isScanned_array {elements : ElementsText} (ih : elements.IsScanned library limits size) :
    (JsonText.array inner elements).IsScanned library limits size := by
  intro h fuel depth work bytes space tail hspace _ hfits hfuel
  obtain _ | fuel := fuel
  · omega
  have htext : (JsonText.array inner elements).text ++ tail =
      '['.toUInt8 :: (inner ++ (elements.text ++ tail)) := by
    simp [JsonText.text]
  rw [JsonText.scanValue_eq h hspace hfits, htext, scanToken_array]
  rw [htext] at hfuel
  obtain ⟨hinner, haccepted, hcount⟩ := h
  obtain ⟨hdepth, hwork, hbytes⟩ := hfits
  obtain ⟨b, rest, hb, hspace', hclose⟩ := text_cons haccepted
  simp only [JsonText.depth, JsonText.values, JsonText.stringBytes, length_cons,
    length_append] at hdepth hwork hbytes hfuel ⊢
  unfold scanArray
  simp only [advance, drop_succ_cons, drop_zero]
  rw [skipWhitespace_eq hinner (by rw [hb]; exact cons hspace'), if_neg]
  · rw [ih haccepted (by omega) ⟨by omega, by omega, hbytes⟩
      (by simp only [length_append]; omega), Nat.add_assoc, Nat.add_comm 1]
  · rw [hb]
    simpa [nextIs] using hclose

theorem isScanned_object {members : MembersText} (ih : members.IsScanned library limits size) :
    (JsonText.object inner members).IsScanned library limits size := by
  intro h fuel depth work bytes space tail hspace _ hfits hfuel
  obtain _ | fuel := fuel
  · omega
  have htext : (JsonText.object inner members).text ++ tail =
      '\x7b'.toUInt8 :: (inner ++ (members.text ++ tail)) := by
    simp [JsonText.text]
  rw [JsonText.scanValue_eq h hspace hfits, htext, scanToken_object]
  rw [htext] at hfuel
  obtain ⟨hinner, haccepted, hnodup, hcount⟩ := h
  obtain ⟨hdepth, hwork, hbytes⟩ := hfits
  obtain ⟨rest, hquote⟩ := members.text_cons
  simp only [JsonText.depth, JsonText.values, JsonText.stringBytes, length_cons,
    length_append] at hdepth hwork hbytes hfuel ⊢
  unfold scanObject
  simp only [advance, drop_succ_cons, drop_zero]
  rw [skipWhitespace_eq hinner (by rw [hquote]; exact cons (by decide)), if_neg]
  · rw [ih haccepted hnodup (by simpa using hcount) (by simp) ⟨by omega, by omega, hbytes⟩
      (by simp only [length_append]; omega), Nat.add_assoc, Nat.add_comm 1]
  · rw [hquote]
    exact Bool.eq_false_iff.1 rfl

theorem isScanned_lastElement (ih : value.IsScanned library limits size) :
    (last value after).IsScanned library limits size := by
  intro h fuel depth elements work bytes tail hcount hfits hfuel
  obtain _ | fuel := fuel
  · omega
  obtain ⟨haccepted, hafter⟩ := h
  have htext : (last value after).text ++ tail = value.text ++ (after ++ ']'.toUInt8 :: tail) := by
    simp [ElementsText.text]
  rw [htext] at hfuel ⊢
  have hvalue : scanValue library limits size fuel (depth + 1)
      ⟨[] ++ (value.text ++ (after ++ ']'.toUInt8 :: tail)), work, bytes⟩ = _ :=
    ih haccepted rfl (ends_delimiter hafter (by decide)) hfits (by omega)
  rw [nil_append] at hvalue
  rw [scanElements, if_neg (by simp only [ElementsText.count] at hcount; omega), hvalue, ok_bind,
    skipWhitespace_eq hafter (cons (by decide))]
  rfl

theorem isScanned_nextElement {elements' : ElementsText} (ih : value.IsScanned library limits size)
    (ih' : elements'.IsScanned library limits size) :
    (more value after before elements').IsScanned library limits size := by
  intro h fuel depth elements work bytes tail hcount hfits hfuel
  obtain _ | fuel := fuel
  · omega
  obtain ⟨haccepted, hafter, hbefore, helements⟩ := h
  obtain ⟨hdepth, hwork, hbytes⟩ := hfits
  obtain ⟨b, rest, hb, hspace, -⟩ := text_cons helements
  have htext : (more value after before elements').text ++ tail =
      value.text ++ (after ++ ','.toUInt8 :: (before ++ (elements'.text ++ tail))) := by
    simp [ElementsText.text]
  rw [htext] at hfuel ⊢
  simp only [ElementsText.count, ElementsText.depth, ElementsText.values, ElementsText.stringBytes]
    at hcount hdepth hwork hbytes ⊢
  have hvalue : scanValue library limits size fuel (depth + 1) ⟨[] ++ (value.text ++ (after ++
      ','.toUInt8 :: (before ++ (elements'.text ++ tail)))), work, bytes⟩ = _ :=
    ih haccepted rfl (ends_delimiter hafter (by decide)) ⟨by omega, by omega, by omega⟩ (by omega)
  rw [nil_append] at hvalue
  rw [scanElements, if_neg (by omega), hvalue, ok_bind,
    skipWhitespace_eq hafter (cons (by decide))]
  refine (if_neg (by simp)).trans ?_
  rw [read_zero rfl, ok_bind]
  refine (if_neg (by decide)).trans ((if_neg (by decide)).trans ?_)
  simp only [advance, drop_succ_cons, drop_zero]
  simp only [length_append, length_cons] at hfuel
  rw [skipWhitespace_eq hbefore (by rw [hb]; exact cons hspace),
    ih' helements (by omega) ⟨by omega, by omega, by omega⟩
      (by simp only [length_append]; omega), Nat.add_assoc, Nat.add_assoc]

/-- The part of a member up to the end of its value. -/
theorem scanMembers_value (hstrings : library.StringsFollowSpec)
    (ih : value.IsScanned library limits size) {names : List Bytes} (hname : name.Accepted limits)
    (hcolonBefore : Whitespace colonBefore) (hcolonAfter : Whitespace colonAfter)
    (haccepted : value.Accepted library limits) (hafter : Whitespace after)
    (hb : continuesNumber b = false ∧ isWhitespace b = false)
    (hcount : names.length + 1 ≤ limits.maxObjectMembers) (hfresh : name.unescaped ∉ names)
    (hfits : Fits limits (depth + 1) work bytes value.depth value.values
      (name.unescaped.length + value.stringBytes))
    (hfuel : 2 * (value.text ++ (after ++ b :: rest)).length + 1 ≤ fuel) :
    scanMembers library limits size (fuel + 1) depth names
      ⟨name.text ++ (colonBefore ++ ':'.toUInt8 :: (colonAfter ++ (value.text ++
        (after ++ b :: rest)))), work, bytes⟩ = if b = '\x7d'.toUInt8 then
        .ok ⟨rest, work + value.values, bytes + (name.unescaped.length + value.stringBytes)⟩
      else if b ≠ ','.toUInt8 then jsonError "object entries must be comma-separated"
      else scanMembers library limits size fuel depth (name.unescaped :: names)
        (skipWhitespace ⟨rest, work + value.values,
          bytes + (name.unescaped.length + value.stringBytes)⟩) := by
  obtain ⟨hdepth, hwork, hbytes⟩ := hfits
  have hfits' : Fits limits (depth + 1) work (bytes + name.unescaped.length) value.depth
      value.values value.stringBytes := ⟨hdepth, hwork, by omega⟩
  have hvalue := ih haccepted hcolonAfter (ends_delimiter hafter hb.1) hfits' hfuel
  rw [scanMembers, if_neg (by omega), if_neg (by exact Bool.eq_false_iff.1 rfl),
    scanString_eq hstrings hname (by omega), ok_bind]
  refine (if_neg hfresh).trans ?_
  rw [skipWhitespace_eq hcolonBefore (cons (by decide))]
  refine (if_neg (by simp)).trans ?_
  rw [read_zero rfl, ok_bind]
  refine (if_neg (by simp)).trans ?_
  simp only [advance, drop_succ_cons, drop_zero]
  rw [hvalue, ok_bind, skipWhitespace_eq hafter (cons hb.2), ← Nat.add_assoc]
  refine (if_neg (by simp)).trans ?_
  rw [read_zero rfl, ok_bind]
  rfl

theorem isScanned_lastMember (hstrings : library.StringsFollowSpec)
    (ih : value.IsScanned library limits size) :
    (last name colonBefore colonAfter value after).IsScanned library limits size := by
  intro h _ fuel depth work bytes names tail hcount hfresh hfits hfuel
  obtain _ | fuel := fuel
  · omega
  obtain ⟨hname, hcolonBefore, hcolonAfter, haccepted, hafter⟩ := h
  have htext : (last name colonBefore colonAfter value after).text ++ tail =
      name.text ++ (colonBefore ++ ':'.toUInt8 :: (colonAfter ++ (value.text ++
        (after ++ '\x7d'.toUInt8 :: tail)))) := by
    simp [MembersText.text]
  rw [htext] at hfuel ⊢
  simp only [length_append, length_cons] at hfuel
  rw [scanMembers_value hstrings ih hname hcolonBefore hcolonAfter haccepted hafter
    ⟨by decide, by decide⟩ hcount (hfresh _ (mem_singleton_self _)) hfits
    (by simp only [length_append, length_cons]; omega)]
  exact if_pos rfl

theorem isScanned_nextMember {members : MembersText} (hstrings : library.StringsFollowSpec)
    (ih : value.IsScanned library limits size) (ih' : members.IsScanned library limits size) :
    (more name colonBefore colonAfter value after before members).IsScanned library
      limits size := by
  intro h hnodup fuel depth work bytes names tail hcount hfresh hfits hfuel
  obtain _ | fuel := fuel
  · omega
  obtain ⟨hname, hcolonBefore, hcolonAfter, haccepted, hafter, hbefore, hmembers⟩ := h
  obtain ⟨hdepth, hwork, hbytes⟩ := hfits
  obtain ⟨hne, hnodup'⟩ := nodup_cons.1 hnodup
  have htext : (more name colonBefore colonAfter value after before members).text ++
      tail = name.text ++ (colonBefore ++ ':'.toUInt8 :: (colonAfter ++ (value.text ++
        (after ++ ','.toUInt8 :: (before ++ (members.text ++ tail)))))) := by
    simp [MembersText.text]
  rw [htext] at hfuel ⊢
  obtain ⟨rest, hquote⟩ := members.text_cons
  simp only [length_append, length_cons, MembersText.depth, MembersText.values,
    MembersText.stringBytes, MembersText.names] at hfuel hcount hdepth hwork hbytes hfresh ⊢
  rw [scanMembers_value hstrings ih hname hcolonBefore hcolonAfter haccepted hafter
    ⟨by decide, by decide⟩ (by omega) (hfresh _ (mem_cons_self ..))
    ⟨by omega, by omega, by omega⟩ (by simp only [length_append, length_cons]; omega),
    if_neg (by decide), if_neg (by decide),
    skipWhitespace_eq hbefore (by rw [hquote]; exact cons (by decide)),
    ih' hmembers hnodup' _ _ ⟨by omega, by omega, by omega⟩
      (by simp only [length_append]; omega), Nat.add_assoc, Nat.add_assoc]
  · simp only [length_cons]
    omega
  · intro n hn hmem
    rcases mem_cons.1 hmem with rfl | hmem
    · exact hne hn
    · exact hfresh n (mem_cons_of_mem _ hn) hmem

mutual

theorem JsonText.isScanned (hstrings : library.StringsFollowSpec)
    (hnumbers : library.SignedZeros) : (t : JsonText) → t.IsScanned library limits size
  | .literalNull => isScanned_literal rfl rfl fun _ _ tail work bytes =>
    show scanLiteral size "null" ⟨utf8 "null" ++ tail, work, bytes⟩ = _ from scanLiteral_eq _
  | .literalTrue => isScanned_literal rfl rfl fun _ _ tail work bytes =>
    show scanLiteral size "true" ⟨utf8 "true" ++ tail, work, bytes⟩ = _ from scanLiteral_eq _
  | .literalFalse => isScanned_literal rfl rfl fun _ _ tail work bytes =>
    show scanLiteral size "false" ⟨utf8 "false" ++ tail, work, bytes⟩ = _ from scanLiteral_eq _
  | .string characters => isScanned_string hstrings characters
  | .number number => isScanned_number hnumbers number
  | .emptyArray inner => isScanned_emptyArray inner
  | .array _ elements => isScanned_array (elements.isScanned hstrings hnumbers)
  | .emptyObject inner => isScanned_emptyObject inner
  | .object _ members => isScanned_object (members.isScanned hstrings hnumbers)

theorem ElementsText.isScanned (hstrings : library.StringsFollowSpec)
    (hnumbers : library.SignedZeros) : (t : ElementsText) → t.IsScanned library limits size
  | .last value _ => isScanned_lastElement (value.isScanned hstrings hnumbers)
  | .more value _ _ elements =>
    isScanned_nextElement (value.isScanned hstrings hnumbers) (elements.isScanned hstrings hnumbers)

theorem MembersText.isScanned (hstrings : library.StringsFollowSpec)
    (hnumbers : library.SignedZeros) : (t : MembersText) → t.IsScanned library limits size
  | .last _ _ _ value _ => isScanned_lastMember hstrings (value.isScanned hstrings hnumbers)
  | .more _ _ _ value _ _ members =>
    isScanned_nextMember hstrings (value.isScanned hstrings hnumbers)
      (members.isScanned hstrings hnumbers)

end

theorem IJsonPreflight.run_eq_ok (hstrings : library.StringsFollowSpec)
    (hnumbers : library.SignedZeros) {input : Bytes} {document : JsonText}
    (h : IsIJson library limits input before after document) :
    run library limits input = .ok () := by
  obtain ⟨b, rest, htext, hb, -⟩ := JsonText.text_cons h.accepted
  have hdepth := h.depth
  have hlength : (document.text ++ after).length ≤ input.length := by
    rw [h.text]
    simp only [length_append]
    omega
  have hends : Ends after := by
    rw [← List.append_nil after]
    exact ends_append h.after (by simp [Stops])
  have hvalue : scanValue library limits input.length (2 * input.length + 2) 1
      ⟨[] ++ (document.text ++ after), 0, 0⟩ = _ :=
    document.isScanned hstrings hnumbers h.accepted rfl hends
      ⟨by omega, by simpa using h.structuralWork, by simpa using h.totalStringBytes⟩ (by omega)
  rw [nil_append] at hvalue
  have hskip : skipWhitespace { rest := input } = ⟨document.text ++ after, 0, 0⟩ := by
    rw [h.text]
    exact skipWhitespace_eq h.before (by rw [htext]; exact cons hb)
  have hskip' (work bytes : ℕ) : skipWhitespace ⟨after, work, bytes⟩ = ⟨[], work, bytes⟩ := by
    have hnil : Stops isWhitespace [] := by simp [Stops]
    have heq : skipWhitespace ⟨after ++ [], work, bytes⟩ = ⟨[], work, bytes⟩ :=
      skipWhitespace_eq h.after hnil
    rwa [List.append_nil] at heq
  unfold run
  rw [if_neg (Nat.not_lt.2 h.inputBytes), hskip, hvalue, ok_bind]
  simp only [hskip']
  exact if_pos rfl

end complete

/-- The preflight accepts an input exactly when it is one I-JSON text within the limits, with
whitespace around it; on every input it reads inside the input and comes to an end. -/
theorem preflight_accepts_iff (library : JsonLibrary) (hstrings : library.StringsFollowSpec)
    (hnumbers : library.SignedZeros) (limits : JsonParseLimits) (input : Bytes) :
    (IJsonPreflight.run library limits input = .ok () ↔
        ∃ before after document, IsIJson library limits input before after document) ∧
      IJsonPreflight.run library limits input ≠ .error .outOfBounds ∧
      IJsonPreflight.run library limits input ≠ .error .outOfFuel := by
  have hmeets := IJsonPreflight.run_meets hstrings hnumbers limits input
  refine ⟨⟨fun hrun => ?_, ?_⟩, fun hrun => ?_, fun hrun => ?_⟩
  · rw [hrun] at hmeets
    exact hmeets
  · rintro ⟨before, after, document, h⟩
    exact IJsonPreflight.run_eq_ok hstrings hnumbers h
  all_goals
    rw [hrun] at hmeets
    exact hmeets

/-! ### A library that follows the specifications -/

/-- The characters up to the closing quote. -/
def readCharacters : Bytes → Option StringText
  | [] => none
  | byte :: rest =>
    if byte = quote then if rest = [] then some [] else none
    else if byte = backslash then
      match rest with
      | escape :: a :: b :: c :: d :: rest =>
        if escape = 'u'.toUInt8 then
          if (codeUnit [a, b, c, d]).any (fun unit => 0xd800 ≤ unit ∧ unit ≤ 0xdbff) then
            match rest with
            | _ :: _ :: e :: f :: g :: h :: rest =>
              (readCharacters rest).map (.surrogates [a, b, c, d] [e, f, g, h] :: ·)
            | _ => none
          else (readCharacters rest).map (.codeUnit [a, b, c, d] :: ·)
        else (readCharacters (a :: b :: c :: d :: rest)).map (.escaped escape :: ·)
      | escape :: rest => (readCharacters rest).map (.escaped escape :: ·)
      | [] => none
    else (readCharacters rest).map (.unescaped byte :: ·)

theorem Character.IsUnit.four {digits : Bytes} {property : ℕ → Prop} (h : IsUnit digits property) :
    ∃ a b c d unit, digits = [a, b, c, d] ∧ Bindings.codeUnit [a, b, c, d] = some unit ∧
      property unit := by
  obtain ⟨hlength, unit, hunit, hproperty⟩ := h
  match digits, hlength with
  | [a, b, c, d], _ => exact ⟨a, b, c, d, unit, rfl, hunit, hproperty⟩

theorem readCharacters_character {c : Character} (hc : c.WellFormed) {rest : Bytes} :
    readCharacters (c.text ++ rest) = (readCharacters rest).map (c :: ·) := by
  have hbackslash : ¬ backslash = quote := by decide
  cases c with
  | unescaped byte =>
    obtain ⟨-, hquote, hne⟩ := hc
    change readCharacters (byte :: rest) = _
    rw [readCharacters.eq_def]
    exact (if_neg hquote).trans (if_neg hne)
  | escaped letter =>
    have hletter : ¬ letter = 'u'.toUInt8 := by
      rintro rfl
      simp only [Character.WellFormed] at hc
      exact absurd hc (by decide)
    change readCharacters (backslash :: letter :: rest) = _
    rw [readCharacters.eq_def]
    refine (if_neg hbackslash).trans ((if_pos rfl).trans ?_)
    split
    · next heq =>
        cases heq
        exact if_neg hletter
    · next heq =>
        cases heq
        rfl
    · next heq => cases heq
  | codeUnit digits =>
    obtain ⟨a, b, c, d, unit, rfl, hunit, hrange⟩ := IsUnit.four hc
    change readCharacters (backslash :: 'u'.toUInt8 :: a :: b :: c :: d :: rest) = _
    rw [readCharacters.eq_def]
    refine (if_neg hbackslash).trans ((if_pos rfl).trans ((if_pos rfl).trans (if_neg ?_)))
    rw [hunit, Option.any_some, decide_eq_true_eq]
    omega
  | surrogates high low =>
    obtain ⟨a, b, c, d, unit, rfl, hunit, hrange⟩ := IsUnit.four hc.1
    obtain ⟨e, f, g, h, unit', rfl, -, -⟩ := IsUnit.four hc.2
    change readCharacters (backslash :: 'u'.toUInt8 :: a :: b :: c :: d :: backslash ::
      'u'.toUInt8 :: e :: f :: g :: h :: rest) = _
    rw [readCharacters.eq_def]
    refine (if_neg hbackslash).trans ((if_pos rfl).trans ((if_pos rfl).trans (if_pos ?_)))
    rw [hunit, Option.any_some, decide_eq_true_eq]
    exact hrange

theorem readCharacters_body {s : StringText} (h : s.Lexical) :
    readCharacters (s.body ++ [quote]) = some s := by
  induction s with
  | nil => rfl
  | cons c s ih =>
    rw [StringText.body_cons, List.append_assoc, readCharacters_character
      (h c (mem_cons_self ..)), ih fun c hc => h c (mem_cons_of_mem _ hc)]
    rfl

theorem validUtf8_iff {bytes : Bytes} :
    ValidUtf8 bytes ↔ bytes.toByteArray.validateUTF8 = true := by
  rw [ByteArray.validateUTF8_eq_true_iff]
  constructor
  · rintro ⟨chars, rfl⟩
    exact ⟨chars, rfl⟩
  · rintro ⟨chars, hchars⟩
    exact ⟨chars, toByteArray_inj.1 hchars⟩

instance (bytes : Bytes) : Decidable (ValidUtf8 bytes) := decidable_of_iff' _ validUtf8_iff

/-- The strings of this library are read as they are specified; of the numbers it knows the whole
ones of up to fifteen digits, which are exact. -/
def exactLibrary : JsonLibrary where
  parseString
    | [] => none
    | _ :: rest => (readCharacters rest).bind fun s =>
      if ValidUtf8 s.body then some s.unescaped else none
  fromChars token :=
    if token.all isDigit ∧ token.length ≤ 15 then
      some (.finite (token.foldl (fun value digit => 10 * value + (digit.toNat - 48)) 0 : ℕ))
    else none
  parseDocument _ := .error []
  toChars _ := none
  sha256 _ := []

theorem exactLibrary_strings : exactLibrary.StringsFollowSpec where
  valid s hs := by
    change (readCharacters (s.body ++ [quote])).bind _ = _
    rw [readCharacters_body hs.1]
    exact if_pos hs.2
  invalid s hs hutf := by
    change (readCharacters (s.body ++ [quote])).bind _ = _
    rw [readCharacters_body hs]
    exact if_neg hutf

theorem exactLibrary_zeros : exactLibrary.SignedZeros where
  negative number _ hnegative := by
    have htext : number.text.all isDigit = false := by
      rw [NumberText.text, NumberText.signText, hnegative]
      rfl
    simp only [exactLibrary]
    rw [if_neg (by simp [htext])]
    exact nofun
  positive number _ _ := by
    unfold exactLibrary
    simp only []
    split_ifs <;> simp

theorem preflight_accepts_iff_object :
    ∃ before after document,
      IsIJson exactLibrary {} (utf8 " \x7b\"a\\u0062\": [1, null]\x7d") before after document :=
  (preflight_accepts_iff exactLibrary exactLibrary_strings exactLibrary_zeros {} _).1.1
    (by decide +kernel)

end AgenticCircuit.Bindings
