import AgenticCircuit.Frontend.CompactText
import AgenticCircuit.Tools.JsonLoads

/-! # Loading canonical texts

`json.loads` reads a canonical text without floats back as the value it was written from, the items
of every `dict` in canonical order. -/

namespace AgenticCircuit.Tools

open List
open Bindings Frontend

/-! ### Strings -/

section strings

variable {E : Type}

theorem hexUnit_control : ∀ n : Fin 0x20, hexUnit ⟨'0'.toNat, by decide⟩ ⟨'0'.toNat, by decide⟩
    ⟨(Bindings.hexDigit (n.val / 16)).toNat, by
      have := (Bindings.hexDigit (n.val / 16)).toNat_lt; omega⟩
    ⟨(Bindings.hexDigit (n.val % 16)).toNat, by
      have := (Bindings.hexDigit (n.val % 16)).toNat_lt; omega⟩ =
      some (Fin.ofNat 0x10000 n.val) := by
  decide +kernel

theorem scanString_plain {c : CodePoint} (rest : PythonString) (hquote : c.val ≠ '"'.toNat)
    (hcontrol : ¬ c.val < 0x20) (hbackslash : c.val ≠ '\\'.toNat) :
    scanString (E := E) (c :: rest) = startWith c (scanString rest) := by
  rw [scanString.eq_def]
  exact (if_neg hquote).trans ((if_neg hcontrol).trans (if_pos hbackslash))

theorem scanString_letter {backslash letter value : CodePoint} (rest : PythonString)
    (hbackslash : backslash.val = '\\'.toNat) (hletter : letter.val ≠ 'u'.toNat)
    (hvalue : escapedValue letter = some value) :
    scanString (E := E) (backslash :: letter :: rest) = startWith value (scanString rest) := by
  rw [scanString.eq_def]
  simp only []
  rw [if_neg (by rw [hbackslash]; decide), if_neg (by rw [hbackslash]; decide),
    if_neg (not_not.2 hbackslash), if_pos hletter, hvalue]

/-- An escape of four digits that is no surrogate. -/
theorem scanString_unit (backslash u : CodePoint) {h₁ h₂ h₃ h₄ : CodePoint} {unit : Fin 0x10000}
    (rest : PythonString) (hbackslash : backslash.val = '\\'.toNat) (hu : u.val = 'u'.toNat)
    (hunit : hexUnit h₁ h₂ h₃ h₄ = some unit) (hlow : unit.val < 0xd800) :
    scanString (E := E) (backslash :: u :: h₁ :: h₂ :: h₃ :: h₄ :: rest) =
      startWith (loneUnit unit) (scanString rest) := by
  rw [scanString.eq_def]
  simp only []
  rw [if_neg (by rw [hbackslash]; decide), if_neg (by rw [hbackslash]; decide),
    if_neg (not_not.2 hbackslash), if_neg (not_not.2 hu), hunit]
  exact if_neg (by omega)

theorem scanString_escape (c : CodePoint) (rest : PythonString) :
    scanString (E := E) (escapeCodePoint c ++ rest) = startWith c (scanString rest) := by
  unfold escapeCodePoint
  split_ifs with h₁ h₂ h₃ h₄ h₅ h₆ h₇ h₈
  · exact scanString_letter rest rfl (by decide) (congrArg some (Fin.ext h₁.symm))
  · exact scanString_letter rest rfl (by decide) (congrArg some (Fin.ext h₂.symm))
  · exact scanString_letter rest rfl (by decide) (congrArg some (Fin.ext h₃.symm))
  · exact scanString_letter rest rfl (by decide) (congrArg some (Fin.ext h₄.symm))
  · exact scanString_letter rest rfl (by decide) (congrArg some (Fin.ext h₅.symm))
  · exact scanString_letter rest rfl (by decide) (congrArg some (Fin.ext h₆.symm))
  · exact scanString_letter rest rfl (by decide) (congrArg some (Fin.ext h₇.symm))
  · have hval : (Fin.ofNat 0x10000 c.val).val = c.val := Nat.mod_eq_of_lt (by omega)
    have hunit := scanString_unit (E := E) ⟨'\\'.toNat, by decide⟩ ⟨'u'.toNat, by decide⟩ rest rfl rfl
      (hexUnit_control ⟨c.val, h₈⟩) (by rw [hval]; omega)
    rw [show loneUnit (Fin.ofNat 0x10000 c.val) = c from Fin.ext hval] at hunit
    exact hunit
  · exact scanString_plain rest h₂ h₈ h₁

theorem scanString_dump (value rest : PythonString) :
    scanString (E := E) (value.flatMap escapeCodePoint ++ (ascii [quote] ++ rest)) =
      .ok (value, rest) := by
  induction value with
  | nil =>
    rw [flatMap_nil, nil_append, scanString.eq_def]
    exact if_pos rfl
  | cons c value ih =>
    rw [flatMap_cons, append_assoc, scanString_escape, ih]
    rfl

end strings

/-! ### Numbers -/

section numbers

/-- A number ends before the text. -/
def EndsNumber (rest : PythonString) : Prop :=
  ∀ c ∈ rest.head?, isDecimal c = false ∧ c.val ≠ '.'.toNat ∧ c.val ≠ 'e'.toNat ∧ c.val ≠ 'E'.toNat

variable {rest : PythonString}

theorem isDecimal_ascii {text : Bytes} (h : text.all isDigit = true) :
    ∀ c ∈ ascii text, isDecimal c = true := by
  intro c hc
  obtain ⟨byte, hbyte, rfl⟩ := mem_map.1 hc
  have hrange := digit_le (all_eq_true.1 h byte hbyte)
  have hzero : '0'.toNat = 48 := rfl
  have hnine : '9'.toNat = 57 := rfl
  simp only [isDecimal, Bool.and_eq_true, decide_eq_true_eq]
  omega

theorem decimalValue_ascii (text : Bytes) : decimalValue (ascii text) = digitsValue text :=
  foldl_map

theorem takeDigits {digits : PythonString} (h : ∀ c ∈ digits, isDecimal c = true)
    (hrest : EndsNumber rest) :
    (digits ++ rest).takeWhile isDecimal = digits ∧ (digits ++ rest).dropWhile isDecimal = rest := by
  rw [takeWhile_append_of_pos h, dropWhile_append_of_pos h]
  cases rest with
  | nil => simp
  | cons c rest =>
    have hc := (hrest c rfl).1
    simp [hc]

theorem integerPart_decimal (n : ℕ) (hrest : EndsNumber rest) :
    integerPart (ascii (decimalText n) ++ rest) = some (ascii (decimalText n), rest) := by
  rcases Nat.eq_zero_or_pos n with rfl | hpos
  · rfl
  · obtain ⟨⟨hne, hall⟩, -, hlead⟩ := decimalText_natCast n
    have hlead := hlead (by omega)
    generalize decimalText n = text at hne hall hlead
    cases text with
    | nil => exact absurd rfl hne
    | cons digit digits =>
      have hdecimal := isDecimal_ascii hall
      have hzero : digit.toNat ≠ '0'.toNat := fun heq =>
        hlead (congrArg some (UInt8.toNat_inj.1 heq))
      rw [ascii, map_cons, forall_mem_cons] at hdecimal
      obtain ⟨htake, hdrop⟩ := takeDigits hdecimal.2 hrest
      rw [ascii, map_cons, cons_append, integerPart, if_neg hzero, if_pos hdecimal.1, htake, hdrop]

theorem fractionPart_ends (h : EndsNumber rest) : fractionPart rest = ([], rest) := by
  cases rest with
  | nil => rfl
  | cons c rest =>
    have hpoint : c.val ≠ 46 := (h c rfl).2.1
    simp [fractionPart, hpoint]

theorem exponentPart_ends (h : EndsNumber rest) : exponentPart rest = ([], rest) := by
  cases rest with
  | nil => rfl
  | cons c rest =>
    obtain ⟨-, -, hsmall, hlarge⟩ := h c rfl
    have hmark : ¬ (c.val = 101 ∨ c.val = 69) := not_or.2 ⟨hsmall, hlarge⟩
    simp [exponentPart, hmark]

/-- The digits of a portable integer are few. -/
theorem decimalText_length {n : ℕ} (h : n ≤ 2 ^ 53 - 1) : (decimalText n).length ≤ 16 := by
  rcases Nat.eq_zero_or_pos n with rfl | hpos
  · decide
  · obtain ⟨⟨hne, hall⟩, hvalue, hlead⟩ := decimalText_natCast n
    have hlead := hlead (by omega)
    generalize decimalText n = text at hne hall hvalue hlead
    cases text with
    | nil => exact absurd rfl hne
    | cons digit digits =>
      have hle := le_digitsValue hall fun heq => hlead (congrArg some heq)
      rw [hvalue] at hle
      have hlt : 10 ^ digits.length < 10 ^ 16 := by omega
      have := (Nat.pow_lt_pow_iff_right (by omega)).1 hlt
      rw [length_cons]
      omega

variable {E : Type} (parseFloat : PythonString → Double)

/-- A number without a fraction and an exponent. -/
theorem scanNumber_integer {text sign unsigned integer rest : PythonString}
    (hsign : minusPart text = (sign, unsigned))
    (hinteger : integerPart unsigned = some (integer, rest)) (hrest : EndsNumber rest)
    (hfew : integer.length ≤ maxIntDigits) : scanNumber (E := E) parseFloat text =
      some (.ok (.int (if sign ≠ [] then -decimalValue integer else decimalValue integer), rest)) := by
  unfold scanNumber
  rw [hsign]
  simp only [hinteger, Option.bind_eq_bind, Option.bind_some, fractionPart_ends hrest,
    exponentPart_ends hrest]
  rw [if_neg (by simp), if_neg (by omega)]

/-- A portable integer is read back. -/
theorem scanNumber_decimal {value : ℤ} (h : value.natAbs ≤ 2 ^ 53 - 1) {rest : PythonString}
    (hrest : EndsNumber rest) : scanNumber (E := E) parseFloat (ascii (decimalText value) ++ rest) =
      some (.ok (.int value, rest)) := by
  have hinteger := integerPart_decimal value.natAbs hrest
  have hvalue := decimalValue_ascii (decimalText value.natAbs)
  rw [(decimalText_natCast value.natAbs).value] at hvalue
  have hfew : (ascii (decimalText (value.natAbs : ℤ))).length ≤ maxIntDigits := by
    have := decimalText_length h
    rw [ascii, length_map, maxIntDigits]
    omega
  rcases Int.lt_or_le value 0 with hneg | hpos
  · have hsign : minusPart (ascii (decimalText value) ++ rest) =
        ([⟨'-'.toNat, by decide⟩], ascii (decimalText value.natAbs) ++ rest) := by
      rw [decimalText_neg hneg]
      rfl
    rw [scanNumber_integer parseFloat hsign hinteger hrest hfew, hvalue, if_pos (by simp)]
    congr 4
    omega
  · have habs : (value.natAbs : ℤ) = value := by omega
    rw [habs] at hinteger hvalue hfew
    have hsign : minusPart (ascii (decimalText value) ++ rest) =
        ([], ascii (decimalText value) ++ rest) := by
      obtain ⟨⟨hne, hall⟩, -, -⟩ := decimalText_natCast value.natAbs
      rw [habs] at hne hall
      generalize decimalText value = digits at hne hall
      cases digits with
      | nil => exact absurd rfl hne
      | cons digit digits =>
        rw [all_cons, Bool.and_eq_true] at hall
        have hrange := digit_le hall.1
        have hminus : digit.toNat ≠ 45 := by omega
        exact if_neg hminus
    rw [scanNumber_integer parseFloat hsign hinteger hrest hfew, hvalue, if_neg (by simp), habs]

end numbers

/-! ### Values -/

mutual

/-- How deep the lists and `dict`s of a value are nested. -/
def nesting : PythonValue → ℕ
  | .list items => nestingItems items + 1
  | .dict items => nestingEntries items + 1
  | _ => 0

def nestingItems : List PythonValue → ℕ
  | [] => 0
  | item :: items => max (nesting item) (nestingItems items)

def nestingEntries : List (PythonString × PythonValue) → ℕ
  | [] => 0
  | (_, item) :: items => max (nesting item) (nestingEntries items)

end

section values

variable {E : Type} {parseFloat : PythonString → Double} {hooks : LoadsHooks E}

variable {c : CodePoint} {value : PythonValue}

theorem behind_self (literal : String) (rest : PythonString) :
    behind literal (codePoints literal ++ rest) = some rest := by
  rw [behind, if_pos (prefix_append ..), drop_left]

theorem behind_ne {literal : String} {d : CodePoint} {rest tail : PythonString}
    (hliteral : codePoints literal = d :: tail) (hne : c ≠ d) :
    behind literal (c :: rest) = none := by
  rw [behind, if_neg]
  rw [hliteral, cons_prefix_cons]
  exact fun h => hne h.1.symm

theorem scanScalar_number {text : PythonString} {number : Loaded E (PythonValue × PythonString)}
    (hnull : c.val ≠ 'n'.toNat) (htrue : c.val ≠ 't'.toNat) (hfalse : c.val ≠ 'f'.toNat)
    (h : scanNumber parseFloat (c :: text) = some number) :
    scanScalar parseFloat hooks (c :: text) = number := by
  have hn : behind "null" (c :: text) = none :=
    behind_ne (d := ⟨'n'.toNat, by decide⟩) rfl fun heq => hnull (congrArg Fin.val heq)
  have ht : behind "true" (c :: text) = none :=
    behind_ne (d := ⟨'t'.toNat, by decide⟩) rfl fun heq => htrue (congrArg Fin.val heq)
  have hf : behind "false" (c :: text) = none :=
    behind_ne (d := ⟨'f'.toNat, by decide⟩) rfl fun heq => hfalse (congrArg Fin.val heq)
  unfold scanScalar
  rw [hn, ht, hf, h]

/-- A number begins with a digit or with its sign. -/
theorem decimalText_head (value : ℤ) : ∃ c rest, ascii (decimalText value) = c :: rest ∧
    (c.val = '-'.toNat ∨ 48 ≤ c.val ∧ c.val ≤ 57) := by
  have hnat (n : ℕ) : ∃ c rest, ascii (decimalText n) = c :: rest ∧ 48 ≤ c.val ∧ c.val ≤ 57 := by
    obtain ⟨⟨hne, hall⟩, -, -⟩ := decimalText_natCast n
    generalize decimalText n = digits at hne hall
    cases digits with
    | nil => exact absurd rfl hne
    | cons digit digits =>
      rw [all_cons, Bool.and_eq_true] at hall
      exact ⟨_, _, rfl, digit_le hall.1⟩
  rcases Int.lt_or_le value 0 with hneg | hpos
  · rw [decimalText_neg hneg]
    exact ⟨_, _, rfl, .inl rfl⟩
  · obtain ⟨c, rest, htext, hdigit⟩ := hnat value.toNat
    rw [Int.toNat_of_nonneg hpos] at htext
    exact ⟨c, rest, htext, .inr hdigit⟩

/-- The first code point of a canonical text. -/
theorem compactText_head (h : hasFloat value = false) :
    ∃ c rest, compactText value = c :: rest ∧ isJsonSpace c = false ∧ c.val ≠ ']'.toNat ∧
      c.val < 0x80 := by
  cases value with
  | none | list items | dict items =>
    rw [compactText]
    exact ⟨_, _, rfl, by decide, by decide, by decide⟩
  | bool value =>
    cases value <;> exact ⟨_, _, rfl, by decide, by decide, by decide⟩
  | int value =>
    obtain ⟨c, rest, htext, hc⟩ := decimalText_head value
    rw [compactText]
    have hminus : '-'.toNat = 45 := rfl
    refine ⟨c, rest, htext, ?_, ?_, by omega⟩
    · simp only [isJsonSpace, Bool.or_eq_false_iff, decide_eq_false_iff_not]
      omega
    · have : ']'.toNat = 93 := rfl
      omega
  | float value => simp [hasFloat] at h
  | str value =>
    rw [compactText, dumpString]
    exact ⟨_, _, rfl, by decide, by decide, by decide⟩

theorem skipSpace_compact (h : hasFloat value = false) (rest : PythonString) :
    skipSpace (compactText value ++ rest) = compactText value ++ rest := by
  obtain ⟨c, tail, htext, hspace, -⟩ := compactText_head h
  rw [htext, cons_append, skipSpace, dropWhile_cons_of_neg (by simp [hspace])]

theorem compactText_pos (value : PythonValue) (h : hasFloat value = false) :
    1 ≤ (compactText value).length := by
  obtain ⟨c, tail, htext, -, -⟩ := compactText_head h
  rw [htext, length_cons]
  omega

/-- Behind a code point that belongs to no number. -/
theorem endsNumber_cons (rest : PythonString) (h : isDecimal c = false) (hpoint : c.val ≠ '.'.toNat)
    (hsmall : c.val ≠ 'e'.toNat) (hlarge : c.val ≠ 'E'.toNat) : EndsNumber (c :: rest) := by
  rintro d ⟨⟩
  exact ⟨h, hpoint, hsmall, hlarge⟩

variable (parseFloat hooks) in
/-- The text of a value is read back as the value, whatever stands behind it. -/
def ReadsBack (value : PythonValue) : Prop :=
  ∀ (fuel depth : ℕ) (rest : PythonString), 3 * (compactText value).length ≤ fuel →
    nesting value ≤ depth → EndsNumber rest →
      scanOnce parseFloat hooks fuel depth (compactText value ++ rest) = .ok (value, rest)

variable {c : CodePoint} {rest rest' text : PythonString} {depth fuel : ℕ}
    {item : PythonString × PythonValue} {items : List (PythonString × PythonValue)}

/-- Where a scalar begins. -/
theorem scanOnce_scalar (htext : text = c :: rest) (fuel depth : ℕ) (hquote : c.val ≠ '"'.toNat)
    (hbrace : c.val ≠ '\x7b'.toNat) (hbracket : c.val ≠ '['.toNat) :
    scanOnce parseFloat hooks (fuel + 1) depth text = scanScalar parseFloat hooks text := by
  rw [htext, scanOnce.eq_def]
  exact (if_neg hquote).trans ((if_neg hbrace).trans (if_neg hbracket))

theorem readsBack_none : ReadsBack parseFloat hooks .none := by
  intro fuel depth rest hfuel _ _
  have hpos := compactText_pos .none rfl
  obtain _ | fuel := fuel
  · omega
  have hletters : ascii (utf8 "null") = codePoints "null" := by decide
  have hhead : codePoints "null" = ⟨'n'.toNat, by decide⟩ :: codePoints "ull" := by decide
  have hnull := behind_self "null" rest
  rw [compactText, hletters]
  rw [hhead, cons_append] at hnull ⊢
  rw [scanOnce_scalar rfl fuel depth (by decide) (by decide) (by decide)]
  unfold scanScalar
  rw [hnull]

theorem readsBack_bool (value : Bool) : ReadsBack parseFloat hooks (.bool value) := by
  intro fuel depth rest hfuel _ _
  have hpos := compactText_pos (.bool value) rfl
  obtain _ | fuel := fuel
  · omega
  have hnull : codePoints "null" = ⟨'n'.toNat, by decide⟩ :: codePoints "ull" := by decide
  have htrue : codePoints "true" = ⟨'t'.toNat, by decide⟩ :: codePoints "rue" := by decide
  have hfalse : codePoints "false" = ⟨'f'.toNat, by decide⟩ :: codePoints "alse" := by decide
  rw [compactText]
  cases value with
  | true =>
    have hletters : ascii (utf8 "true") = codePoints "true" := by decide
    have hself := behind_self "true" rest
    rw [if_pos rfl, hletters]
    rw [htrue, cons_append] at hself ⊢
    rw [scanOnce_scalar rfl fuel depth (by decide) (by decide) (by decide)]
    unfold scanScalar
    rw [hself, behind_ne hnull (by decide)]
  | false =>
    have hletters : ascii (utf8 "false") = codePoints "false" := by decide
    have hself := behind_self "false" rest
    rw [if_neg (by decide), hletters]
    rw [hfalse, cons_append] at hself ⊢
    rw [scanOnce_scalar rfl fuel depth (by decide) (by decide) (by decide)]
    unfold scanScalar
    rw [hself, behind_ne hnull (by decide), behind_ne htrue (by decide)]

theorem readsBack_int {value : ℤ} (h : value.natAbs ≤ 2 ^ 53 - 1) :
    ReadsBack parseFloat hooks (.int value) := by
  intro fuel depth rest hfuel _ hrest
  have hpos := compactText_pos (.int value) rfl
  obtain _ | fuel := fuel
  · omega
  have hnumber := scanNumber_decimal (E := E) parseFloat h hrest
  obtain ⟨c, tail, htext, hc⟩ := decimalText_head value
  have hother {letter : ℕ} (hminus : letter ≠ 45) (hdigit : letter < 48 ∨ 57 < letter) :
      c.val ≠ letter := by
    have : '-'.toNat = 45 := rfl
    omega
  rw [compactText]
  rw [htext, cons_append] at hnumber ⊢
  rw [scanOnce_scalar rfl fuel depth (hother (by decide) (by decide)) (hother (by decide) (by decide))
    (hother (by decide) (by decide))]
  exact scanScalar_number (hother (by decide) (by decide)) (hother (by decide) (by decide))
    (hother (by decide) (by decide)) hnumber

theorem readsBack_str (value : PythonString) : ReadsBack parseFloat hooks (.str value) := by
  intro fuel depth rest hfuel _ _
  have hpos := compactText_pos (.str value) rfl
  obtain _ | fuel := fuel
  · omega
  have hscan := scanString_dump (E := E) value rest
  have htext : compactText (.str value) ++ rest =
      ⟨'"'.toNat, by decide⟩ :: (value.flatMap escapeCodePoint ++ (ascii [quote] ++ rest)) := by
    rw [compactText, dumpString, append_assoc, append_assoc]
    rfl
  rw [htext, scanOnce.eq_def]
  refine (if_pos rfl).trans ?_
  rw [hscan]
  rfl

theorem skipSpace_cons (rest : PythonString) (h : isJsonSpace c = false) :
    skipSpace (c :: rest) = c :: rest :=
  dropWhile_cons_of_neg (by simp [h])

theorem skipSpace_comma {first : PythonString} {texts : List PythonString} (rest : PythonString)
    (h : ∃ c tail, first = c :: tail ∧ isJsonSpace c = false) :
    skipSpace (commaTexts (first :: texts) ++ rest) = commaTexts (first :: texts) ++ rest := by
  obtain ⟨c, tail, rfl, hspace⟩ := h
  cases texts <;> exact skipSpace_cons _ hspace

/-! ### Lists -/

/-- The last element. -/
theorem parseElements_last {item : PythonValue}
    (h : scanOnce parseFloat hooks fuel depth text = .ok (item, ascii (utf8 "]") ++ rest)) :
    parseElements parseFloat hooks (fuel + 1) depth text = .ok ([item], rest) := by
  have hbracket : ascii (utf8 "]") ++ rest = ⟨']'.toNat, by decide⟩ :: rest := rfl
  rw [parseElements, h, hbracket]
  simp only [bind, Except.bind]
  rw [skipSpace_cons rest (by decide)]
  rfl

/-- An element with others behind it. -/
theorem parseElements_more {item : PythonValue} {items : List PythonValue}
    (h : scanOnce parseFloat hooks fuel depth text = .ok (item, ascii (utf8 ",") ++ rest))
    (hmore : parseElements parseFloat hooks fuel depth (skipSpace rest) = .ok (items, rest')) :
    parseElements parseFloat hooks (fuel + 1) depth text = .ok (item :: items, rest') := by
  have hcomma : ascii (utf8 ",") ++ rest = ⟨','.toNat, by decide⟩ :: rest := rfl
  rw [parseElements, h, hcomma]
  simp only [bind, Except.bind]
  rw [skipSpace_cons rest (by decide)]
  simp only []
  rw [if_neg (by decide), if_neg (by decide), hmore]
  rfl

theorem parseElements_comma {items : List PythonValue} (hne : items ≠ [])
    (hall : ∀ item ∈ items, hasFloat item = false ∧ ReadsBack parseFloat hooks item)
    (fuel depth : ℕ) (rest : PythonString)
    (hfuel : 3 * (commaTexts (items.map compactText)).length + 1 ≤ fuel)
    (hdepth : ∀ item ∈ items, nesting item ≤ depth) : parseElements parseFloat hooks fuel depth
        (commaTexts (items.map compactText) ++ (ascii (utf8 "]") ++ rest)) = .ok (items, rest) := by
  induction items generalizing fuel with
  | nil => exact absurd rfl hne
  | cons item items ih =>
    obtain _ | fuel := fuel
    · omega
    obtain ⟨⟨hfloat, hread⟩, hrest⟩ := forall_mem_cons.1 hall
    obtain ⟨hfirst, hdeep⟩ := forall_mem_cons.1 hdepth
    cases items with
    | nil =>
      refine parseElements_last (hread fuel depth _ ?_ hfirst ?_)
      · change 3 * (compactText item).length + 1 ≤ fuel + 1 at hfuel
        omega
      · exact endsNumber_cons rest (by decide) (by decide) (by decide) (by decide)
    | cons item' items =>
      have htext : commaTexts ((item :: item' :: items).map compactText) =
          compactText item ++ ascii (utf8 ",") ++
            commaTexts ((item' :: items).map compactText) := rfl
      have hcomma : (ascii (utf8 ",")).length = 1 := by decide
      rw [htext, length_append, length_append, hcomma] at hfuel
      rw [htext, append_assoc, append_assoc]
      refine parseElements_more (hread fuel depth _ (by omega) hfirst ?_) ?_
      · exact endsNumber_cons _ (by decide) (by decide) (by decide) (by decide)
      · obtain ⟨c, tail, hhead, hspace, -⟩ :=
          compactText_head (hrest item' (mem_cons_self ..)).1
        rw [map_cons, skipSpace_comma _ ⟨c, tail, hhead, hspace⟩, ← map_cons]
        exact ih (cons_ne_nil _ _) hrest fuel (by omega) hdeep

theorem readsBack_list {items : List PythonValue}
    (hall : ∀ item ∈ items, hasFloat item = false ∧ ReadsBack parseFloat hooks item)
    (hdepth : ∀ item ∈ items, nesting item ≤ nestingItems items) :
    ReadsBack parseFloat hooks (.list items) := by
  intro fuel depth rest hfuel hnested _
  rw [nesting] at hnested
  rw [compactText, length_append, length_append, compactItems_eq] at hfuel
  have hopen : (ascii (utf8 "[")).length = 1 := by decide
  have hclose : (ascii (utf8 "]")).length = 1 := by decide
  obtain ⟨fuel, rfl⟩ : ∃ n, fuel = n + 2 := ⟨fuel - 2, by omega⟩
  obtain _ | depth := depth
  · omega
  have hbracket (text : PythonString) :
      ascii (utf8 "[") ++ text = ⟨'['.toNat, by decide⟩ :: text := rfl
  have harray : parseArray parseFloat hooks (fuel + 1) depth
      (skipSpace (commaTexts (items.map compactText) ++ (ascii (utf8 "]") ++ rest))) =
        .ok (items, rest) := by
    cases items with
    | nil =>
      have hend : ascii (utf8 "]") ++ rest = ⟨']'.toNat, by decide⟩ :: rest := rfl
      rw [map_nil, commaTexts, nil_append, hend, skipSpace_cons rest (by decide),
        parseArray.eq_def]
      rfl
    | cons item items =>
      obtain ⟨c, tail, hhead, hspace, hne, -⟩ :=
        compactText_head (hall item (mem_cons_self ..)).1
      have hparse := parseElements_comma (cons_ne_nil _ _) hall fuel depth
        rest (by omega) fun item hitem => (hdepth item hitem).trans (by omega)
      rw [map_cons] at hparse ⊢
      rw [skipSpace_comma _ ⟨c, tail, hhead, hspace⟩]
      obtain ⟨tail', htail'⟩ : ∃ tail', commaTexts (compactText item :: items.map compactText) ++
          (ascii (utf8 "]") ++ rest) = c :: tail' := by
        rw [hhead]
        cases items <;> exact ⟨_, rfl⟩
      rw [htail'] at hparse ⊢
      rw [parseArray, if_neg hne]
      exact hparse
  rw [compactText, compactItems_eq, append_assoc, append_assoc, hbracket, scanOnce.eq_def]
  refine (if_neg (by decide)).trans ((if_neg (by decide)).trans ((if_pos rfl).trans ?_))
  simp only [harray]
  rfl

/-! ### `dict`s -/

/-- The text of an item. -/
def entryText (item : PythonString × PythonValue) : PythonString :=
  dumpString item.1 ++ ascii (utf8 ":") ++ compactText item.2

theorem entryText_append (item : PythonString × PythonValue) (rest : PythonString) :
    entryText item ++ rest = ⟨'"'.toNat, by decide⟩ :: (item.1.flatMap escapeCodePoint ++
      (ascii [quote] ++ (⟨':'.toNat, by decide⟩ :: (compactText item.2 ++ rest)))) := by
  rw [entryText, dumpString]
  simp only [append_assoc]
  rfl

theorem parseColon_colon (rest : PythonString) :
    parseColon (E := E) (⟨':'.toNat, by decide⟩ :: rest) = .ok rest := by
  rw [parseColon, if_pos rfl]

theorem entryText_head (item : PythonString × PythonValue) :
    ∃ c tail, entryText item = c :: tail ∧ isJsonSpace c = false :=
  ⟨⟨'"'.toNat, by decide⟩, _, rfl, by decide⟩

/-- The last member. -/
theorem parseMembers_last (hfloat : hasFloat item.2 = false)
    (h :
      scanOnce parseFloat hooks fuel depth (compactText item.2 ++ (ascii (utf8 "\x7d") ++ rest)) =
      .ok (item.2, ascii (utf8 "\x7d") ++ rest)) :
    parseMembers parseFloat hooks (fuel + 1) depth (entryText item ++ (ascii (utf8 "\x7d") ++ rest)) =
      .ok ([item], rest) := by
  have hbrace : ascii (utf8 "\x7d") ++ rest = ⟨'\x7d'.toNat, by decide⟩ :: rest := rfl
  rw [entryText_append, parseMembers.eq_def]
  refine (if_neg (by decide)).trans ?_
  rw [scanString_dump]
  simp only [bind, Except.bind]
  rw [skipSpace_cons _ (by decide), parseColon_colon]
  simp only []
  rw [skipSpace_compact hfloat, h, hbrace]
  simp only []
  rw [skipSpace_cons rest (by decide)]
  rfl

/-- A member with others behind it. -/
theorem parseMembers_more (hfloat : hasFloat item.2 = false)
    (h : scanOnce parseFloat hooks fuel depth (compactText item.2 ++ (ascii (utf8 ",") ++ rest)) =
      .ok (item.2, ascii (utf8 ",") ++ rest))
    (hmore : parseMembers parseFloat hooks fuel depth (skipSpace rest) = .ok (items, rest')) :
    parseMembers parseFloat hooks (fuel + 1) depth (entryText item ++ (ascii (utf8 ",") ++ rest)) =
      .ok (item :: items, rest') := by
  have hcomma : ascii (utf8 ",") ++ rest = ⟨','.toNat, by decide⟩ :: rest := rfl
  rw [entryText_append, parseMembers.eq_def]
  refine (if_neg (by decide)).trans ?_
  rw [scanString_dump]
  simp only [bind, Except.bind]
  rw [skipSpace_cons _ (by decide), parseColon_colon]
  simp only []
  rw [skipSpace_compact hfloat, h, hcomma]
  simp only []
  rw [skipSpace_cons rest (by decide)]
  simp only []
  rw [if_neg (by decide), if_neg (by decide), hmore]
  rfl

theorem entryText_length (item : PythonString × PythonValue) :
    (compactText item.2).length + 1 ≤ (entryText item).length := by
  have hcolon : (ascii (utf8 ":")).length = 1 := by decide
  rw [entryText, length_append, length_append, hcolon]
  omega

theorem parseMembers_comma (hne : items ≠ [])
    (hall : ∀ item ∈ items, hasFloat item.2 = false ∧ ReadsBack parseFloat hooks item.2)
    (fuel depth : ℕ) (rest : PythonString)
    (hfuel : 3 * (commaTexts (items.map entryText)).length + 1 ≤ fuel)
    (hdepth : ∀ item ∈ items, nesting item.2 ≤ depth) : parseMembers parseFloat hooks fuel depth
        (commaTexts (items.map entryText) ++ (ascii (utf8 "\x7d") ++ rest)) = .ok (items, rest) := by
  induction items generalizing fuel with
  | nil => exact absurd rfl hne
  | cons item items ih =>
    obtain _ | fuel := fuel
    · omega
    obtain ⟨⟨hfloat, hread⟩, hrest⟩ := forall_mem_cons.1 hall
    obtain ⟨hfirst, hdeep⟩ := forall_mem_cons.1 hdepth
    have hlength := entryText_length item
    cases items with
    | nil =>
      refine parseMembers_last hfloat (hread fuel depth _ ?_ hfirst ?_)
      · change 3 * (entryText item).length + 1 ≤ fuel + 1 at hfuel
        omega
      · exact endsNumber_cons rest (by decide) (by decide) (by decide) (by decide)
    | cons item' items =>
      have htext : commaTexts ((item :: item' :: items).map entryText) =
          entryText item ++ ascii (utf8 ",") ++
            commaTexts ((item' :: items).map entryText) := rfl
      have hcomma : (ascii (utf8 ",")).length = 1 := by decide
      rw [htext, length_append, length_append, hcomma] at hfuel
      rw [htext, append_assoc, append_assoc]
      refine parseMembers_more hfloat (hread fuel depth _ (by omega) hfirst ?_) ?_
      · exact endsNumber_cons _ (by decide) (by decide) (by decide) (by decide)
      · rw [map_cons, skipSpace_comma _ (entryText_head item'),
          ← map_cons]
        exact ih (cons_ne_nil _ _) hrest fuel (by omega) hdeep

theorem readsBack_dict (haccepts : hooks.objectPairs items = .ok (.dict items))
    (hall : ∀ item ∈ items, hasFloat item.2 = false ∧ ReadsBack parseFloat hooks item.2)
    (hdepth : ∀ item ∈ items, nesting item.2 ≤ nestingEntries items) :
    ReadsBack parseFloat hooks (.dict items) := by
  intro fuel depth rest hfuel hnested _
  have htexts : compactEntries items = items.map entryText := compactEntries_eq items
  rw [nesting] at hnested
  rw [compactText, length_append, length_append, htexts] at hfuel
  have hopen : (ascii (utf8 "\x7b")).length = 1 := by decide
  have hclose : (ascii (utf8 "\x7d")).length = 1 := by decide
  obtain ⟨fuel, rfl⟩ : ∃ n, fuel = n + 2 := ⟨fuel - 2, by omega⟩
  obtain _ | depth := depth
  · omega
  have hbrace (text : PythonString) :
      ascii (utf8 "\x7b") ++ text = ⟨'\x7b'.toNat, by decide⟩ :: text := rfl
  have hobject : parseObject parseFloat hooks (fuel + 1) depth
      (skipSpace (commaTexts (items.map entryText) ++ (ascii (utf8 "\x7d") ++ rest))) =
        .ok (items, rest) := by
    cases items with
    | nil =>
      have hend : ascii (utf8 "\x7d") ++ rest = ⟨'\x7d'.toNat, by decide⟩ :: rest := rfl
      rw [map_nil, commaTexts, nil_append, hend, skipSpace_cons rest (by decide),
        parseObject.eq_def]
      rfl
    | cons item items =>
      have hparse := parseMembers_comma (cons_ne_nil _ _) hall fuel depth
        rest (by omega) fun item hitem => (hdepth item hitem).trans (by omega)
      rw [map_cons] at hparse ⊢
      rw [skipSpace_comma _ (entryText_head item)]
      obtain ⟨tail', htail'⟩ : ∃ tail', commaTexts (entryText item :: items.map entryText) ++
          (ascii (utf8 "\x7d") ++ rest) = ⟨'"'.toNat, by decide⟩ :: tail' := by
        cases items <;> exact ⟨_, rfl⟩
      rw [htail'] at hparse ⊢
      rw [parseObject, if_neg (by decide)]
      exact hparse
  rw [compactText, htexts, append_assoc, append_assoc, hbrace, scanOnce.eq_def]
  refine (if_neg (by decide)).trans ((if_pos rfl).trans ?_)
  simp only [hobject, bind, Except.bind, haccepts]
  rfl

/-! ### The round trip -/

theorem nesting_le_items {items : List PythonValue} :
    ∀ item ∈ items, nesting item ≤ nestingItems items := by
  induction items with
  | nil => exact forall_mem_nil _
  | cons item items ih =>
    rw [nestingItems, forall_mem_cons]
    exact ⟨le_max_left _ _, fun item' hitem => (ih item' hitem).trans (le_max_right _ _)⟩

theorem nesting_le_entries : ∀ item ∈ items, nesting item.2 ≤ nestingEntries items := by
  induction items with
  | nil => exact forall_mem_nil _
  | cons item items ih =>
    rw [nestingEntries, forall_mem_cons]
    exact ⟨le_max_left _ _, fun item' hitem => (ih item' hitem).trans (le_max_right _ _)⟩

variable (hooks) in
/-- The hook takes items with distinct keys as they come. -/
def KeepsPairs : Prop :=
  ∀ pairs : List (PythonString × PythonValue), (pairs.map Prod.fst).Nodup →
    hooks.objectPairs pairs = .ok (.dict pairs)

mutual

/-- **The round trip.**  The text of a portable value without floats is read back as the value,
whatever stands behind it. -/
theorem readsBack (haccepts : KeepsPairs hooks) : ∀ {value : PythonValue}, Portable value →
    hasFloat value = false → ReadsBack parseFloat hooks value
  | .none, _, _ => readsBack_none
  | .bool value, _, _ => readsBack_bool value
  | .int value, h, _ => by
    rw [Portable] at h
    exact readsBack_int (by omega)
  | .float value, _, h => by simp [hasFloat] at h
  | .str value, _, _ => readsBack_str value
  | .list items, h, hfloat => by
    rw [Portable] at h
    rw [hasFloat] at hfloat
    exact readsBack_list (readsBack_items haccepts h hfloat) nesting_le_items
  | .dict items, h, hfloat => by
    rw [Portable] at h
    rw [hasFloat] at hfloat
    exact readsBack_dict (haccepts items h.1) (readsBack_entries haccepts h.2 hfloat)
      nesting_le_entries

theorem readsBack_items (haccepts : KeepsPairs hooks) : ∀ {items : List PythonValue},
    PortableItems items → hasFloatItems items = false →
      ∀ item ∈ items, hasFloat item = false ∧ ReadsBack parseFloat hooks item
  | [], _, _ => nofun
  | item :: items, h, hfloat => by
    rw [PortableItems] at h
    rw [hasFloatItems, Bool.or_eq_false_iff] at hfloat
    exact forall_mem_cons.2 ⟨⟨hfloat.1, readsBack haccepts h.1 hfloat.1⟩,
      readsBack_items haccepts h.2 hfloat.2⟩

theorem readsBack_entries (haccepts : KeepsPairs hooks) :
    ∀ {items : List (PythonString × PythonValue)}, PortableEntries items →
      hasFloatEntries items = false →
        ∀ item ∈ items, hasFloat item.2 = false ∧ ReadsBack parseFloat hooks item.2
  | [], _, _ => nofun
  | (key, item) :: items, h, hfloat => by
    rw [PortableEntries] at h
    rw [hasFloatEntries, Bool.or_eq_false_iff] at hfloat
    exact forall_mem_cons.2 ⟨⟨hfloat.1, readsBack haccepts h.2.1 hfloat.1⟩,
      readsBack_entries haccepts h.2.2 hfloat.2⟩

end

theorem loads_compact (haccepts : KeepsPairs hooks) {value : PythonValue} (h : Portable value)
    (hfloat : hasFloat value = false) {depth : ℕ} (hdepth : nesting value ≤ depth) :
    loads parseFloat hooks depth (compactText value) = .ok value := by
  have hback : ReadsBack parseFloat hooks value := readsBack haccepts h hfloat
  have hread := hback
    (3 * ((compactText value).length + 1)) depth [] (by omega) hdepth nofun
  have hspace := skipSpace_compact hfloat []
  rw [append_nil] at hread hspace
  obtain ⟨c, tail, htext, -, -, hc⟩ := compactText_head hfloat
  have hmark : (compactText value).head?.any (fun c => c.val = 0xfeff) = false := by
    rw [htext, head?_cons, Option.any_some, decide_eq_false_iff_not]
    omega
  rw [loads, if_neg (by rw [hmark]; decide), hspace, hread]
  rfl

end values

end AgenticCircuit.Tools
