import AgenticCircuit.Bindings.Preflight

/-! # The I-JSON texts

The grammar of RFC 8259 over bytes, as the trees of the texts it derives: every place where the
grammar allows whitespace is a field.  `JsonText.text` writes a tree out, and `JsonText.Accepted`
is what I-JSON and the limits ask of it.

* **Strings** are lists of `Character`s; `unescaped` reads the bytes they stand for.
* **Numbers** are `NumberText`s; which of them are binary64 values is up to `fromChars`. -/

namespace AgenticCircuit.Bindings

/-- `%x22` -/
abbrev quote : UInt8 := '"'.toUInt8

abbrev backslash : UInt8 := '\\'.toUInt8

/-- The text is encoded as the bytes. -/
def ValidUtf8 (bytes : Bytes) : Prop :=
  ∃ chars : List Char, bytes = chars.flatMap String.utf8EncodeChar

/-- The bytes of a code point. -/
def encodeUtf8 (codePoint : ℕ) : Bytes := String.utf8EncodeChar (Char.ofNat codePoint)

/-- The code point of a surrogate pair. -/
def combineSurrogates (high low : ℕ) : ℕ := 0x10000 + (high - 0xd800) * 0x400 + (low - 0xdc00)

/-- The bytes do not begin with one that has the property. -/
def Stops (property : UInt8 → Bool) (bytes : Bytes) : Prop := ∀ b ∈ bytes.head?, property b = false

namespace Stops

variable {p : UInt8 → Bool}

theorem cons {b : UInt8} {rest : Bytes} (h : p b = false) : Stops p (b :: rest) := by
  rintro b' hb'
  cases hb'
  exact h

theorem dropWhile {xs ys : Bytes} (hx : xs.all p = true) (hy : Stops p ys) :
    (xs ++ ys).dropWhile p = ys := by
  rw [List.dropWhile_append_of_pos (by simpa using hx)]
  cases ys with
  | nil => rfl
  | cons y ys => exact List.dropWhile_cons_of_neg (by simp [hy y rfl])

theorem nextIs {s : Scan} (h : Stops p s.rest) : nextIs s p = false := by
  unfold Bindings.nextIs
  cases hs : s.rest with
  | nil => rfl
  | cons b rest => exact h b (by simp [hs])

theorem mono {q : UInt8 → Bool} {bytes : Bytes} (h : Stops q bytes)
    (hpq : ∀ b, q b = false → p b = false) : Stops p bytes :=
  fun b hb => hpq b (h b hb)

end Stops

/-! ### Strings -/

/-- A character of a string as it is written; the bytes of an unescaped one stand one by one. -/
inductive Character where
  | unescaped (byte : UInt8)
  | escaped (letter : UInt8)
  | codeUnit (digits : Bytes)
  | surrogates (high low : Bytes)
deriving DecidableEq

namespace Character

def text : Character → Bytes
  | unescaped byte => [byte]
  | escaped letter => [backslash, letter]
  | codeUnit digits => backslash :: 'u'.toUInt8 :: digits
  | surrogates high low =>
    backslash :: 'u'.toUInt8 :: high ++ backslash :: 'u'.toUInt8 :: low

/-- The byte that a letter stands for after a backslash. -/
def escapeValue (letter : UInt8) : UInt8 :=
  if letter = 'b'.toUInt8 then 0x08
  else if letter = 'f'.toUInt8 then 0x0c
  else if letter = 'n'.toUInt8 then 0x0a
  else if letter = 'r'.toUInt8 then 0x0d
  else if letter = 't'.toUInt8 then 0x09
  else letter

def value : Character → Bytes
  | unescaped byte => [byte]
  | escaped letter => [escapeValue letter]
  | codeUnit digits => encodeUtf8 ((Bindings.codeUnit digits).getD 0)
  | surrogates high low =>
    encodeUtf8 (combineSurrogates ((Bindings.codeUnit high).getD 0)
      ((Bindings.codeUnit low).getD 0))

/-- Four hexadecimal digits whose code unit has the property. -/
def IsUnit (digits : Bytes) (property : ℕ → Prop) : Prop :=
  digits.length = 4 ∧ ∃ unit, Bindings.codeUnit digits = some unit ∧ property unit

/-- No control character stands unescaped and every surrogate escape is one of a pair. -/
def WellFormed : Character → Prop
  | unescaped byte => 0x20 ≤ byte ∧ byte ≠ quote ∧ byte ≠ backslash
  | escaped letter => isSimpleEscape letter = true
  | codeUnit digits => IsUnit digits fun unit => unit < 0xd800 ∨ 0xdfff < unit
  | surrogates high low =>
    (IsUnit high fun unit => 0xd800 ≤ unit ∧ unit ≤ 0xdbff) ∧
      IsUnit low fun unit => 0xdc00 ≤ unit ∧ unit ≤ 0xdfff

end Character

abbrev StringText := List Character

namespace StringText

/-- The characters between the quotes. -/
def body (s : StringText) : Bytes := s.flatMap Character.text

def text (s : StringText) : Bytes := quote :: s.body ++ [quote]

def unescaped (s : StringText) : Bytes := s.flatMap Character.value

def Lexical (s : StringText) : Prop := ∀ c ∈ s, c.WellFormed

def WellFormed (s : StringText) : Prop := s.Lexical ∧ ValidUtf8 s.body

@[simp] theorem body_nil : body [] = [] := rfl

@[simp] theorem body_cons (c : Character) (s : StringText) : body (c :: s) = c.text ++ body s := rfl

end StringText

/-! ### Numbers -/

/-- `[ minus ] int [ frac ] [ exp ]` -/
structure NumberText where
  negative : Bool
  integer : Bytes
  fraction : Option Bytes
  /-- The letter with its sign, and the digits. -/
  exponent : Option (Bytes × Bytes)
deriving DecidableEq

namespace NumberText

/-- `1*DIGIT` -/
def Digits (bytes : Bytes) : Prop := bytes ≠ [] ∧ bytes.all isDigit = true

def signText (number : NumberText) : Bytes := if number.negative then ['-'.toUInt8] else []

def fractionText (number : NumberText) : Bytes :=
  number.fraction.elim [] fun digits => '.'.toUInt8 :: digits

def exponentText (number : NumberText) : Bytes :=
  number.exponent.elim [] fun exponent => exponent.1 ++ exponent.2

def text (number : NumberText) : Bytes :=
  number.signText ++ (number.integer ++ (number.fractionText ++ number.exponentText))

/-- The beginnings of an exponent. -/
def exponentMarks : List Bytes := [utf8 "e", utf8 "E", utf8 "e+", utf8 "e-", utf8 "E+", utf8 "E-"]

structure WellFormed (number : NumberText) : Prop where
  integer : number.integer = ['0'.toUInt8] ∨
    Digits number.integer ∧ number.integer.head? ≠ some '0'.toUInt8
  fraction : ∀ digits ∈ number.fraction, Digits digits
  exponent : ∀ exponent ∈ number.exponent, exponent.1 ∈ exponentMarks ∧ Digits exponent.2

/-- The number is a finite binary64 that is not the negative zero. -/
def IsBinary64 (library : JsonLibrary) (number : NumberText) : Prop :=
  ∃ value, library.fromChars number.text = some (.finite value)

theorem Digits.cons {bytes : Bytes} (h : Digits bytes) :
    ∃ b bytes', bytes = b :: bytes' ∧ isDigit b = true ∧ bytes'.all isDigit = true := by
  obtain ⟨hne, hall⟩ := h
  cases bytes with
  | nil => exact absurd rfl hne
  | cons b bytes' =>
    simp only [List.all_cons, Bool.and_eq_true] at hall
    exact ⟨b, bytes', rfl, hall.1, hall.2⟩

theorem integer_cons {number : NumberText} (h : number.WellFormed) :
    ∃ b rest, number.integer = b :: rest ∧ isDigit b = true := by
  rcases h.integer with hzero | ⟨hdigits, -⟩
  · exact ⟨_, _, hzero, by decide⟩
  · obtain ⟨b, rest, hinteger, hb, -⟩ := hdigits.cons
    exact ⟨b, rest, hinteger, hb⟩

end NumberText

/-! ### Values -/

mutual

/-- A value without the whitespace around it. -/
inductive JsonText where
  | literalNull
  | literalTrue
  | literalFalse
  | string (characters : StringText)
  | number (number : NumberText)
  | emptyArray (space : Bytes)
  | array (space : Bytes) (elements : ElementsText)
  | emptyObject (space : Bytes)
  | object (space : Bytes) (members : MembersText)

/-- The elements of an array up to its end. -/
inductive ElementsText where
  | last (value : JsonText) (after : Bytes)
  | more (value : JsonText) (after before : Bytes) (elements : ElementsText)

/-- The members of an object up to its end. -/
inductive MembersText where
  | last (name : StringText) (colonBefore colonAfter : Bytes) (value : JsonText) (after : Bytes)
  | more (name : StringText) (colonBefore colonAfter : Bytes) (value : JsonText)
      (after before : Bytes) (members : MembersText)

end

mutual

def JsonText.text : JsonText → Bytes
  | .literalNull => utf8 "null"
  | .literalTrue => utf8 "true"
  | .literalFalse => utf8 "false"
  | .string characters => characters.text
  | .number number => number.text
  | .emptyArray space => '['.toUInt8 :: (space ++ [']'.toUInt8])
  | .array space elements => '['.toUInt8 :: (space ++ elements.text)
  | .emptyObject space => '\x7b'.toUInt8 :: (space ++ ['\x7d'.toUInt8])
  | .object space members => '\x7b'.toUInt8 :: (space ++ members.text)

def ElementsText.text : ElementsText → Bytes
  | .last value after => value.text ++ (after ++ [']'.toUInt8])
  | .more value after before elements =>
    value.text ++ (after ++ ','.toUInt8 :: (before ++ elements.text))

def MembersText.text : MembersText → Bytes
  | .last name colonBefore colonAfter value after =>
    name.text ++ (colonBefore ++ ':'.toUInt8 ::
      (colonAfter ++ (value.text ++ (after ++ ['\x7d'.toUInt8]))))
  | .more name colonBefore colonAfter value after before members =>
    name.text ++ (colonBefore ++ ':'.toUInt8 ::
      (colonAfter ++ (value.text ++ (after ++ ','.toUInt8 :: (before ++ members.text)))))

end

def ElementsText.count : ElementsText → ℕ
  | .last .. => 1
  | .more _ _ _ elements => elements.count + 1

/-- The unescaped names, in their order. -/
def MembersText.names : MembersText → List Bytes
  | .last name .. => [name.unescaped]
  | .more name _ _ _ _ _ members => name.unescaped :: members.names

mutual

/-- The nesting of arrays and objects, a value that is neither counted as one. -/
def JsonText.depth : JsonText → ℕ
  | .array _ elements => elements.depth + 1
  | .object _ members => members.depth + 1
  | _ => 1

def ElementsText.depth : ElementsText → ℕ
  | .last value _ => value.depth
  | .more value _ _ elements => max value.depth elements.depth

def MembersText.depth : MembersText → ℕ
  | .last _ _ _ value _ => value.depth
  | .more _ _ _ value _ _ members => max value.depth members.depth

end

mutual

/-- The number of values in a text, itself included. -/
def JsonText.values : JsonText → ℕ
  | .array _ elements => elements.values + 1
  | .object _ members => members.values + 1
  | _ => 1

def ElementsText.values : ElementsText → ℕ
  | .last value _ => value.values
  | .more value _ _ elements => value.values + elements.values

def MembersText.values : MembersText → ℕ
  | .last _ _ _ value _ => value.values
  | .more _ _ _ value _ _ members => value.values + members.values

end

mutual

/-- The bytes of all strings and names of a text. -/
def JsonText.stringBytes : JsonText → ℕ
  | .string characters => characters.unescaped.length
  | .array _ elements => elements.stringBytes
  | .object _ members => members.stringBytes
  | _ => 0

def ElementsText.stringBytes : ElementsText → ℕ
  | .last value _ => value.stringBytes
  | .more value _ _ elements => value.stringBytes + elements.stringBytes

def MembersText.stringBytes : MembersText → ℕ
  | .last name _ _ value _ => name.unescaped.length + value.stringBytes
  | .more name _ _ value _ _ members =>
    name.unescaped.length + value.stringBytes + members.stringBytes

end

/-- JSON whitespace. -/
def Whitespace (bytes : Bytes) : Prop := bytes.all isWhitespace = true

section accepted

variable (library : JsonLibrary) (limits : JsonParseLimits)

def StringText.Accepted (s : StringText) : Prop :=
  s.WellFormed ∧ s.unescaped.length ≤ limits.maxStringBytes

mutual

/-- The text is well formed, its strings, numbers, arrays and objects are within the limits on each
of them, and no object has two members of one name. -/
def JsonText.Accepted : JsonText → Prop
  | .literalNull | .literalTrue | .literalFalse => True
  | .string characters => characters.Accepted limits
  | .number number => number.WellFormed ∧ number.IsBinary64 library
  | .emptyArray space | .emptyObject space => Whitespace space
  | .array space elements =>
    Whitespace space ∧ elements.Accepted ∧ elements.count ≤ limits.maxArrayElements
  | .object space members =>
    Whitespace space ∧ members.Accepted ∧ members.names.Nodup ∧
      members.names.length ≤ limits.maxObjectMembers

def ElementsText.Accepted : ElementsText → Prop
  | .last value after => value.Accepted ∧ Whitespace after
  | .more value after before elements =>
    value.Accepted ∧ Whitespace after ∧ Whitespace before ∧ elements.Accepted

def MembersText.Accepted : MembersText → Prop
  | .last name colonBefore colonAfter value after =>
    name.Accepted limits ∧ Whitespace colonBefore ∧ Whitespace colonAfter ∧ value.Accepted ∧
      Whitespace after
  | .more name colonBefore colonAfter value after before members =>
    name.Accepted limits ∧ Whitespace colonBefore ∧ Whitespace colonAfter ∧ value.Accepted ∧
      Whitespace after ∧ Whitespace before ∧ members.Accepted

end

/-- The bytes are one I-JSON text within the limits, with whitespace around it. -/
structure IsIJson (input : Bytes) (before after : Bytes) (document : JsonText) : Prop where
  text : input = before ++ (document.text ++ after)
  before : Whitespace before
  after : Whitespace after
  accepted : document.Accepted library limits
  inputBytes : input.length ≤ limits.maxInputBytes
  depth : document.depth ≤ limits.maxDepth
  structuralWork : document.values ≤ limits.maxStructuralWork
  totalStringBytes : document.stringBytes ≤ limits.maxTotalStringBytes

end accepted

/-! ### The specifications of the two library functions -/

namespace JsonLibrary

/-- `llvm::json::parse` unescapes a string token and refuses one that is not UTF-8. -/
structure StringsFollowSpec (library : JsonLibrary) : Prop where
  valid : ∀ s : StringText, s.WellFormed → library.parseString s.text = some s.unescaped
  invalid : ∀ s : StringText, s.Lexical → ¬ ValidUtf8 s.body → library.parseString s.text = none

/-- `std::from_chars` gives a zero the sign that its token has. -/
structure SignedZeros (library : JsonLibrary) : Prop where
  negative : ∀ number : NumberText, number.WellFormed → number.negative = true →
    library.fromChars number.text ≠ some (.finite 0)
  positive : ∀ number : NumberText, number.WellFormed → number.negative = false →
    library.fromChars number.text ≠ some .negativeZero

end JsonLibrary

end AgenticCircuit.Bindings
