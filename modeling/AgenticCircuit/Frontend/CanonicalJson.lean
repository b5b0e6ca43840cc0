import AgenticCircuit.Bindings.Canonical
import AgenticCircuit.Bindings.JsonText

/-! # Canonical JSON in Python

The encoder of `_canonical_json.py`: `canonical_json_bytes` checks a value and writes it as text,
which it encodes in UTF-8 at the end.

* **Strings** are lists of code points, surrogates among them.
* **Numbers** are written in ASCII; their texts stand as bytes until they join the text.
* **`repr`** on a float is a parameter. -/

namespace AgenticCircuit.Frontend

open Bindings

/-- A code point of a `str`. -/
abbrev CodePoint := Fin 0x110000

instance codePoint_neZero : NeZero 0x110000 := ⟨by decide⟩

abbrev PythonString := List CodePoint

/-- `JsonValue` of the module; a `dict` stands by its items in the order of insertion. -/
inductive PythonValue where
  | none
  | bool (value : Bool)
  | int (value : ℤ)
  | float (value : Double)
  | str (value : PythonString)
  | list (items : List PythonValue)
  | dict (items : List (PythonString × PythonValue))

/-- The message of a `ValueError`. -/
abbrev ValueError := String

abbrev Encoded := Except ValueError

/-- An ASCII text as a `str`. -/
def ascii (text : Bytes) : PythonString := text.map fun byte => ⟨byte.toNat, by
  have := byte.toNat_lt
  omega⟩

/-! ### Strings -/

def isSurrogate (c : CodePoint) : Bool := decide (0xd800 ≤ c.val) && decide (c.val ≤ 0xdfff)

/-- `encode("utf-8", errors="strict")` -/
def encodeUtf8 (value : PythonString) : Encoded Bytes :=
  if value.any isSurrogate then .error "surrogates not allowed"
  else .ok (value.flatMap fun c => Bindings.encodeUtf8 c.val)

def validateString (value : PythonString) : Encoded Unit :=
  match encodeUtf8 value with
  | .error _ => .error "JSON strings must contain Unicode scalar values"
  | .ok _ => .ok ()

/-- The UTF-16 code units of a code point. -/
def codeUnits (c : ℕ) : List ℕ :=
  if c < 0x10000 then [c]
  else [0xd800 + (c - 0x10000) / 0x400, 0xdc00 + (c - 0x10000) % 0x400]

/-- A code unit, its high byte first. -/
def bigEndian (unit : ℕ) : Bytes := [(unit / 0x100).toUInt8, (unit % 0x100).toUInt8]

def utf16SortKey (value : PythonString) : Encoded Bytes := do
  validateString value
  pure (value.flatMap fun c => (codeUnits c.val).flatMap bigEndian)

/-- `ESCAPE_DCT` of the `json` module. -/
def escapeCodePoint (c : CodePoint) : PythonString :=
  if c.val = '\\'.toNat then ascii (utf8 "\\\\")
  else if c.val = '"'.toNat then ascii (utf8 "\\\"")
  else if c.val = 0x08 then ascii (utf8 "\\b")
  else if c.val = 0x0c then ascii (utf8 "\\f")
  else if c.val = 0x0a then ascii (utf8 "\\n")
  else if c.val = 0x0d then ascii (utf8 "\\r")
  else if c.val = 0x09 then ascii (utf8 "\\t")
  else if c.val < 0x20 then
    ascii (utf8 "\\u00" ++ [hexDigit (c.val / 16), hexDigit (c.val % 16)])
  else [c]

/-- `json.dumps` without `ensure_ascii`, on a string. -/
def dumpString (value : PythonString) : PythonString :=
  ascii [quote] ++ value.flatMap escapeCodePoint ++ ascii [quote]

def encodeString (value : PythonString) : Encoded PythonString := do
  validateString value
  pure (dumpString value)

/-! ### Numbers -/

/-- `lower`, in ASCII. -/
def lower (text : Bytes) : Bytes :=
  text.map fun byte => if 'A'.toUInt8 ≤ byte ∧ byte ≤ 'Z'.toUInt8 then byte + 32 else byte

/-- `int` on a decimal text with a sign or without. -/
def parseInt (text : Bytes) : Encoded ℤ :=
  let (negative, digits) :=
    match text with
    | [] => (false, [])
    | first :: rest =>
      if first = '-'.toUInt8 then (true, rest)
      else if first = '+'.toUInt8 then (false, rest)
      else (false, first :: rest)
  if digits ≠ [] ∧ digits.all isDigit then
    .ok (if negative then -digitsValue digits else digitsValue digits)
  else .error "invalid literal for int() with base 10"

/-- `explicit_exponent` -/
def explicitExponent (magnitude : Bytes) : Encoded ℤ :=
  if 'e'.toUInt8 ∈ magnitude then parseInt ((magnitude.dropWhile (· ≠ 'e'.toUInt8)).drop 1)
  else .ok 0

/-- The layouts at the end of `_encode_float`. -/
def layoutFloat (negative : Bool) (digits : Bytes) (scientificExponent : ℤ) : Bytes :=
  let sign := if negative then utf8 "-" else []
  if 0 ≤ scientificExponent ∧ scientificExponent < 21 then
    let integerDigits := (scientificExponent + 1).toNat
    if digits.length ≤ integerDigits then
      sign ++ digits ++ List.replicate (integerDigits - digits.length) '0'.toUInt8
    else sign ++ digits.take integerDigits ++ utf8 "." ++ digits.drop integerDigits
  else if -6 ≤ scientificExponent ∧ scientificExponent < 0 then
    sign ++ utf8 "0." ++ List.replicate (-scientificExponent - 1).toNat '0'.toUInt8 ++ digits
  else
    let mantissaText :=
      if 1 < digits.length then digits.take 1 ++ (utf8 "." ++ digits.drop 1) else digits.take 1
    let exponentSign := if 0 ≤ scientificExponent then utf8 "+" else []
    sign ++ mantissaText ++ utf8 "e" ++ exponentSign ++ decimalText scientificExponent

section encode

-- `repr` on a finite float other than zero.
variable (repr : ℚ → Bytes)

/-- The part of `_encode_float` on the shortest text. -/
def layoutRepr (shortest : Bytes) : Encoded Bytes := do
  let negative := shortest.head? == some '-'.toUInt8
  let magnitude := if negative then shortest.drop 1 else shortest
  let mantissa := magnitude.takeWhile (· ≠ 'e'.toUInt8)
  let exponent ← explicitExponent magnitude
  let decimal := (mantissa.takeWhile (· ≠ '.'.toUInt8)).length
  let digits := mantissa.filter (· ≠ '.'.toUInt8)
  match digits.findIdx? (· ≠ '0'.toUInt8) with
  | .none => pure (utf8 "0")
  | some firstNonzero =>
    let scientificExponent := exponent + decimal - firstNonzero - 1
    let stripped := (digits.drop firstNonzero).rdropWhile (· == '0'.toUInt8)
    let significant := if stripped = [] then utf8 "0" else stripped
    pure (layoutFloat negative significant scientificExponent)

def encodeFloat : Double → Encoded Bytes
  | .infinite _ | .nan => .error "JSON number must be finite binary64"
  | .negativeZero => .error "negative zero cannot be canonicalized"
  | .finite value => if value = 0 then .ok (utf8 "0") else layoutRepr (lower (repr value))

/-! ### Values -/

mutual

def validateIJsonValue : PythonValue → Encoded Unit
  | .none | .bool _ => .ok ()
  | .str value => validateString value
  | .int value =>
    if -(2 ^ 53 - 1) ≤ value ∧ value ≤ 2 ^ 53 - 1 then .ok ()
    else .error "JSON integer is outside the portable I-JSON range"
  | .float value =>
    if !value.isFinite then .error "JSON number must be finite binary64"
    else if value = .negativeZero then .error "negative zero cannot be canonicalized"
    else .ok ()
  | .list items => validateItems items
  | .dict items => validateEntries items

def validateItems : List PythonValue → Encoded Unit
  | [] => .ok ()
  | item :: items => do
      validateIJsonValue item
      validateItems items

def validateEntries : List (PythonString × PythonValue) → Encoded Unit
  | [] => .ok ()
  | (key, item) :: items => do
      validateString key
      validateIJsonValue item
      validateEntries items

end

/-- An item of a `dict` with the key it is sorted by and its value as it would be written. -/
structure Property where
  key : PythonString
  sortKey : Bytes
  value : Encoded PythonString

/-- `",".join`, over the texts as they come. -/
def joinTexts : List (Encoded PythonString) → Encoded PythonString
  | [] => .ok []
  | [text] => text
  | text :: texts => do
      let first ← text
      let rest ← joinTexts texts
      pure (first ++ ascii (utf8 ",") ++ rest)

def Property.encode (property : Property) : Encoded PythonString := do
  let key ← encodeString property.key
  let value ← property.value
  pure (key ++ ascii (utf8 ":") ++ value)

mutual

def encodeValue : PythonValue → Encoded PythonString
  | .none => .ok (ascii (utf8 "null"))
  | .bool value => .ok (ascii (utf8 (if value then "true" else "false")))
  | .str value => encodeString value
  | .int value => .ok (ascii (decimalText value))
  | .float value => do pure (ascii (← encodeFloat repr value))
  | .list items => do
      let text ← joinTexts (encodeItems items)
      pure (ascii (utf8 "[") ++ text ++ ascii (utf8 "]"))
  | .dict items => do
      let properties ← encodeEntries items
      let sorted := properties.insertionSort fun left right => left.sortKey ≤ right.sortKey
      let text ← joinTexts (sorted.map Property.encode)
      pure (ascii (utf8 "\x7b") ++ text ++ ascii (utf8 "\x7d"))

def encodeItems : List PythonValue → List (Encoded PythonString)
  | [] => []
  | item :: items => encodeValue item :: encodeItems items

/-- The keys of `sorted`. -/
def encodeEntries : List (PythonString × PythonValue) → Encoded (List Property)
  | [] => .ok []
  | (key, item) :: items => do
      let sortKey ← utf16SortKey key
      let properties ← encodeEntries items
      pure (⟨key, sortKey, encodeValue item⟩ :: properties)

end

/-- `canonical_json_bytes` -/
def canonicalJsonBytes (value : PythonValue) : Encoded Bytes := do
  validateIJsonValue value
  encodeUtf8 (← encodeValue repr value)

end encode

example : canonicalJsonBytes (fun _ => []) (.dict [([⟨0xffff, by decide⟩], .int (-5)),
    ([⟨0x10000, by decide⟩], .list [.none, .bool true])]) =
      .ok (utf8 "\x7b\"" ++ Bindings.encodeUtf8 0x10000 ++ utf8 "\":[null,true],\"" ++
        Bindings.encodeUtf8 0xffff ++ utf8 "\":-5\x7d") := by
  decide +kernel

end AgenticCircuit.Frontend
