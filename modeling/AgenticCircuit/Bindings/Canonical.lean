import AgenticCircuit.Bindings.Preflight
import AgenticCircuit.Lib.Binary64
import Mathlib.Data.List.DropRight
import Mathlib.Data.List.Lex
import Mathlib.Data.List.Sort

/-! # Canonical JSON

The emitter of `Binding.cpp`: `canonicalizeJson` checks a constructed value against the limits and
writes it in the form of RFC 8785.

* **Numbers** of all kinds go through one binary64 (`JsonValue.asNumber`).
* **Members** are sorted by the UTF-16 code units of their names; a member is written before its
  object is sorted, and its error counts where the source would come to it.
* **Pending values** of the preflight are a stack, its top first. -/

namespace AgenticCircuit.Bindings

/-- `getAsNumber` -/
def JsonValue.asNumber : JsonValue → Option Double
  | .integer value => some (.finite (roundInt value))
  | .unsigned value => some (.finite (roundInt value))
  | .double value => some value
  | _ => none

/-! ### UTF-16 -/

/-- The lead byte: its part of the code point and the length of the sequence. -/
def utf8Lead (first : UInt8) : Scanned (ℕ × ℕ) :=
  if first < 0x80 then .ok (first.toNat, 1)
  else if first &&& 0xe0 = 0xc0 then .ok ((first &&& 0x1f).toNat, 2)
  else if first &&& 0xf0 = 0xe0 then .ok ((first &&& 0x0f).toNat, 3)
  else if first &&& 0xf8 = 0xf0 then .ok ((first &&& 0x07).toNat, 4)
  else jsonError "invalid UTF-8 lead byte"

/-- The loop over the continuation bytes. -/
def utf8Continue : ℕ → Bytes → Scanned ℕ
  | codePoint, [] => .ok codePoint
  | codePoint, continuation :: rest =>
    if continuation &&& 0xc0 ≠ 0x80 then jsonError "invalid UTF-8 continuation byte"
    else utf8Continue (codePoint * 0x40 + (continuation &&& 0x3f).toNat) rest

/-- The code units of a code point from a sequence of `count` bytes. -/
def codePointUnits (codePoint count : ℕ) : Scanned (List ℕ) :=
  if count = 2 ∧ codePoint < 0x80 ∨ count = 3 ∧ codePoint < 0x800 ∨
      count = 4 ∧ codePoint < 0x10000 ∨ 0x10ffff < codePoint ∨
      0xd800 ≤ codePoint ∧ codePoint ≤ 0xdfff then
    jsonError "invalid Unicode scalar value"
  else if codePoint ≤ 0xffff then .ok [codePoint]
  else .ok [0xd800 + (codePoint - 0x10000) / 0x400, 0xdc00 + (codePoint - 0x10000) % 0x400]

/-- The loop of `utf16Units`; a turn takes at least one byte. -/
def utf16From : ℕ → Bytes → Scanned (List ℕ)
  | _, [] => .ok []
  | 0, _ :: _ => .error .outOfFuel
  | fuel + 1, first :: rest => do
      let (lead, count) ← utf8Lead first
      if rest.length + 1 < count then jsonError "truncated UTF-8 sequence"
      else
        let codePoint ← utf8Continue lead (rest.take (count - 1))
        let units ← codePointUnits codePoint count
        pure (units ++ (← utf16From fuel (rest.drop (count - 1))))

/-- `utf16Units` -/
def utf16Units (string : Bytes) : Scanned (List ℕ) := utf16From string.length string

/-! ### Strings -/

/-- The letter that escapes a byte after a backslash. -/
def escapeLetter (byte : UInt8) : Option UInt8 :=
  if byte = '"'.toUInt8 then some '"'.toUInt8
  else if byte = '\\'.toUInt8 then some '\\'.toUInt8
  else if byte = 0x08 then some 'b'.toUInt8
  else if byte = 0x09 then some 't'.toUInt8
  else if byte = 0x0a then some 'n'.toUInt8
  else if byte = 0x0c then some 'f'.toUInt8
  else if byte = 0x0d then some 'r'.toUInt8
  else none

/-- The digit of a number below sixteen. -/
def hexDigit (value : ℕ) : UInt8 :=
  if value < 10 then '0'.toUInt8 + value.toUInt8 else 'a'.toUInt8 + (value - 10).toUInt8

def escapeByte (byte : UInt8) : Bytes :=
  match escapeLetter byte with
  | some letter => ['\\'.toUInt8, letter]
  | none =>
    if byte < 0x20 then
      utf8 "\\u00" ++ [hexDigit (byte.toNat / 16), hexDigit (byte.toNat % 16)]
    else [byte]

def canonicalStringSize (string : Bytes) : Scanned ℕ := do
  let _ ← utf16Units string
  pure (string.foldl (fun size byte =>
    if (escapeLetter byte).isSome then size + 2
    else if byte < 0x20 then size + 6
    else size + 1) 2)

def writeEscapedString (string : Bytes) : Scanned Bytes := do
  let _ ← utf16Units string
  pure ('"'.toUInt8 :: string.flatMap escapeByte ++ ['"'.toUInt8])

/-! ### Numbers -/

/-- `split`: what stands before and after the first separator. -/
def splitAt (separator : UInt8) (bytes : Bytes) : Bytes × Bytes :=
  (bytes.takeWhile (· ≠ separator), (bytes.dropWhile (· ≠ separator)).drop 1)

/-- `consume_front`, on one byte. -/
def consumeFront (byte : UInt8) : Bytes → Bool × Bytes
  | [] => (false, [])
  | first :: rest => if first = byte then (true, rest) else (false, first :: rest)

def digitsValue (digits : Bytes) : ℕ :=
  digits.foldl (fun value digit => 10 * value + (digit.toNat - '0'.toNat)) 0

/-- `getAsInteger` in base ten into an `int`. -/
def getAsInteger (bytes : Bytes) : Option ℤ :=
  let (negative, digits) := consumeFront '-'.toUInt8 bytes
  let value : ℤ := if negative then -digitsValue digits else digitsValue digits
  if digits ≠ [] ∧ digits.all isDigit ∧ -2 ^ 31 ≤ value ∧ value < 2 ^ 31 then some value else none

/-- The exponent that is written in a number, zero where none is. -/
def explicitExponent (exponentText : Bytes) : Scanned ℤ :=
  if exponentText = [] then .ok 0
  else
    let (negative, digits) := consumeFront '-'.toUInt8 exponentText
    let (_, digits) := consumeFront '+'.toUInt8 digits
    match getAsInteger digits with
    | none => jsonError "binary64 exponent conversion failed"
    | some exponent => .ok (if negative then -exponent else exponent)

def stripLeadingZeros (digits : Bytes) : Bytes := digits.dropWhile (· == '0'.toUInt8)

/-- Trailing zeros go as long as a digit is left. -/
def stripTrailingZeros (digits : Bytes) : Bytes := digits.rdropWhile (· == '0'.toUInt8)

/-- The text of an integer. -/
def decimalText (value : ℤ) : Bytes := utf8 (toString value)

/-- The number with these digits, the first of them before the point, times a power of ten. -/
def layoutNumber (negative : Bool) (digits : Bytes) (scientificExponent : ℤ) : Bytes :=
  let sign := if negative then ['-'.toUInt8] else []
  if 0 ≤ scientificExponent ∧ scientificExponent < 21 then
    let integerDigits := scientificExponent.toNat + 1
    if digits.length ≤ integerDigits then
      sign ++ digits ++ List.replicate (integerDigits - digits.length) '0'.toUInt8
    else sign ++ digits.take integerDigits ++ ['.'.toUInt8] ++ digits.drop integerDigits
  else if -6 ≤ scientificExponent ∧ scientificExponent < 0 then
    sign ++ utf8 "0." ++ List.replicate (-scientificExponent - 1).toNat '0'.toUInt8 ++ digits
  else
    sign ++ digits.take 1 ++
      (if 1 < digits.length then ['.'.toUInt8] ++ digits.drop 1 else []) ++ ['e'.toUInt8] ++
      (if 0 ≤ scientificExponent then ['+'.toUInt8] else []) ++ decimalText scientificExponent

section canonical

variable (library : JsonLibrary)

/-- The part of `ecmascriptNumber` on the shortest text. -/
def layoutShortest (shortest : Bytes) : Scanned Bytes := do
  let (negative, magnitude) := consumeFront '-'.toUInt8 shortest
  let (mantissa, exponentText) :=
    let lower := splitAt 'e'.toUInt8 magnitude
    if lower.2 = [] then splitAt 'E'.toUInt8 magnitude else lower
  let exponent ← explicitExponent exponentText
  let decimal := (mantissa.takeWhile (· ≠ '.'.toUInt8)).length
  let digits := mantissa.filter (· ≠ '.'.toUInt8)
  let significant := stripLeadingZeros digits
  if significant = [] then pure (utf8 "0")
  else
    let firstNonZero := digits.length - significant.length
    pure (layoutNumber negative (stripTrailingZeros significant)
      (exponent + decimal - firstNonZero - 1))

def ecmascriptNumber : Double → Scanned Bytes
  | .infinite _ | .nan => jsonError "non-finite number cannot be canonicalized"
  | .negativeZero => jsonError "negative zero cannot be canonicalized"
  | .finite value =>
    if value = 0 then .ok (utf8 "0")
    else
      match library.toChars value with
      | none => jsonError "binary64 conversion failed"
      | some shortest => layoutShortest shortest

/-- `ConstructedJsonPreflight`: its counters. -/
structure Account where
  structuralWork : ℕ := 0
  totalStringBytes : ℕ := 0
  canonicalBytes : ℕ := 0
deriving DecidableEq

abbrev Frame := JsonValue × ℕ

variable (limits : JsonParseLimits)

namespace Account

def enter (depth : ℕ) (a : Account) : Scanned Account :=
  if depth > limits.maxDepth then jsonError "maximum depth exceeded"
  else if a.structuralWork + 1 > limits.maxStructuralWork then
    jsonError "structural work limit exceeded"
  else .ok { a with structuralWork := a.structuralWork + 1 }

def accountCanonicalBytes (bytes : ℕ) (a : Account) : Scanned Account :=
  if bytes > limits.maxInputBytes - a.canonicalBytes then
    jsonError "canonical output byte limit exceeded"
  else .ok { a with canonicalBytes := a.canonicalBytes + bytes }

def accountRawString (string : Bytes) (a : Account) : Scanned Account :=
  if string.length > limits.maxStringBytes then jsonError "string byte limit exceeded"
  else if string.length > limits.maxTotalStringBytes - a.totalStringBytes then
    jsonError "total string byte limit exceeded"
  else .ok { a with totalStringBytes := a.totalStringBytes + string.length }

def accountCanonicalString (string : Bytes) (a : Account) : Scanned Account := do
  a.accountCanonicalBytes limits (← canonicalStringSize string)

/-- A string as it is and as it is written. -/
def accountString (string : Bytes) (a : Account) : Scanned Account := do
  (← a.accountRawString limits string).accountCanonicalString limits string

/-- The names of an object. -/
def visitNames : List (Bytes × JsonValue) → Account → Scanned Account
  | [], a => .ok a
  | (name, _) :: members, a => do visitNames members (← a.accountString limits name)

def visitObject (members : List (Bytes × JsonValue)) (a : Account) : Scanned Account :=
  if members.length > limits.maxObjectMembers then jsonError "object member limit exceeded"
  else do
    let a ← a.accountCanonicalBytes limits 2
    if members.isEmpty then visitNames limits members a
    else
      let a ← a.accountCanonicalBytes limits (members.length - 1)
      let a ← a.accountCanonicalBytes limits members.length
      visitNames limits members a

def visitArray (elements : List JsonValue) (a : Account) : Scanned Account :=
  if elements.length > limits.maxArrayElements then jsonError "array element limit exceeded"
  else do
    let a ← a.accountCanonicalBytes limits 2
    if elements.isEmpty then pure a else a.accountCanonicalBytes limits (elements.length - 1)

def visitNumber (value : JsonValue) (a : Account) : Scanned Account :=
  match value.asNumber with
  | none => jsonError "constructed number is not canonical I-JSON"
  | some number =>
    if !number.isFinite || number == .negativeZero then
      jsonError "constructed number is not canonical I-JSON"
    else do a.accountCanonicalBytes limits (← ecmascriptNumber library number).length

/-- One value taken from the stack, without the values in it. -/
def visit (value : JsonValue) (a : Account) : Scanned Account :=
  match value with
  | .null => a.accountCanonicalBytes limits 4
  | .boolean value => a.accountCanonicalBytes limits (if value then 4 else 5)
  | .string value => a.accountString limits value
  | .array elements => a.visitArray limits elements
  | .object members => a.visitObject limits members
  | value => a.visitNumber library limits value

end Account

/-- The values that a value has in it, in the order in which they are pushed. -/
def JsonValue.children : JsonValue → List JsonValue
  | .array elements => elements
  | .object members => members.map Prod.snd
  | _ => []

/-- `drain` -/
def drain : ℕ → List Frame → Account → Scanned Account
  | _, [], a => .ok a
  | 0, _ :: _, _ => .error .outOfFuel
  | fuel + 1, (value, depth) :: pending, a => do
      let a ← (← a.enter limits depth).visit library limits value
      drain fuel ((value.children.map fun child => (child, depth + 1)).reverse ++ pending) a

mutual

/-- The number of values in a value, itself included. -/
def JsonValue.values : JsonValue → ℕ
  | .array elements => JsonValue.elementValues elements + 1
  | .object members => JsonValue.memberValues members + 1
  | _ => 1

def JsonValue.elementValues : List JsonValue → ℕ
  | [] => 0
  | element :: elements => element.values + JsonValue.elementValues elements

def JsonValue.memberValues : List (Bytes × JsonValue) → ℕ
  | [] => 0
  | (_, value) :: members => value.values + JsonValue.memberValues members

end

/-- `preflightConstructedJson`: the size of the canonical form. -/
def preflightConstructedJson (value : JsonValue) : Scanned ℕ := do
  pure (← drain library limits value.values [(value, 1)] {}).canonicalBytes

/-! ### The writer -/

/-- A member with the key it is sorted by and its value as it would be written. -/
structure CanonicalProperty where
  name : Bytes
  sortKey : List ℕ
  value : Scanned Bytes

/-- The texts between commas. -/
def joinCommas : List (Scanned Bytes) → Scanned Bytes
  | [] => .ok []
  | [text] => text
  | text :: texts => do
      let first ← text
      let rest ← joinCommas texts
      pure (first ++ ','.toUInt8 :: rest)

def CanonicalProperty.write (property : CanonicalProperty) : Scanned Bytes := do
  let name ← writeEscapedString property.name
  let value ← property.value
  pure (name ++ ':'.toUInt8 :: value)

def writeNumber (value : JsonValue) : Scanned Bytes :=
  match value.asNumber with
  | none => jsonError "unsupported JSON value kind"
  | some number => ecmascriptNumber library number

mutual

def writeCanonical : JsonValue → Scanned Bytes
  | .null => .ok (utf8 "null")
  | .boolean value => .ok (utf8 (if value then "true" else "false"))
  | .string value => writeEscapedString value
  | .array elements => do
      let text ← joinCommas (writeElements elements)
      pure ('['.toUInt8 :: text ++ [']'.toUInt8])
  | .object members => do
      let properties ← writeMembers members
      let sorted := properties.insertionSort fun left right => left.sortKey ≤ right.sortKey
      let text ← joinCommas (sorted.map CanonicalProperty.write)
      pure ('\x7b'.toUInt8 :: text ++ ['\x7d'.toUInt8])
  | .integer value => writeNumber library (.integer value)
  | .unsigned value => writeNumber library (.unsigned value)
  | .double value => writeNumber library (.double value)

def writeElements : List JsonValue → List (Scanned Bytes)
  | [] => []
  | element :: elements => writeCanonical element :: writeElements elements

/-- The loop that takes the keys. -/
def writeMembers : List (Bytes × JsonValue) → Scanned (List CanonicalProperty)
  | [] => .ok []
  | (name, value) :: members => do
      let sortKey ← utf16Units name
      let properties ← writeMembers members
      pure (⟨name, sortKey, writeCanonical value⟩ :: properties)

end

/-- `canonicalizeJson` -/
def canonicalizeJson (value : JsonValue) : Scanned Bytes := do
  let _ ← preflightConstructedJson library limits value
  writeCanonical library value

/-- `sha256Fingerprint` -/
def sha256Fingerprint (canonicalBytes : Bytes) : Bytes :=
  utf8 "sha256:" ++ (library.sha256 canonicalBytes).flatMap fun byte =>
    [hexDigit (byte.toNat / 16), hexDigit (byte.toNat % 16)]

end canonical

end AgenticCircuit.Bindings
