import AgenticCircuit.Bindings.Json

/-! # The I-JSON preflight

`IJsonPreflight` of `Binding.cpp`: a recursive descent over the bytes of the input, which stands
here as what is left of it.  What it takes from other libraries is a parameter.

* **Reads** go through `read`, which fails where the source would read past the end of the input.
* **Fuel** bounds the recursion; `run` gives twice the length of the input, and a scan that runs out
  would say so.
* **Messages** are those of the source. -/

namespace AgenticCircuit.Bindings

/-- What the bindings take from other libraries. -/
structure JsonLibrary where
  /-- `llvm::json::parse` on a string token: the bytes of the string. -/
  parseString : Bytes → Option Bytes
  /-- `std::from_chars` on the whole of a number token. -/
  fromChars : Bytes → Option Double
  /-- `llvm::json::parse` on a document, or its message. -/
  parseDocument : Bytes → Except Bytes JsonValue
  /-- `std::to_chars` in the general format on a finite value other than zero. -/
  toChars : ℚ → Option Bytes
  /-- `llvm::SHA256`: the bytes of the digest. -/
  sha256 : Bytes → Bytes

inductive ScanError where
  | json (message : Bytes)
  | outOfBounds
  | outOfFuel
deriving DecidableEq

abbrev Scanned := Except ScanError

def jsonError {α : Type} (message : String) : Scanned α :=
  .error (.json (utf8 ("ACLOWER-BINDING-JSON: " ++ message)))

theorem ok_bind {α β : Type} (a : α) (f : α → Scanned β) : (Except.ok a : Scanned α) >>= f = f a :=
  rfl

/-- The state of a scan. -/
structure Scan where
  rest : Bytes
  structuralWork : ℕ := 0
  totalStringBytes : ℕ := 0
deriving DecidableEq

namespace Scan

/-- `input[position + index]` -/
def read (s : Scan) (index : ℕ) : Scanned UInt8 :=
  match s.rest[index]? with
  | some byte => .ok byte
  | none => .error .outOfBounds

/-- `position += count` -/
def advance (s : Scan) (count : ℕ) : Scan := { s with rest := s.rest.drop count }

end Scan

def isWhitespace (byte : UInt8) : Bool :=
  byte == ' '.toUInt8 || byte == '\t'.toUInt8 || byte == '\n'.toUInt8 || byte == '\r'.toUInt8

def isDigit (byte : UInt8) : Bool := decide ('0'.toUInt8 ≤ byte) && decide (byte ≤ '9'.toUInt8)

/-- `llvm::hexDigitValue`, where `llvm::isHexDigit` holds. -/
def hexDigitValue (byte : UInt8) : Option ℕ :=
  if isDigit byte then some (byte.toNat - '0'.toNat)
  else if 'a'.toUInt8 ≤ byte ∧ byte ≤ 'f'.toUInt8 then some (byte.toNat - 'a'.toNat + 10)
  else if 'A'.toUInt8 ≤ byte ∧ byte ≤ 'F'.toUInt8 then some (byte.toNat - 'A'.toNat + 10)
  else none

/-- The code unit of four hexadecimal digits. -/
def codeUnit (digits : Bytes) : Option ℕ :=
  digits.foldlM (fun unit digit => (hexDigitValue digit).map (16 * unit + ·)) 0

section scan

variable (library : JsonLibrary) (limits : JsonParseLimits) (size : ℕ)

def skipWhitespace (s : Scan) : Scan := { s with rest := s.rest.dropWhile isWhitespace }

/-- The position of a state in the input. -/
def position (s : Scan) : ℕ := size - s.rest.length

def spendWork (s : Scan) : Scanned Scan :=
  if s.structuralWork + 1 > limits.maxStructuralWork then
    jsonError "structural work limit exceeded"
  else .ok { s with structuralWork := s.structuralWork + 1 }

def scanLiteral (literal : String) (s : Scan) : Scanned Scan :=
  if (utf8 literal).isPrefixOf s.rest then .ok (s.advance (utf8 literal).length)
  else jsonError s!"invalid literal at byte {position size s}"

/-- The four digits at an offset. -/
def readUnit (s : Scan) (offset : ℕ) : Scanned (Option ℕ) := do
  let first ← s.read offset
  let second ← s.read (offset + 1)
  let third ← s.read (offset + 2)
  let fourth ← s.read (offset + 3)
  pure (codeUnit [first, second, third, fourth])

def isSimpleEscape (escape : UInt8) : Bool :=
  escape == '"'.toUInt8 || escape == '\\'.toUInt8 || escape == '/'.toUInt8 ||
    escape == 'b'.toUInt8 || escape == 'f'.toUInt8 || escape == 'n'.toUInt8 ||
    escape == 'r'.toUInt8 || escape == 't'.toUInt8

/-- The escape after `\u`: a code unit, with the low surrogate after a high one. -/
def scanUnicodeEscape (s : Scan) : Scanned Scan := do
  let some unit ← readUnit s 0
    | jsonError s!"invalid Unicode escape at byte {position size s}"
  let s := s.advance 4
  if 0xdc00 ≤ unit ∧ unit ≤ 0xdfff then
    jsonError "lone low UTF-16 surrogate is invalid Unicode"
  else if unit < 0xd800 ∨ unit > 0xdbff then pure s
  else if s.rest.length < 6 then
    jsonError "lone high UTF-16 surrogate is invalid Unicode"
  else
    let backslash ← s.read 0
    let letter ← s.read 1
    if backslash ≠ '\\'.toUInt8 ∨ letter ≠ 'u'.toUInt8 then
      jsonError "lone high UTF-16 surrogate is invalid Unicode"
    else
      let some lowSurrogate ← readUnit s 2
        | jsonError "invalid low UTF-16 surrogate escape"
      if lowSurrogate < 0xdc00 ∨ lowSurrogate > 0xdfff then
        jsonError "high UTF-16 surrogate requires a low surrogate"
      else pure (s.advance 6)

/-- The closing quote: the token from `start` is unescaped and its bytes are counted. -/
def finishString (start s : Scan) : Scanned (Bytes × Scan) :=
  match library.parseString (start.rest.take (start.rest.length - s.rest.length)) with
  | none => jsonError s!"invalid Unicode string at byte {position size start}"
  | some value =>
    if value.length > limits.maxStringBytes then jsonError "string byte limit exceeded"
    else if s.totalStringBytes + value.length > limits.maxTotalStringBytes then
      jsonError "total string byte limit exceeded"
    else .ok (value, { s with totalStringBytes := s.totalStringBytes + value.length })

/-- The loop over the characters of a string that began at `start`. -/
def scanCharacters (start : Scan) : ℕ → Scan → Scanned (Bytes × Scan)
  | 0, _ => .error .outOfFuel
  | fuel + 1, s =>
    if s.rest.isEmpty then jsonError "unterminated string"
    else do
      let byte ← s.read 0
      let s := s.advance 1
      if byte = '"'.toUInt8 then finishString library limits size start s
      else if byte < 0x20 then
        jsonError s!"unescaped control character at byte {position size s - 1}"
      else if byte ≠ '\\'.toUInt8 then scanCharacters start fuel s
      else if s.rest.isEmpty then jsonError "unterminated escape sequence"
      else
        let escape ← s.read 0
        let s := s.advance 1
        if isSimpleEscape escape then scanCharacters start fuel s
        else if escape ≠ 'u'.toUInt8 ∨ s.rest.length < 4 then
          jsonError s!"invalid string escape at byte {position size s - 1}"
        else
          let s ← scanUnicodeEscape size s
          scanCharacters start fuel s

def scanString (s : Scan) : Scanned (Bytes × Scan) :=
  scanCharacters library limits size s (s.rest.length + 1) (s.advance 1)

def skipDigits (s : Scan) : Scan := { s with rest := s.rest.dropWhile isDigit }

/-- The next byte, if there is one, has the property. -/
def nextIs (s : Scan) (property : UInt8 → Bool) : Bool := s.rest.head?.any property

def scanIntegerPart (s : Scan) : Scanned Scan := do
  let byte ← s.read 0
  if byte = '0'.toUInt8 then
    let s := s.advance 1
    if nextIs s isDigit then jsonError "number has a leading zero" else pure s
  else if !isDigit byte then jsonError "number requires an integer part"
  else pure (skipDigits s)

def scanFraction (s : Scan) : Scanned Scan :=
  if nextIs s (· == '.'.toUInt8) then
    let fraction := s.advance 1
    let s := skipDigits fraction
    if s.rest.length = fraction.rest.length then
      jsonError "number fraction requires a digit"
    else .ok s
  else .ok s

def scanExponent (s : Scan) : Scanned Scan :=
  if nextIs s (fun byte => byte == 'e'.toUInt8 || byte == 'E'.toUInt8) then
    let s := s.advance 1
    let exponent :=
      if nextIs s (fun byte => byte == '+'.toUInt8 || byte == '-'.toUInt8) then s.advance 1 else s
    let s := skipDigits exponent
    if s.rest.length = exponent.rest.length then
      jsonError "number exponent requires a digit"
    else .ok s
  else .ok s

/-- The number after its sign. -/
def scanUnsigned (s : Scan) : Scanned Scan := do
  let s ← scanIntegerPart s
  let s ← scanFraction s
  scanExponent s

/-- The token from `start` is converted. -/
def convertNumber (start : Scan) (negative : Bool) (s : Scan) : Scanned Scan :=
  match library.fromChars (start.rest.take (start.rest.length - s.rest.length)) with
  | none => jsonError "number is not a finite IEEE-754 binary64 value"
  | some value =>
    if !value.isFinite then jsonError "number is not a finite IEEE-754 binary64 value"
    else if negative && value.isZero then
      jsonError "negative zero is forbidden by RFC 8785 errata 7920"
    else .ok s

def scanNumber (start : Scan) : Scanned Scan := do
  let sign ← start.read 0
  let negative := sign == '-'.toUInt8
  let s := if negative then start.advance 1 else start
  if negative && s.rest.isEmpty then jsonError "incomplete number"
  else
    let s ← scanUnsigned s
    convertNumber library start negative s

/-- `scanArray`, with its loop as the argument. -/
def scanArray (loop : Scan → Scanned Scan) (s : Scan) : Scanned Scan :=
  let s := skipWhitespace (s.advance 1)
  if nextIs s (· == ']'.toUInt8) then pure (s.advance 1) else loop s

/-- `scanObject`, with its loop as the argument. -/
def scanObject (loop : Scan → Scanned Scan) (s : Scan) : Scanned Scan :=
  let s := skipWhitespace (s.advance 1)
  if nextIs s (· == '\x7d'.toUInt8) then pure (s.advance 1) else loop s

/-- The switch of `scanValue` on the first byte of a value. -/
def scanToken (elements members : Scan → Scanned Scan) (s : Scan) : Scanned Scan := do
  let byte ← s.read 0
  if byte = 'n'.toUInt8 then scanLiteral size "null" s
  else if byte = 't'.toUInt8 then scanLiteral size "true" s
  else if byte = 'f'.toUInt8 then scanLiteral size "false" s
  else if byte = '"'.toUInt8 then
    let (_, s) ← scanString library limits size s
    pure s
  else if byte = '['.toUInt8 then scanArray elements s
  else if byte = '\x7b'.toUInt8 then scanObject members s
  else if byte = '-'.toUInt8 || isDigit byte then scanNumber library s
  else jsonError s!"unexpected token at byte {position size s}"

mutual

def scanValue : ℕ → ℕ → Scan → Scanned Scan
  | 0, _, _ => .error .outOfFuel
  | fuel + 1, depth, s =>
    if depth > limits.maxDepth then jsonError "maximum depth exceeded"
    else do
      let s := skipWhitespace (← spendWork limits s)
      if s.rest.isEmpty then jsonError "unexpected end of input"
      else
        scanToken library limits size (scanElements fuel depth 0) (scanMembers fuel depth []) s

/-- The loop of `scanArray`, after `elements` of them. -/
def scanElements : ℕ → ℕ → ℕ → Scan → Scanned Scan
  | 0, _, _, _ => .error .outOfFuel
  | fuel + 1, depth, elements, s =>
    if elements + 1 > limits.maxArrayElements then jsonError "array element limit exceeded"
    else do
      let s := skipWhitespace (← scanValue fuel (depth + 1) s)
      if s.rest.isEmpty then jsonError "unterminated array"
      else
        let byte ← s.read 0
        let s := s.advance 1
        if byte = ']'.toUInt8 then pure s
        else if byte ≠ ','.toUInt8 then jsonError "array entries must be comma-separated"
        else scanElements fuel depth (elements + 1) (skipWhitespace s)

/-- The loop of `scanObject`, after members with the given names. -/
def scanMembers : ℕ → ℕ → List Bytes → Scan → Scanned Scan
  | 0, _, _, _ => .error .outOfFuel
  | fuel + 1, depth, names, s =>
    if names.length + 1 > limits.maxObjectMembers then
      jsonError "object member limit exceeded"
    else if !nextIs s (· == '"'.toUInt8) then
      jsonError "object property name must be a string"
    else do
      let (name, s) ← scanString library limits size s
      if name ∈ names then
        .error (.json (utf8 "ACLOWER-BINDING-JSON: duplicate object property '" ++ name ++
          utf8 "'"))
      else
        let s := skipWhitespace s
        if s.rest.isEmpty then jsonError "object property requires ':'"
        else
          let separator ← s.read 0
          let s := s.advance 1
          if separator ≠ ':'.toUInt8 then jsonError "object property requires ':'"
          else
            let s := skipWhitespace (← scanValue fuel (depth + 1) s)
            if s.rest.isEmpty then jsonError "unterminated object"
            else
              let byte ← s.read 0
              let s := s.advance 1
              if byte = '\x7d'.toUInt8 then pure s
              else if byte ≠ ','.toUInt8 then
                jsonError "object entries must be comma-separated"
              else scanMembers fuel depth (name :: names) (skipWhitespace s)

end

end scan

namespace IJsonPreflight

/-- `IJsonPreflight::run` -/
def run (library : JsonLibrary) (limits : JsonParseLimits) (input : Bytes) : Scanned Unit :=
  if input.length > limits.maxInputBytes then jsonError "input byte limit exceeded"
  else do
    let s ← scanValue library limits input.length (2 * input.length + 2) 1
      (skipWhitespace { rest := input })
    let s := skipWhitespace s
    if s.rest.isEmpty then pure ()
    else jsonError s!"trailing input at byte {position input.length s}"

end IJsonPreflight

/-- `parseIJson` -/
def parseIJson (library : JsonLibrary) (limits : JsonParseLimits) (input : Bytes) :
    Scanned JsonValue := do
  IJsonPreflight.run library limits input
  match library.parseDocument input with
  | .ok value => pure value
  | .error message => .error (.json (utf8 "ACLOWER-BINDING-JSON: invalid JSON: " ++ message))

end AgenticCircuit.Bindings
