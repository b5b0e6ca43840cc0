import AgenticCircuit.Frontend.CanonicalJson

/-! # `json.loads`

The decoder of Python's `json` module on a `str`, with an `object_pairs_hook` and a
`parse_constant`.  A scanner takes a text and gives a value with the text behind it.

* **Fuel** bounds the calls of the scanners; the length of the text is enough.
* **Depth** is what is left of the recursion limit.
* **`float`** is a parameter. -/

namespace AgenticCircuit.Tools

open Bindings Frontend

/-- What `json.loads` may raise: its own `JSONDecodeError`, a `RecursionError`, the `ValueError` of
`int` on too many digits, or what a hook raises. -/
inductive LoadsError (E : Type) where
  | decode (message : String)
  | recursion
  | digits
  | raised (error : E)
  | outOfFuel
deriving DecidableEq

abbrev Loaded (E α : Type) := Except (LoadsError E) α

/-- The keyword arguments of the call. -/
structure LoadsHooks (E : Type) where
  objectPairs : List (PythonString × PythonValue) → Except E PythonValue
  parseConstant : String → Except E PythonValue

/-- The code points of a text. -/
def codePoints (text : String) : PythonString :=
  text.toList.map fun c => ⟨c.toNat, by
    have := c.valid
    simp only [UInt32.isValidChar, Nat.isValidChar] at this
    unfold Char.toNat
    omega⟩

section scan

variable {E : Type}

/-! ### Whitespace and strings -/

def isJsonSpace (c : CodePoint) : Bool :=
  c.val = 0x20 || c.val = 0x09 || c.val = 0x0a || c.val = 0x0d

def skipSpace (text : PythonString) : PythonString := text.dropWhile isJsonSpace

def hexValue (c : CodePoint) : Option ℕ :=
  if '0'.toNat ≤ c.val ∧ c.val ≤ '9'.toNat then some (c.val - '0'.toNat)
  else if 'a'.toNat ≤ c.val ∧ c.val ≤ 'f'.toNat then some (c.val - 'a'.toNat + 10)
  else if 'A'.toNat ≤ c.val ∧ c.val ≤ 'F'.toNat then some (c.val - 'A'.toNat + 10)
  else none

/-- The code unit of four hexadecimal digits. -/
def hexUnit (a b c d : CodePoint) : Option (Fin 0x10000) := do
  let a ← hexValue a
  let b ← hexValue b
  let c ← hexValue c
  let d ← hexValue d
  pure (Fin.ofNat 0x10000 (((a * 16 + b) * 16 + c) * 16 + d))

def loneUnit (unit : Fin 0x10000) : CodePoint := ⟨unit.val, by omega⟩

def joinUnits (high low : Fin 0x10000) : CodePoint :=
  Fin.ofNat 0x110000 (0x10000 + (high.val - 0xd800) * 0x400 + (low.val - 0xdc00))

/-- `BACKSLASH` -/
def escapedValue (letter : CodePoint) : Option CodePoint :=
  if letter.val = '"'.toNat then some letter
  else if letter.val = '\\'.toNat then some letter
  else if letter.val = '/'.toNat then some letter
  else if letter.val = 'b'.toNat then some ⟨0x08, by decide⟩
  else if letter.val = 'f'.toNat then some ⟨0x0c, by decide⟩
  else if letter.val = 'n'.toNat then some ⟨0x0a, by decide⟩
  else if letter.val = 'r'.toNat then some ⟨0x0d, by decide⟩
  else if letter.val = 't'.toNat then some ⟨0x09, by decide⟩
  else none

/-- The string goes on with `c`. -/
def startWith (c : CodePoint) (scanned : Loaded E (PythonString × PythonString)) :
    Loaded E (PythonString × PythonString) :=
  scanned.map fun r => (c :: r.1, r.2)

/-- `scanstring`, behind the opening quote. -/
def scanString : PythonString → Loaded E (PythonString × PythonString)
  | [] => .error (.decode "Unterminated string starting at")
  | c :: rest =>
    if c.val = '"'.toNat then .ok ([], rest)
    else if c.val < 0x20 then .error (.decode "Invalid control character at")
    else if c.val ≠ '\\'.toNat then startWith c (scanString rest)
    else
      match rest with
      | [] => .error (.decode "Unterminated string starting at")
      | letter :: rest =>
        if letter.val ≠ 'u'.toNat then
          match escapedValue letter with
          | none => .error (.decode "Invalid \\escape: ")
          | some value => startWith value (scanString rest)
        else
          match rest with
          | h₁ :: h₂ :: h₃ :: h₄ :: rest =>
            match hexUnit h₁ h₂ h₃ h₄ with
            | none => .error (.decode "Invalid \\uXXXX escape")
            | some high =>
              if 0xd800 ≤ high.val ∧ high.val ≤ 0xdbff then
                match rest with
                | b :: u :: l₁ :: l₂ :: l₃ :: l₄ :: rest' =>
                  if b.val = '\\'.toNat ∧ u.val = 'u'.toNat then
                    match hexUnit l₁ l₂ l₃ l₄ with
                    | none => .error (.decode "Invalid \\uXXXX escape")
                    | some low =>
                      if 0xdc00 ≤ low.val ∧ low.val ≤ 0xdfff then
                        startWith (joinUnits high low) (scanString rest')
                      else startWith (loneUnit high)
                        (scanString (b :: u :: l₁ :: l₂ :: l₃ :: l₄ :: rest'))
                  else startWith (loneUnit high)
                    (scanString (b :: u :: l₁ :: l₂ :: l₃ :: l₄ :: rest'))
                | rest => startWith (loneUnit high) (scanString rest)
              else startWith (loneUnit high) (scanString rest)
          | _ => .error (.decode "Invalid \\uXXXX escape")

/-- The colon behind a name. -/
def parseColon : PythonString → Loaded E PythonString
  | [] => .error (.decode "Expecting ':' delimiter")
  | c :: rest =>
    if c.val = ':'.toNat then .ok rest else .error (.decode "Expecting ':' delimiter")

/-! ### Numbers -/

def isDecimal (c : CodePoint) : Bool := '0'.toNat ≤ c.val && c.val ≤ '9'.toNat

/-- `0`, or digits that begin with another one. -/
def integerPart : PythonString → Option (PythonString × PythonString)
  | [] => none
  | c :: rest =>
    if c.val = '0'.toNat then some ([c], rest)
    else if isDecimal c then some (c :: rest.takeWhile isDecimal, rest.dropWhile isDecimal)
    else none

/-- A point with digits behind it. -/
def fractionPart : PythonString → PythonString × PythonString
  | [] => ([], [])
  | point :: rest =>
    if point.val = '.'.toNat && rest.head?.any isDecimal then
      (point :: rest.takeWhile isDecimal, rest.dropWhile isDecimal)
    else ([], point :: rest)

/-- The sign of an exponent. -/
def exponentSign : PythonString → PythonString × PythonString
  | [] => ([], [])
  | sign :: rest =>
    if sign.val = '-'.toNat || sign.val = '+'.toNat then ([sign], rest) else ([], sign :: rest)

/-- An `e` with digits behind it, and perhaps a sign between them. -/
def exponentPart : PythonString → PythonString × PythonString
  | [] => ([], [])
  | mark :: rest =>
    let (sign, digits) := exponentSign rest
    if (mark.val = 'e'.toNat || mark.val = 'E'.toNat) && digits.head?.any isDecimal then
      (mark :: sign ++ digits.takeWhile isDecimal, digits.dropWhile isDecimal)
    else ([], mark :: rest)

/-- The sign of a number. -/
def minusPart : PythonString → PythonString × PythonString
  | [] => ([], [])
  | sign :: rest => if sign.val = '-'.toNat then ([sign], rest) else ([], sign :: rest)

/-- The value of decimal digits. -/
def decimalValue (digits : PythonString) : ℕ :=
  digits.foldl (fun value c => 10 * value + (c.val - '0'.toNat)) 0

-- `float` on the text of a number.
variable (parseFloat : PythonString → Double)

/-- `sys.get_int_max_str_digits()` -/
def maxIntDigits : ℕ := 4300

/-- `_match_number`; `none` where no number begins. -/
def scanNumber (text : PythonString) : Option (Loaded E (PythonValue × PythonString)) := do
  let (sign, unsigned) := minusPart text
  let (integer, rest) ← integerPart unsigned
  let (fraction, rest) := fractionPart rest
  let (exponent, rest) := exponentPart rest
  if fraction ++ exponent ≠ [] then
    some (.ok (.float (parseFloat (sign ++ integer ++ fraction ++ exponent)), rest))
  else if maxIntDigits < integer.length then some (.error .digits)
  else
    let value : ℤ := decimalValue integer
    some (.ok (.int (if sign ≠ [] then -value else value), rest))

/-! ### Values -/

/-- What stands behind a literal. -/
def behind (literal : String) (text : PythonString) : Option PythonString :=
  if codePoints literal <+: text then some (text.drop (codePoints literal).length) else none

variable (hooks : LoadsHooks E)

/-- The result of a hook. -/
def raise {α : Type} : Except E α → Loaded E α
  | .ok value => .ok value
  | .error error => .error (.raised error)

/-- The scanner where no string, array or object begins. -/
def scanScalar (text : PythonString) : Loaded E (PythonValue × PythonString) :=
  match behind "null" text, behind "true" text, behind "false" text with
  | some rest, _, _ => .ok (.none, rest)
  | _, some rest, _ => .ok (.bool true, rest)
  | _, _, some rest => .ok (.bool false, rest)
  | _, _, _ =>
    match scanNumber parseFloat text with
    | some number => number
    | none =>
      match behind "NaN" text, behind "Infinity" text, behind "-Infinity" text with
      | some rest, _, _ => (raise (hooks.parseConstant "NaN")).map fun v => (v, rest)
      | _, some rest, _ => (raise (hooks.parseConstant "Infinity")).map fun v => (v, rest)
      | _, _, some rest => (raise (hooks.parseConstant "-Infinity")).map fun v => (v, rest)
      | _, _, _ => .error (.decode "Expecting value")

mutual

/-- `scan_once` -/
def scanOnce : ℕ → ℕ → PythonString → Loaded E (PythonValue × PythonString)
  | _, _, [] => .error (.decode "Expecting value")
  | 0, _, _ :: _ => .error .outOfFuel
  | fuel + 1, depth, c :: rest =>
    if c.val = '"'.toNat then do
      let (value, rest) ← scanString rest
      pure (.str value, rest)
    else if c.val = '\x7b'.toNat then
      match depth with
      | 0 => .error .recursion
      | depth + 1 => do
          let (pairs, rest) ← parseObject fuel depth (skipSpace rest)
          pure (← raise (hooks.objectPairs pairs), rest)
    else if c.val = '['.toNat then
      match depth with
      | 0 => .error .recursion
      | depth + 1 => do
          let (items, rest) ← parseArray fuel depth (skipSpace rest)
          pure (.list items, rest)
    else scanScalar parseFloat hooks (c :: rest)

/-- `_parse_object` -/
def parseObject : ℕ → ℕ → PythonString →
    Loaded E (List (PythonString × PythonValue) × PythonString)
  | _, _, [] => .error (.decode "Expecting property name enclosed in double quotes")
  | 0, _, _ :: _ => .error .outOfFuel
  | fuel + 1, depth, c :: rest =>
    if c.val = '\x7d'.toNat then .ok ([], rest) else parseMembers fuel depth (c :: rest)

/-- The loop of `_parse_object`, at the name of a member. -/
def parseMembers : ℕ → ℕ → PythonString →
    Loaded E (List (PythonString × PythonValue) × PythonString)
  | _, _, [] => .error (.decode "Expecting property name enclosed in double quotes")
  | 0, _, _ :: _ => .error .outOfFuel
  | fuel + 1, depth, c :: rest =>
    if c.val ≠ '"'.toNat then
      .error (.decode "Expecting property name enclosed in double quotes")
    else do
      let (key, rest) ← scanString rest
      let rest ← parseColon (skipSpace rest)
      let (value, rest) ← scanOnce fuel depth (skipSpace rest)
      match skipSpace rest with
      | [] => .error (.decode "Expecting ',' delimiter")
      | c :: rest =>
        if c.val = '\x7d'.toNat then pure ([(key, value)], rest)
        else if c.val ≠ ','.toNat then .error (.decode "Expecting ',' delimiter")
        else do
          let (pairs, rest) ← parseMembers fuel depth (skipSpace rest)
          pure ((key, value) :: pairs, rest)

/-- `_parse_array` -/
def parseArray : ℕ → ℕ → PythonString → Loaded E (List PythonValue × PythonString)
  | _, _, [] => .error (.decode "Expecting value")
  | 0, _, _ :: _ => .error .outOfFuel
  | fuel + 1, depth, c :: rest =>
    if c.val = ']'.toNat then .ok ([], rest) else parseElements fuel depth (c :: rest)

/-- The loop of `_parse_array`, at an element. -/
def parseElements : ℕ → ℕ → PythonString → Loaded E (List PythonValue × PythonString)
  | 0, _, _ => .error .outOfFuel
  | fuel + 1, depth, text => do
      let (value, rest) ← scanOnce fuel depth text
      match skipSpace rest with
      | [] => .error (.decode "Expecting ',' delimiter")
      | c :: rest =>
        if c.val = ']'.toNat then pure ([value], rest)
        else if c.val ≠ ','.toNat then .error (.decode "Expecting ',' delimiter")
        else do
          let (values, rest) ← parseElements fuel depth (skipSpace rest)
          pure (value :: values, rest)

end

/-- `json.loads`, with what is left of the recursion limit. -/
def loads (depth : ℕ) (text : PythonString) : Loaded E PythonValue :=
  if text.head?.any (fun c => c.val = 0xfeff) then
    .error (.decode "Unexpected UTF-8 BOM (decode using utf-8-sig)")
  else do
    let (value, rest) ← scanOnce parseFloat hooks (3 * (text.length + 1)) depth (skipSpace text)
    if skipSpace rest = [] then pure value else .error (.decode "Extra data")

end scan

end AgenticCircuit.Tools
