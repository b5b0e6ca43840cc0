import AgenticCircuit.Frontend.CanonicalStrings
import AgenticCircuit.Tools.JsonLoads

/-! # The Perfetto packer

`pack_event_jsonl` of `perfetto_trace.py`: event JSONL is checked line by line and packed into one
trace object.

* **Fields** that a check has found present are read with a default that is never used.
* **Messages** that show a value keep the value; the text of a `JSONDecodeError` keeps no position. -/

namespace AgenticCircuit.Tools

open Bindings Frontend

/-! ### Errors -/

inductive TraceMessage where
  | text (message : String)
  | limit (name : String)
  | duplicateMember (key : PythonString)
  | notUtf8 (start : ℕ)
  | nonFinite (token : String)
  | invalidJson (message : String)
  | field (name : String) (message : String)
  | argument (name : PythonString) (message : String)
deriving DecidableEq

/-- `PerfettoTraceError` -/
structure PerfettoTraceError where
  code : String
  message : TraceMessage
  line : Option ℕ := none
deriving DecidableEq

/-- What `pack_event_jsonl` raises: its own error, or a `ValueError` of the library. -/
inductive PackError where
  | trace (error : PerfettoTraceError)
  | value (message : String)
deriving DecidableEq

abbrev Packed := Except PackError

/-- `_fail` -/
def fail {α : Type} (code : String) (message : TraceMessage) (line : Option ℕ) : Packed α :=
  .error (.trace ⟨code, message, line⟩)

def failJson {α : Type} (line : ℕ) (message : TraceMessage) : Packed α :=
  fail "ACPERFETTO-JSON" message (some line)

def failSchema {α : Type} (line : ℕ) (message : TraceMessage) : Packed α :=
  fail "ACPERFETTO-SCHEMA" message (some line)

def failOrder {α : Type} (line : ℕ) (message : String) : Packed α :=
  fail "ACPERFETTO-ORDER" (.text message) (some line)

/-! ### Limits -/

structure PerfettoTraceLimits where
  max_document_bytes : ℤ := 2 ^ 26
  max_line_bytes : ℤ := 2 ^ 20
  max_event_count : ℤ := 2 ^ 20

def checkLimit (name : String) (value : ℤ) : Packed Unit :=
  if value < 0 then fail "ACPERFETTO-LIMIT" (.limit name) none else .ok ()

/-- `_check_limits` -/
def checkLimits (limits : PerfettoTraceLimits) : Packed Unit := do
  checkLimit "max_document_bytes" limits.max_document_bytes
  checkLimit "max_line_bytes" limits.max_line_bytes
  checkLimit "max_event_count" limits.max_event_count

/-! ### Text -/

/-- `byte & 0x3f` of a continuation byte in a range. -/
def continuation (low high : ℕ) (byte : UInt8) : Option ℕ :=
  if low ≤ byte.toNat ∧ byte.toNat ≤ high then some (byte.toNat % 0x40) else none

/-- The first code point of bytes, with the bytes behind it. -/
def decodeFirst : Bytes → Option (CodePoint × Bytes)
  | [] => none
  | first :: rest =>
    let n := first.toNat
    if n < 0x80 then some (Fin.ofNat 0x110000 n, rest)
    else if 0xc2 ≤ n ∧ n ≤ 0xdf then
      match rest with
      | b :: rest => do
          let b ← continuation 0x80 0xbf b
          pure (Fin.ofNat 0x110000 ((n - 0xc0) * 0x40 + b), rest)
      | _ => none
    else if 0xe0 ≤ n ∧ n ≤ 0xef then
      match rest with
      | b :: c :: rest => do
          let b ← continuation (if n = 0xe0 then 0xa0 else 0x80) (if n = 0xed then 0x9f else 0xbf) b
          let c ← continuation 0x80 0xbf c
          pure (Fin.ofNat 0x110000 (((n - 0xe0) * 0x40 + b) * 0x40 + c), rest)
      | _ => none
    else if 0xf0 ≤ n ∧ n ≤ 0xf4 then
      match rest with
      | b :: c :: d :: rest => do
          let b ← continuation (if n = 0xf0 then 0x90 else 0x80) (if n = 0xf4 then 0x8f else 0xbf) b
          let c ← continuation 0x80 0xbf c
          let d ← continuation 0x80 0xbf d
          pure (Fin.ofNat 0x110000 ((((n - 0xf0) * 0x40 + b) * 0x40 + c) * 0x40 + d), rest)
      | _ => none
    else none

/-- `decode("utf-8", errors="strict")`; the error is the byte where it starts.  A turn takes at
least one byte. -/
def decodeUtf8From : ℕ → ℕ → Bytes → Except ℕ PythonString
  | _, _, [] => .ok []
  | 0, start, _ :: _ => .error start
  | fuel + 1, start, first :: bytes =>
    match decodeFirst (first :: bytes) with
    | none => .error start
    | some (c, rest) => do
        let text ← decodeUtf8From fuel (start + (bytes.length + 1 - rest.length)) rest
        pure (c :: text)

def decodeUtf8 (data : Bytes) : Except ℕ PythonString := decodeUtf8From data.length 0 data

def isLineBreak (c : CodePoint) : Bool :=
  (decide (0x0a ≤ c.val) && decide (c.val ≤ 0x0d)) ||
    (decide (0x1c ≤ c.val) && decide (c.val ≤ 0x1e)) ||
      decide (c.val = 0x85) || decide (c.val = 0x2028) || decide (c.val = 0x2029)

/-- `splitlines`, with the line so far. -/
def splitLinesFrom (line : PythonString) : PythonString → List PythonString
  | [] => if line = [] then [] else [line]
  | [c] => if isLineBreak c then [line] else [line ++ [c]]
  | c :: d :: rest =>
    if c.val = 0x0d ∧ d.val = 0x0a then line :: splitLinesFrom [] rest
    else if isLineBreak c then line :: splitLinesFrom [] (d :: rest)
    else splitLinesFrom (line ++ [c]) (d :: rest)

def splitLines (text : PythonString) : List PythonString := splitLinesFrom [] text

/-- `str.isspace`, of one character. -/
def isSpace (c : CodePoint) : Bool :=
  (decide (0x09 ≤ c.val) && decide (c.val ≤ 0x0d)) ||
    (decide (0x1c ≤ c.val) && decide (c.val ≤ 0x20)) ||
      decide (c.val ∈ [0x85, 0xa0, 0x1680, 0x2028, 0x2029, 0x202f, 0x205f, 0x3000]) ||
        (decide (0x2000 ≤ c.val) && decide (c.val ≤ 0x200a))

/-! ### Checks on values -/

abbrev Items := List (PythonString × PythonValue)

/-- `dict.get` -/
def getItem (items : Items) (key : String) : Option PythonValue :=
  (items.find? fun item => item.1 = codePoints key).map Prod.snd

/-- `items[key]`, where the key is present. -/
def item (items : Items) (key : String) : PythonValue := (getItem items key).getD .none

/-- `value == text` -/
def equalsText (value : PythonValue) (text : String) : Bool :=
  match value with
  | .str value => value = codePoints text
  | _ => false

/-- The hook of `_pairs`. -/
def rejectDuplicates (line : ℕ) : Items → Items → Packed PythonValue
  | result, [] => .ok (.dict result)
  | result, (key, value) :: pairs =>
    if (result.map Prod.fst).contains key then failJson line (.duplicateMember key)
    else rejectDuplicates line (result ++ [(key, value)]) pairs

/-- `_exact_object` -/
def exactObject (value : PythonValue) (keys : List String) (line : ℕ) (description : String) :
    Packed Items :=
  match value with
  | .dict items =>
    if (items.map Prod.fst).all (fun key => (keys.map codePoints).contains key) &&
        keys.all (fun key => (items.map Prod.fst).contains (codePoints key)) then .ok items
    else failSchema line (.field description "has unknown or missing fields")
  | _ => failSchema line (.field description "has unknown or missing fields")

/-- `_safe_uint` -/
def safeUint (value : PythonValue) (line : ℕ) (name : String) : Packed ℤ :=
  match value with
  | .int value =>
    if 0 ≤ value ∧ value ≤ 2 ^ 53 - 1 then .ok value
    else failSchema line (.field name "must be an unsigned portable I-JSON integer")
  | _ => failSchema line (.field name "must be an unsigned portable I-JSON integer")

def isNameStart (c : CodePoint) : Bool :=
  (decide ('A'.toNat ≤ c.val) && decide (c.val ≤ 'Z'.toNat)) ||
    (decide ('a'.toNat ≤ c.val) && decide (c.val ≤ 'z'.toNat)) || decide (c.val = '_'.toNat)

def isNamePart (c : CodePoint) : Bool :=
  isNameStart c || isDecimal c || decide (c.val = '.'.toNat) || decide (c.val = '-'.toNat)

/-- `_NAME.fullmatch` -/
def matchesName : PythonString → Bool
  | [] => false
  | c :: rest => isNameStart c && rest.all isNamePart

/-- `_name` -/
def checkName (value : PythonValue) (line : ℕ) (field : String) : Packed Unit :=
  match value with
  | .str value =>
    if matchesName value then .ok () else failSchema line (.field field "is not canonical")
  | _ => failSchema line (.field field "is not canonical")

/-- `_unicode_string`, with the place it is asked for. -/
def unicodeString (value : PythonValue) (line : ℕ) (place : String → TraceMessage) :
    Packed PythonString :=
  match value with
  | .str value =>
    if value.any isSurrogate then failSchema line (place "contains a non-Unicode scalar value")
    else .ok value
  | _ => failSchema line (place "must be a string")

/-- `_argument_value` -/
def argumentValue (value : PythonValue) (line : ℕ) (name : PythonString) : Packed Unit :=
  match value with
  | .bool _ => .ok ()
  | .str value => do
      let _ ← unicodeString (.str value) line (.argument name)
      pure ()
  | .int value =>
    if -(2 ^ 53 - 1) ≤ value ∧ value ≤ 2 ^ 53 - 1 then .ok ()
    else failSchema line (.argument name "is not a runtime scalar")
  | _ => failSchema line (.argument name "is not a runtime scalar")

/-! ### Records -/

inductive MetadataKind where
  | processName
  | threadName (thread : ℤ)

/-- The tail of `_metadata`, on the fields that were found. -/
def metadataTail (metadata : Items) (line : ℕ) (kind : MetadataKind) : Packed MetadataKind := do
  let identity :=
    match item metadata "pid" with
    | .int pid => equalsText (item metadata "ph") "M" && decide (pid = 0)
    | _ => false
  if !identity then failSchema line (.text "metadata identity is invalid")
  else
    let arguments ← exactObject (item metadata "args") ["name"] line "metadata arguments"
    let display ← unicodeString (item arguments "name") line (.field "metadata display name")
    if display = [] then failSchema line (.text "metadata display name is empty") else pure kind

/-- `_metadata` -/
def checkMetadata (value : Items) (line : ℕ) : Packed MetadataKind := do
  let name := (getItem value "name").getD .none
  if equalsText name "process_name" then
    let metadata ← exactObject (.dict value) ["name", "ph", "pid", "args"] line "process metadata"
    metadataTail metadata line .processName
  else if equalsText name "thread_name" then
    let metadata ← exactObject (.dict value) ["name", "ph", "pid", "tid", "args"] line
      "thread metadata"
    let thread ← safeUint (item metadata "tid") line "tid"
    metadataTail metadata line (.threadName thread)
  else failSchema line (.text "metadata name is unsupported")

/-- The fields of a phase. -/
def phaseFields : List (String × List String) :=
  [("i", ["s"]), ("X", ["dur"]), ("C", []), ("s", ["id"]), ("f", ["id", "bp"])]

def committedArguments : List String :=
  ["gfsim_epoch_time", "gfsim_epoch_delta", "gfsim_object_id", "gfsim_local_committed_index"]

def optionalCommittedArguments : List String := ["gfsim_root_sequence_id"]

/-- The order key of an event. -/
structure TraceKey where
  time : ℤ
  delta : ℤ
  owner : ℤ
  localIndex : ℤ
deriving DecidableEq

/-- `previous < key`, on the tuples. -/
def TraceKey.before (previous key : TraceKey) : Bool :=
  decide (previous.time < key.time) || (decide (previous.time = key.time) &&
    (decide (previous.delta < key.delta) || (decide (previous.delta = key.delta) &&
      (decide (previous.owner < key.owner) || (decide (previous.owner = key.owner) &&
        decide (previous.localIndex < key.localIndex))))))

/-- The loop over the arguments. -/
def checkArguments (line : ℕ) : Items → Packed Unit
  | [] => .ok ()
  | (name, argument) :: arguments => do
      checkName (.str name) line "argument name"
      argumentValue argument line name
      checkArguments line arguments

/-- The part of `_committed_event` on the arguments. -/
def committedKey (arguments : Items) (timestamp thread : ℤ) (line : ℕ) : Packed TraceKey := do
  let keys := arguments.map Prod.fst
  if !committedArguments.all (fun key => keys.contains (codePoints key)) then
    failSchema line (.text "committed identity is incomplete")
  else if !(keys.filter fun key => codePoints "gfsim_" <+: key).all fun key =>
      ((committedArguments ++ optionalCommittedArguments).map codePoints).contains key then
    failSchema line (.text "unknown runtime argument")
  else
    checkArguments line arguments
    let time ← safeUint (item arguments "gfsim_epoch_time") line "epoch time"
    let delta ← safeUint (item arguments "gfsim_epoch_delta") line "epoch delta"
    let owner ← safeUint (item arguments "gfsim_object_id") line "object id"
    let localIndex ← safeUint (item arguments "gfsim_local_committed_index") line
      "owner-local committed index"
    if 1024 ≤ delta ∨ owner ≠ thread ∨ (2 ^ 53 - 1 - delta) / 1024 < time ∨
        timestamp ≠ time * 1024 + delta then
      failSchema line (.text "runtime timestamp or object identity is inconsistent")
    else
      match getItem arguments "gfsim_root_sequence_id" with
      | none => pure ⟨time, delta, owner, localIndex⟩
      | some root => do
          let _ ← safeUint root line "root sequence id"
          pure ⟨time, delta, owner, localIndex⟩

/-- The part of `_committed_event` on the fields of a phase. -/
def checkPhase (phase : String) (event : Items) (line : ℕ) : Packed Unit := do
  if phase = "i" && !equalsText (item event "s") "t" then
    failSchema line (.text "instant scope must be thread")
  else
    if phase = "X" then
      let _ ← safeUint (item event "dur") line "duration"
    if phase = "s" || phase = "f" then
      let _ ← safeUint (item event "id") line "flow id"
    if phase = "f" && !equalsText (item event "bp") "e" then
      failSchema line (.text "flow end binding point is invalid")
    else pure ()

/-- `_committed_event` -/
def checkCommittedEvent (value : Items) (line : ℕ) : Packed TraceKey := do
  match phaseFields.find? fun phase => equalsText ((getItem value "ph").getD .none) phase.1 with
  | none => failSchema line (.text "event phase is unsupported")
  | some (phase, extra) =>
    let event ← exactObject (.dict value)
      (["name", "cat", "ph", "ts", "pid", "tid", "args"] ++ extra) line "event"
    checkName (item event "name") line "name"
    checkName (item event "cat") line "category"
    match item event "pid" with
    | .int 0 =>
      let timestamp ← safeUint (item event "ts") line "ts"
      let thread ← safeUint (item event "tid") line "tid"
      match item event "args" with
      | .dict arguments =>
        let key ← committedKey arguments timestamp thread line
        checkPhase phase event line
        pure key
      | _ => failSchema line (.text "event args must be an object")
    | _ => failSchema line (.text "runtime event pid must be zero")

/-! ### The packer -/

structure PackState where
  events : List PythonValue := []
  previous : Option TraceKey := none
  timelineStarted : Bool := false
  processSeen : Bool := false
  threadIds : List ℤ := []

section pack

-- `float` on the text of a number, what is left of the recursion limit, `repr` on a float.
variable (parseFloat : PythonString → Double) (depth : ℕ) (repr : ℚ → Bytes)

def lineHooks (line : ℕ) : LoadsHooks PackError where
  objectPairs := rejectDuplicates line []
  parseConstant token := failJson line (.nonFinite token)

/-- `json.loads` on a line, with the errors that are caught. -/
def loadLine (line : ℕ) (text : PythonString) : Packed PythonValue :=
  match loads parseFloat (lineHooks line) depth text with
  | .ok value => .ok value
  | .error (.raised error) => .error error
  | .error (.decode message) => failJson line (.invalidJson message)
  | .error .recursion => failJson line (.invalidJson "maximum recursion depth exceeded")
  | .error .digits => .error (.value "Exceeds the limit (4300 digits) for integer string conversion")
  | .error .outOfFuel => .error (.value "out of fuel")

/-- A record of metadata. -/
def packMetadata (state : PackState) (value : Items) (line : ℕ) : Packed PackState := do
  if state.timelineStarted then failOrder line "metadata must precede committed events"
  else
    match ← checkMetadata value line with
    | .processName =>
      if state.processSeen then failOrder line "duplicate process metadata"
      else pure { state with events := state.events ++ [.dict value], processSeen := true }
    | .threadName thread =>
      if thread ∈ state.threadIds then failOrder line "duplicate thread metadata"
      else pure { state with
        events := state.events ++ [.dict value], threadIds := thread :: state.threadIds }

/-- A record of an event. -/
def packEvent (state : PackState) (value : Items) (line : ℕ) : Packed PackState := do
  let key ← checkCommittedEvent value line
  if state.previous.any fun previous => !previous.before key then
    failOrder line "committed event keys are not strictly increasing"
  else pure { state with
    events := state.events ++ [.dict value], previous := some key, timelineStarted := true }

/-- A turn of the loop. -/
def packLine (limits : PerfettoTraceLimits) (state : PackState) (line : ℕ) (text : PythonString) :
    Packed PackState := do
  if text.all isSpace then failJson line (.text "blank JSONL record")
  else if limits.max_line_bytes < (bytesOf text).length then
    fail "ACPERFETTO-LIMIT" (.text "line byte limit exceeded") (some line)
  else if limits.max_event_count ≤ state.events.length then
    fail "ACPERFETTO-LIMIT" (.text "event count limit exceeded") (some line)
  else
    match ← loadLine parseFloat depth line text with
    | .dict value =>
      if equalsText ((getItem value "ph").getD .none) "M" then packMetadata state value line
      else packEvent state value line
    | _ => failSchema line (.text "event record must be an object")

/-- The loop over the lines. -/
def packLines (limits : PerfettoTraceLimits) (state : PackState) :
    ℕ → List PythonString → Packed PackState
  | _, [] => .ok state
  | line, text :: texts => do
      let state ← packLine parseFloat depth limits state line text
      packLines limits state (line + 1) texts

/-- The list `events` at the end of `pack_event_jsonl`. -/
def packedEvents (limits : PerfettoTraceLimits) (data : Bytes) : Packed (List PythonValue) := do
  checkLimits limits
  if limits.max_document_bytes < data.length then
    fail "ACPERFETTO-LIMIT" (.text "document byte limit exceeded") none
  else
    match decodeUtf8 data with
    | .error start => fail "ACPERFETTO-JSON" (.notUtf8 start) none
    | .ok text => do
        let state ← packLines parseFloat depth limits {} 1 (splitLines text)
        pure state.events

/-- `canonical_json_bytes`, whose `ValueError` nothing catches. -/
def canonicalBytes (value : PythonValue) : Packed Bytes :=
  match canonicalJsonBytes repr value with
  | .ok bytes => .ok bytes
  | .error message => .error (.value message)

/-- `pack_event_jsonl` -/
def packEventJsonl (limits : PerfettoTraceLimits) (data : Bytes) : Packed Bytes := do
  let events ← packedEvents parseFloat depth limits data
  let bytes ← canonicalBytes repr (.dict [(codePoints "traceEvents", .list events)])
  pure (bytes ++ utf8 "\n")

end pack

end AgenticCircuit.Tools
