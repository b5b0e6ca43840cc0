import AgenticCircuit.Bindings.Canonical
import AgenticCircuit.Trace.Document

/-! # The trace parser

`TraceParser` of `trace.cpp`: the decoder of a JSON document into a `PtoTraceDocument`.  It is a
function of the state of the parser, `Decoder`, and stops at the first failure, whose diagnostic it
returns; `TraceLoadResult` keeps it when the limit on diagnostics leaves room for one. -/

namespace AgenticCircuit.Trace

open Bindings

/-- The fields of `TraceParser`. -/
structure Decoder where
  decodedBytes : ℕ := 0
  lastSequenceId : Option ℕ := none
  seenSequenceIds : List ℕ := []
  declaredAddressSpaces : List Bytes := []
deriving DecidableEq

/-- A method of the parser: its result, or the diagnostic it failed with, and the fields it
leaves. -/
abbrev Parse (α : Type) := ExceptT TraceDiagnostic (StateM Decoder) α

def fail {α : Type} (code : TraceCode) (pointer : Bytes) (sequenceId : Option ℕ)
    (message : Bytes) : Parse α :=
  throw ⟨code, pointer, sequenceId, message⟩

/-- The pointer of a field of the schema. -/
def field (pointer : Bytes) (name : String) : Bytes := pointer ++ '/'.toUInt8 :: utf8 name

/-- The pointer of an element. -/
def element (pointer : Bytes) (index : ℕ) : Bytes :=
  pointer ++ '/'.toUInt8 :: utf8 (toString index)

def pointerToken (token : Bytes) : Bytes :=
  token.flatMap fun character =>
    if character = '~'.toUInt8 then utf8 "~0"
    else if character = '/'.toUInt8 then utf8 "~1"
    else [character]

/-! ### Values of the document -/

/-- `getAsUINT64` -/
def asUInt : JsonValue → Option ℕ
  | .unsigned value => some value
  | .integer value => if 0 ≤ value then some value.toNat else none
  | _ => none

/-- `getAsInteger`: a double that is whole and in the range counts as an integer. -/
def asInteger : JsonValue → Option ℤ
  | .integer value => some value
  | .double (.finite value) =>
    if value.den = 1 ∧ -2 ^ 63 ≤ value ∧ value < 2 ^ 63 then some value.num else none
  | .double .negativeZero => some 0
  | _ => none

def asString : JsonValue → Option Bytes
  | .string value => some value
  | _ => none

def asArray : JsonValue → Option (List JsonValue)
  | .array elements => some elements
  | _ => none

abbrev Members := List (Bytes × JsonValue)

def asObject : JsonValue → Option Members
  | .object members => some members
  | _ => none

/-- `object.get(key)` -/
def Members.get (object : Members) (key : String) : Option JsonValue := object.lookup (utf8 key)

section parser

variable (limits : TraceValidationLimits)

def spendDecoded (bytes : ℕ) (pointer : Bytes) (sequenceId : Option ℕ) : Parse Unit := do
  let s ← get
  if bytes > limits.maxAggregateDecodedBytes - min s.decodedBytes limits.maxAggregateDecodedBytes
  then
    fail .limit pointer sequenceId (utf8 "aggregate decoded byte limit exceeded")
  else set { s with decodedBytes := s.decodedBytes + bytes }

def checkObject (object : Members) (pointer : Bytes) (required allowed : List String)
    (sequenceId : Option ℕ) : Parse Unit :=
  match object.find? fun entry => !(allowed.any fun key => utf8 key == entry.1) with
  | some entry =>
    fail .schema (pointer ++ '/'.toUInt8 :: pointerToken entry.1) sequenceId
      (utf8 "unknown object member")
  | none =>
    match required.find? fun key => (object.get key).isNone with
    | some key =>
      fail .schema (field pointer key) sequenceId
        (utf8 "required object member is missing")
    | none => pure ()

def readString (value : Option JsonValue) (pointer : Bytes) (sequenceId : Option ℕ) :
    Parse Bytes :=
  match value.bind asString with
  | some (byte :: bytes) => do
      spendDecoded limits (byte :: bytes).length pointer sequenceId
      pure (byte :: bytes)
  | _ => fail .schema pointer sequenceId (utf8 "expected a non-empty string")

def readUInt (value : Option JsonValue) (pointer : Bytes) (sequenceId : Option ℕ) : Parse ℕ :=
  match value.bind asUInt with
  | some output => do
      spendDecoded limits 8 pointer sequenceId
      pure output
  | none => fail .schema pointer sequenceId (utf8 "expected an unsigned 64-bit integer")

/-- A member that may be missing. -/
def readOptional {α : Type} (value : Option JsonValue) (read : Option JsonValue → Parse α) :
    Parse (Option α) :=
  match value with
  | none => pure none
  | some value => some <$> read (some value)

/-! ### Attribute values -/

mutual

/-- `parseValue` without `scalarOnly`. -/
def parseValue (pointer : Bytes) (sequenceId : ℕ) : JsonValue → Parse PtoValue
  | .null => do
      spendDecoded limits 1 pointer sequenceId
      pure .null
  | .boolean value => do
      spendDecoded limits 1 pointer sequenceId
      pure (.boolean value)
  | .integer value => do
      spendDecoded limits 1 pointer sequenceId
      pure (.integer value)
  | .unsigned value => do
      spendDecoded limits 1 pointer sequenceId
      pure (.unsigned value)
  | .double value => do
      spendDecoded limits 1 pointer sequenceId
      match asInteger (.double value) with
      | some value => pure (.integer value)
      | none => pure (.number value)
  | .string value => do
      spendDecoded limits 1 pointer sequenceId
      spendDecoded limits value.length pointer sequenceId
      pure (.string value)
  | .array elements => do
      spendDecoded limits 1 pointer sequenceId
      .array <$> parseElements pointer sequenceId 0 elements
  | .object members => do
      spendDecoded limits 1 pointer sequenceId
      .object <$> parseMembers pointer sequenceId [] members

def parseElements (pointer : Bytes) (sequenceId : ℕ) : ℕ → List JsonValue → Parse (List PtoValue)
  | _, [] => pure []
  | index, value :: elements => do
      let decoded ← parseValue (element pointer index) sequenceId value
      let rest ← parseElements pointer sequenceId (index + 1) elements
      pure (decoded :: rest)

def parseMembers (pointer : Bytes) (sequenceId : ℕ) :
    List (Bytes × PtoValue) → List (Bytes × JsonValue) → Parse (List (Bytes × PtoValue))
  | output, [] => pure output
  | output, (key, value) :: members => do
      let member ← parseValue (pointer ++ '/'.toUInt8 :: pointerToken key) sequenceId value
      spendDecoded limits key.length pointer sequenceId
      parseMembers pointer sequenceId (emplace key member output) members

end

def isScalar : JsonValue → Bool
  | .array _ | .object _ => false
  | _ => true

/-- `parseValue` with `scalarOnly`. -/
def parseScalar (pointer : Bytes) (sequenceId : ℕ) (value : JsonValue) : Parse PtoValue :=
  if isScalar value then parseValue limits pointer sequenceId value
  else do
    spendDecoded limits 1 pointer sequenceId
    fail .schema pointer sequenceId (utf8 "immediate value must be a JSON scalar")

/-! ### Operands -/

def parseOperand (operand : Members) (pointer : Bytes) (rootSequenceId : ℕ) :
    Parse PtoTraceOperand := do
  let kind ← readString limits (operand.get "kind") (field pointer "kind") rootSequenceId
  let check (fields : List String) := checkObject operand pointer fields fields rootSequenceId
  let reference (kind : PtoOperandKind) : Parse PtoTraceOperand := do
    check ["kind", "id"]
    let id ← readString limits (operand.get "id") (field pointer "id") rootSequenceId
    pure { kind, id }
  if kind = utf8 "immediate" then
    check ["kind", "type", "value"]
    let type ← readString limits (operand.get "type") (field pointer "type") rootSequenceId
    let value ← parseScalar limits (field pointer "value") rootSequenceId
      ((operand.get "value").getD .null)
    pure { kind := .immediate, type, immediate := some value }
  else if kind = utf8 "buffer" then reference .buffer
  else if kind = utf8 "tile" then reference .tile
  else if kind = utf8 "symbol" then reference .symbol
  else if kind = utf8 "address" then
    check ["kind", "space", "value"]
    let addressSpace ← readString limits (operand.get "space") (field pointer "space")
      rootSequenceId
    let address ← readUInt limits (operand.get "value") (field pointer "value") rootSequenceId
    if addressSpace ∈ (← get).declaredAddressSpaces then
      pure { kind := .address, addressSpace, address }
    else
      fail .address (field pointer "space") rootSequenceId
        (utf8 "address space is absent from trace metadata")
  else if kind = utf8 "record_result" then
    check ["kind", "sequence_id", "result_index"]
    let sequenceId ← readUInt limits (operand.get "sequence_id") (field pointer "sequence_id")
      rootSequenceId
    let resultIndex ← readUInt limits (operand.get "result_index")
      (field pointer "result_index") rootSequenceId
    if sequenceId ∈ (← get).seenSequenceIds then
      pure { kind := .recordResult, sequenceId, resultIndex }
    else
      fail .dependency (field pointer "sequence_id") rootSequenceId
        (utf8 "record_result must reference an earlier record")
  else fail .schema (field pointer "kind") rootSequenceId (utf8 "unknown operand kind")

/-- The loop over the operands from an index on. -/
def parseOperands (pointer : Bytes) (sequenceId : ℕ) :
    ℕ → List JsonValue → Parse (List PtoTraceOperand)
  | _, [] => pure []
  | index, value :: operands => do
      let operandPointer := element (field pointer "operands") index
      match asObject value with
      | none => fail .schema operandPointer sequenceId (utf8 "operand must be an object")
      | some operand =>
        let decoded ← parseOperand limits operand operandPointer sequenceId
        let rest ← parseOperands pointer sequenceId (index + 1) operands
        pure (decoded :: rest)

/-! ### Records -/

/-- The loop over the dependencies from an index on, after the given ones. -/
def parseDependencies (pointer : Bytes) (sequenceId : ℕ) :
    ℕ → List ℕ → List JsonValue → Parse (List ℕ)
  | _, dependencies, [] => pure dependencies
  | index, dependencies, value :: rest => do
      let dependencyPointer := element (field pointer "dependencies") index
      let dependency ← readUInt limits (some value) dependencyPointer sequenceId
      if dependency ∈ dependencies then
        fail .dependency dependencyPointer sequenceId (utf8 "duplicate dependency")
      else if dependency ∉ (← get).seenSequenceIds then
        fail .dependency dependencyPointer sequenceId
          (utf8 "dependency must reference an earlier record")
      else parseDependencies pointer sequenceId (index + 1) (dependencies ++ [dependency]) rest

/-- The loop over the attributes. -/
def parseAttributes (pointer : Bytes) (sequenceId : ℕ) :
    List (Bytes × PtoValue) → Members → Parse (List (Bytes × PtoValue))
  | attributes, [] => pure attributes
  | attributes, (key, value) :: rest => do
      let decoded ← parseValue limits
        (field pointer "attributes" ++ '/'.toUInt8 :: pointerToken key) sequenceId value
      parseAttributes pointer sequenceId (emplace key decoded attributes) rest

def parseSource (source : Members) (pointer : Bytes) (sequenceId : ℕ) :
    Parse PtoSourceLocation := do
  checkObject source pointer ["file", "line", "column"] ["file", "line", "column"] sequenceId
  let file ← readString limits (source.get "file") (field pointer "file") sequenceId
  let line ← readUInt limits (source.get "line") (field pointer "line") sequenceId
  let column ← readUInt limits (source.get "column") (field pointer "column") sequenceId
  if line = 0 ∨ column = 0 then
    fail .schema pointer sequenceId (utf8 "source line and column must be positive")
  else pure ⟨file, line, column⟩

def isAlpha (byte : UInt8) : Bool :=
  decide ('a'.toUInt8 ≤ byte ∧ byte ≤ 'z'.toUInt8 ∨ 'A'.toUInt8 ≤ byte ∧ byte ≤ 'Z'.toUInt8)

def isOpcode : Bytes → Bool
  | [] => false
  | first :: rest =>
    (isAlpha first || first == '_'.toUInt8) &&
      rest.all fun byte =>
        isAlpha byte || isDigit byte || byte == '_'.toUInt8 || byte == '.'.toUInt8

/-- The array of a field, with at most `maximum` elements. -/
def readArray (value : Option JsonValue) (pointer : Bytes) (sequenceId : Option ℕ)
    (maximum : ℕ) (notArray limitExceeded : String) : Parse (List JsonValue) :=
  match value.bind asArray with
  | none => fail .schema pointer sequenceId (utf8 notArray)
  | some elements =>
    if elements.length > maximum then fail .limit pointer sequenceId (utf8 limitExceeded)
    else pure elements

/-- The part of `parseRecord` that orders the records. -/
def claimSequenceId (pointer : Bytes) (sequenceId : ℕ) : Parse Unit := do
  let s ← get
  if s.lastSequenceId.any (sequenceId ≤ ·) then
    fail .identity pointer sequenceId (utf8 "sequence_id values must be strictly increasing")
  else set { s with lastSequenceId := some sequenceId }

/-- `parseSource` on a member that may be missing. -/
def parseOptionalSource (record : Members) (pointer : Bytes) (sequenceId : ℕ) :
    Parse (Option PtoSourceLocation) :=
  match record.get "source" with
  | none => pure none
  | some value =>
    match asObject value with
    | some source => some <$> parseSource limits source (field pointer "source") sequenceId
    | none => fail .schema (field pointer "source") sequenceId (utf8 "source must be an object")

def parseRecord (record : Members) (pointer : Bytes) : Parse PtoTraceRecord := do
  checkObject record pointer ["sequence_id", "opcode", "operands", "dependencies", "attributes"]
    ["sequence_id", "opcode", "operands", "dependencies", "attributes", "issue_time", "source"]
    none
  let sequenceId ← readUInt limits (record.get "sequence_id") (field pointer "sequence_id") none
  claimSequenceId (field pointer "sequence_id") sequenceId
  let opcode ← readString limits (record.get "opcode") (field pointer "opcode") sequenceId
  if !isOpcode opcode then
    fail .schema (field pointer "opcode") sequenceId (utf8 "opcode has an invalid spelling")
  else
    let elements ← readArray (record.get "operands") (field pointer "operands") sequenceId
      limits.maxOperandsPerRecord "operands must be an array" "operand count limit exceeded"
    let operands ← parseOperands limits pointer sequenceId 0 elements
    let elements ← readArray (record.get "dependencies") (field pointer "dependencies") sequenceId
      limits.maxDependenciesPerRecord "dependencies must be an array"
      "dependency count limit exceeded"
    let dependencies ← parseDependencies limits pointer sequenceId 0 [] elements
    match (record.get "attributes").bind asObject with
    | none =>
      fail .schema (field pointer "attributes") sequenceId
        (utf8 "attributes must be an object")
    | some members =>
      if members.length > limits.maxAttributeMembers then
        fail .limit (field pointer "attributes") sequenceId
          (utf8 "attribute member limit exceeded")
      else
        let attributes ← parseAttributes limits pointer sequenceId [] members
        let issueTime ← readOptional (record.get "issue_time") fun value =>
          readUInt limits value (field pointer "issue_time") sequenceId
        let source ← parseOptionalSource limits record pointer sequenceId
        modify fun s => { s with seenSequenceIds := sequenceId :: s.seenSequenceIds }
        pure { sequenceId, opcode, operands, dependencies, attributes, issueTime, source }

/-- The loop over the records from an index on. -/
def parseRecords : ℕ → List JsonValue → Parse (List PtoTraceRecord)
  | _, [] => pure []
  | index, value :: records => do
      let pointer := element (utf8 "/records") index
      match asObject value with
      | none => fail .schema pointer none (utf8 "record must be an object")
      | some record =>
        let decoded ← parseRecord limits record pointer
        let rest ← parseRecords (index + 1) records
        pure (decoded :: rest)

/-! ### The document -/

/-- A `sha256` fingerprint with lowercase digits. -/
def isFingerprint (text : Bytes) : Bool :=
  text.length == 71 && (utf8 "sha256:").isPrefixOf text &&
    (text.drop 7).all fun byte =>
      isDigit byte || decide ('a'.toUInt8 ≤ byte ∧ byte ≤ 'f'.toUInt8)

def parseContentHash (value : Option JsonValue) : Parse Bytes := do
  let contentHash ← readString limits value (utf8 "/metadata/content_hash") none
  if isFingerprint contentHash then pure contentHash
  else
    fail .schema (utf8 "/metadata/content_hash") none
      (utf8 "content_hash must be a lowercase sha256 fingerprint")

/-- The loop over the address spaces from an index on, after the given ones. -/
def parseSpaces : ℕ → List Bytes → List JsonValue → Parse (List Bytes)
  | _, spaces, [] => pure spaces
  | index, spaces, value :: rest => do
      let pointer := element (utf8 "/metadata/address_spaces") index
      let space ← readString limits (some value) pointer none
      if space ∈ spaces then
        fail .schema pointer none (utf8 "address_spaces entries must be unique")
      else
        modify fun s => { s with declaredAddressSpaces := space :: s.declaredAddressSpaces }
        parseSpaces (index + 1) (spaces ++ [space]) rest

def parseAddressSpaces (value : Option JsonValue) : Parse (List Bytes) :=
  match value.bind asArray with
  | none =>
    fail .schema (utf8 "/metadata/address_spaces") none
      (utf8 "address_spaces must be an array")
  | some spaces => parseSpaces limits 0 [] spaces

def parseMetadata (metadata : Members) : Parse PtoTraceMetadata := do
  checkObject metadata (utf8 "/metadata") []
    ["producer", "pto_identity", "source_program", "address_spaces", "data_layout",
      "record_count", "content_hash"] none
  let string (name : String) : Parse (Option Bytes) :=
    readOptional (metadata.get name) fun value =>
      readString limits value (field (utf8 "/metadata") name) none
  let producer ← string "producer"
  let ptoIdentity ← string "pto_identity"
  let sourceProgram ← string "source_program"
  let dataLayout ← string "data_layout"
  let recordCount ← readOptional (metadata.get "record_count") fun value =>
    readUInt limits value (utf8 "/metadata/record_count") none
  let contentHash ← readOptional (metadata.get "content_hash") (parseContentHash limits)
  let addressSpaces ← readOptional (metadata.get "address_spaces") (parseAddressSpaces limits)
  pure
    { producer := producer.getD []
      ptoIdentity := ptoIdentity.getD []
      sourceProgram := sourceProgram.getD []
      addressSpaces := addressSpaces.getD []
      dataLayout := dataLayout.getD []
      recordCount
      contentHash := contentHash.getD [] }

/-- The limits that the JSON reader gets from those on a trace. -/
def jsonLimits : JsonParseLimits where
  maxInputBytes := limits.maxDocumentBytes
  maxDepth := limits.maxNestingDepth
  maxStringBytes := limits.maxStringBytes
  maxTotalStringBytes := limits.maxAggregateDecodedBytes
  maxArrayElements :=
    max limits.maxRecordCount (max limits.maxOperandsPerRecord limits.maxDependenciesPerRecord)
  maxObjectMembers := limits.maxAttributeMembers
  maxStructuralWork := max limits.maxAggregateDecodedBytes 1

/-- The limits of the emitter that checks the content hash: the structural work keeps its
default. -/
def hashLimits : JsonParseLimits :=
  { jsonLimits limits with maxStructuralWork := ({} : JsonParseLimits).maxStructuralWork }

/-- The message of an error of the JSON reader. -/
def errorMessage : ScanError → Bytes
  | .json message => message
  | .outOfBounds | .outOfFuel => []

variable (library : JsonLibrary)

def validateContentHash (records : List JsonValue) (declared : Bytes) : Parse Unit :=
  if declared = [] then pure ()
  else
    match canonicalizeJson library (hashLimits limits) (.array records) with
    | .error error => fail .limit (utf8 "/metadata/content_hash") none (errorMessage error)
    | .ok canonical =>
      if sha256Fingerprint library canonical = declared then pure ()
      else
        fail .metadata (utf8 "/metadata/content_hash") none
          (utf8 "content_hash does not match canonical records bytes")

/-- A string of the root that must have a value. -/
def checkRootString (root : Members) (name expected : String) : Parse Unit :=
  if (root.get name).bind asString = some (utf8 expected) then pure ()
  else fail .schema (field [] name) none (utf8 s!"{name} must equal {expected}")

def parseRoot (root : Members) : Parse PtoTraceDocument := do
  checkObject root [] ["schema", "version", "contract_epoch", "metadata", "records"]
    ["schema", "version", "contract_epoch", "metadata", "records"] none
  checkRootString root "schema" "pto-trace"
  checkRootString root "version" "0.2"
  checkRootString root "contract_epoch" "0.2"
  match (root.get "metadata").bind asObject with
  | none => fail .schema (utf8 "/metadata") none (utf8 "metadata must be an object")
  | some members =>
    let metadata ← parseMetadata limits members
    let values ← readArray (root.get "records") (utf8 "/records") none limits.maxRecordCount
      "records must be an array" "record count limit exceeded"
    let records ← parseRecords limits 0 values
    if metadata.recordCount.any (· ≠ records.length) then
      fail .metadata (utf8 "/metadata/record_count") none
        (utf8 "record_count does not match records length")
    else
      validateContentHash limits library values metadata.contentHash
      pure { metadata, records }

/-- `message.find(text) != npos` -/
def mentions (message : Bytes) (text : String) : Bool :=
  message.tails.any (utf8 text).isPrefixOf

/-- The class of an error of the JSON reader. -/
def jsonErrorCode (message : Bytes) : TraceCode :=
  if mentions message "limit exceeded" || mentions message "maximum depth" then .limit else .json

/-- `TraceParser::parse` up to its result. -/
def parseDocument (input : Bytes) : Parse PtoTraceDocument :=
  match parseIJson library (jsonLimits limits) input with
  | .error error =>
    fail (jsonErrorCode (errorMessage error)) [] none (errorMessage error)
  | .ok value =>
    match asObject value with
    | none => fail .schema [] none (utf8 "trace document must be an object")
    | some root => parseRoot limits library root

/-- The result of a parse: the diagnostics that there is room for. -/
def loadResult (result : Except TraceDiagnostic PtoTraceDocument) : TraceLoadResult :=
  match result with
  | .ok document => { document := some document }
  | .error diagnostic =>
    { diagnostics := if 0 < limits.maxDiagnostics then [diagnostic] else [] }

/-- `parsePtoTrace` -/
def parsePtoTrace (input : Bytes) : TraceLoadResult :=
  loadResult limits (parseDocument limits library input {}).1

end parser

end AgenticCircuit.Trace
