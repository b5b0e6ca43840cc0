import AgenticCircuit.Bindings.Json
import AgenticCircuit.Lib.Ordered
import Mathlib.Data.List.Lex

/-! # Trace documents

The types of `gfsim/trace.h`: a decoded PTO trace document, the limits on it and the diagnostics of
a document that is refused.  A `std::map` of members stands as a list in the order of its keys. -/

namespace AgenticCircuit.Trace

open Bindings

inductive PtoValue where
  | null
  | boolean (value : Bool)
  | integer (value : ℤ)
  | unsigned (value : ℕ)
  | number (value : Double)
  | string (value : Bytes)
  | array (elements : List PtoValue)
  | object (members : List (Bytes × PtoValue))

inductive PtoOperandKind where
  | immediate
  | buffer
  | tile
  | address
  | symbol
  | recordResult
deriving DecidableEq

structure PtoTraceOperand where
  kind : PtoOperandKind := .immediate
  type : Bytes := []
  immediate : Option PtoValue := none
  id : Bytes := []
  addressSpace : Bytes := []
  address : ℕ := 0
  sequenceId : ℕ := 0
  resultIndex : ℕ := 0

structure PtoSourceLocation where
  file : Bytes := []
  line : ℕ := 0
  column : ℕ := 0
deriving DecidableEq

structure PtoTraceRecord where
  sequenceId : ℕ := 0
  opcode : Bytes := []
  operands : List PtoTraceOperand := []
  dependencies : List ℕ := []
  attributes : List (Bytes × PtoValue) := []
  issueTime : Option ℕ := none
  source : Option PtoSourceLocation := none

structure PtoTraceMetadata where
  producer : Bytes := []
  ptoIdentity : Bytes := []
  sourceProgram : Bytes := []
  addressSpaces : List Bytes := []
  dataLayout : Bytes := []
  recordCount : Option ℕ := none
  contentHash : Bytes := []
deriving DecidableEq

structure PtoTraceDocument where
  metadata : PtoTraceMetadata := {}
  records : List PtoTraceRecord := []

structure TraceValidationLimits where
  maxDocumentBytes : ℕ := 2 ^ 20
  maxNestingDepth : ℕ := 64
  maxStringBytes : ℕ := 2 ^ 18
  maxRecordCount : ℕ := 65536
  maxOperandsPerRecord : ℕ := 1024
  maxDependenciesPerRecord : ℕ := 1024
  maxAttributeMembers : ℕ := 4096
  maxAggregateDecodedBytes : ℕ := 2 ^ 24
  maxDiagnostics : ℕ := 16
deriving DecidableEq

/-- The codes of the diagnostics. -/
inductive TraceCode where
  | json
  | limit
  | schema
  | metadata
  | identity
  | dependency
  | address
  | stream
deriving DecidableEq

structure TraceDiagnostic where
  code : TraceCode
  jsonPointer : Bytes
  sequenceId : Option ℕ
  message : Bytes
deriving DecidableEq

structure TraceLoadResult where
  document : Option PtoTraceDocument := none
  diagnostics : List TraceDiagnostic := []

def TraceLoadResult.succeeded (r : TraceLoadResult) : Bool :=
  r.document.isSome && r.diagnostics.isEmpty

/-- `emplace` into a `std::map` of strings: a key that is there keeps its value. -/
def emplace {α : Type} (key : Bytes) (value : α) (members : List (Bytes × α)) : List (Bytes × α) :=
  if key ∈ members.map Prod.fst then members
  else insertKey (fun member => member.1.map UInt8.toNat) (key, value) members

theorem length_emplace_le {α : Type} (key : Bytes) (value : α) (members : List (Bytes × α)) :
    (emplace key value members).length ≤ members.length + 1 := by
  unfold emplace
  split_ifs
  · exact Nat.le_succ _
  · rw [length_insertKey]

end AgenticCircuit.Trace
