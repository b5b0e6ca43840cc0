import AgenticCircuit.Gfsim.Observation
import AgenticCircuit.Trace.Document

/-! # NPU instructions

The data of `gfsim/npu.h`: engine classes, decoded instructions, dependencies and issue entries,
with the order of `issueEntryLess`.  Tile identities and opcodes are byte strings. -/

namespace AgenticCircuit.Npu

open Bindings Trace Gfsim

inductive NpuEngineClass where
  | scalar
  | vector
  | cube
  | tma
deriving DecidableEq

/-- The engine classes by `engineIndex`. -/
def NpuEngineClass.all : List NpuEngineClass := [.scalar, .vector, .cube, .tma]

theorem NpuEngineClass.mem_all (engine : NpuEngineClass) : engine ∈ all := by
  cases engine <;> simp [all]

def NpuEngineClass.toString : NpuEngineClass → String
  | .scalar => "scalar"
  | .vector => "vector"
  | .cube => "cube"
  | .tma => "tma"

structure NpuTimestamps where
  decoded : Option ℕ := none
  dispatched : Option ℕ := none
  issued : Option ℕ := none
  completed : Option ℕ := none
  retired : Option ℕ := none
deriving DecidableEq

structure NpuScalarImmediate where
  type : Bytes
  value : PtoValue

structure NpuTileDescriptor where
  identity : Bytes
  address : Bytes
  type : Bytes
  layout : Bytes
  shape : List PtoValue

structure NpuInstruction where
  sequenceId : ℕ := 0
  blockId : ℕ := 0
  opcode : Bytes := []
  dependencies : List ℕ := []
  operands : List PtoTraceOperand := []
  inputTiles : List Bytes := []
  outputTiles : List Bytes := []
  inputTileDescriptors : List NpuTileDescriptor := []
  outputTileDescriptors : List NpuTileDescriptor := []
  scalarInputs : List NpuScalarImmediate := []
  engine : NpuEngineClass := .scalar
  timestamps : NpuTimestamps := {}

/-- The key of a tile in the rename table: tiles are local to a block. -/
abbrev TileKey := ℕ × Bytes

/-- The instruction writes the tile. -/
def NpuInstruction.Outputs (i : NpuInstruction) (key : TileKey) : Prop :=
  i.blockId = key.1 ∧ key.2 ∈ i.outputTiles

instance (i : NpuInstruction) (key : TileKey) : Decidable (i.Outputs key) :=
  inferInstanceAs (Decidable (_ ∧ _))

structure NpuDependency where
  producerSequenceId : ℕ := 0
  tileIdentity : Bytes := []
  flowId : ℕ := 0
deriving DecidableEq

structure NpuIssueEntry where
  instruction : NpuInstruction
  stableObjectId : ObjectId := kInvalidObjectId
  derivedDependencies : List NpuDependency := []

/-- The order of `issueEntryLess`. -/
def NpuIssueEntry.key (e : NpuIssueEntry) : ℕ ×ₗ ObjectId :=
  toLex (e.instruction.sequenceId, e.stableObjectId)

theorem NpuIssueEntry.key_lt {a b : NpuIssueEntry}
    (h : a.instruction.sequenceId < b.instruction.sequenceId) : a.key < b.key :=
  Prod.Lex.toLex_lt_toLex.mpr (Or.inl h)

/-! ### Equality

The members of a value compare as `operator==` compares them; on doubles this is not identity. -/

def equalDouble : Double → Double → Bool
  | .nan, _ => false
  | _, .nan => false
  | a, b => decide (a = b) || a.isZero && b.isZero

mutual
def equalValue : PtoValue → PtoValue → Bool
  | .null, .null => true
  | .boolean a, .boolean b => a == b
  | .integer a, .integer b => decide (a = b)
  | .unsigned a, .unsigned b => decide (a = b)
  | .number a, .number b => equalDouble a b
  | .string a, .string b => decide (a = b)
  | .array a, .array b => equalElements a b
  | .object a, .object b => equalMembers a b
  | _, _ => false

def equalElements : List PtoValue → List PtoValue → Bool
  | [], [] => true
  | a :: as, b :: bs => equalValue a b && equalElements as bs
  | _, _ => false

def equalMembers : List (Bytes × PtoValue) → List (Bytes × PtoValue) → Bool
  | [], [] => true
  | (key, a) :: as, (key', b) :: bs => decide (key = key') && equalValue a b && equalMembers as bs
  | _, _ => false
end

/-- Two lists of equal length whose elements are equal. -/
def equalAll {α : Type} (equal : α → α → Bool) : List α → List α → Bool
  | [], [] => true
  | a :: as, b :: bs => equal a b && equalAll equal as bs
  | _, _ => false

def equalImmediate : Option PtoValue → Option PtoValue → Bool
  | none, none => true
  | some a, some b => equalValue a b
  | _, _ => false

def equalOperand (a b : PtoTraceOperand) : Bool :=
  decide (a.kind = b.kind) && decide (a.type = b.type) && equalImmediate a.immediate b.immediate &&
    decide (a.id = b.id) && decide (a.addressSpace = b.addressSpace) && decide (a.address = b.address) &&
    decide (a.sequenceId = b.sequenceId) && decide (a.resultIndex = b.resultIndex)

def equalDescriptor (a b : NpuTileDescriptor) : Bool :=
  decide (a.identity = b.identity) && decide (a.address = b.address) && decide (a.type = b.type) &&
    decide (a.layout = b.layout) && equalElements a.shape b.shape

def equalScalar (a b : NpuScalarImmediate) : Bool :=
  decide (a.type = b.type) && equalValue a.value b.value

/-- `NpuInstruction::operator==`. -/
def NpuInstruction.equal (a b : NpuInstruction) : Bool :=
  decide (a.sequenceId = b.sequenceId) && decide (a.blockId = b.blockId) && decide (a.opcode = b.opcode) &&
    decide (a.dependencies = b.dependencies) && equalAll equalOperand a.operands b.operands &&
    decide (a.inputTiles = b.inputTiles) && decide (a.outputTiles = b.outputTiles) &&
    equalAll equalDescriptor a.inputTileDescriptors b.inputTileDescriptors &&
    equalAll equalDescriptor a.outputTileDescriptors b.outputTileDescriptors &&
    equalAll equalScalar a.scalarInputs b.scalarInputs && decide (a.engine = b.engine) &&
    decide (a.timestamps = b.timestamps)

/-- An instruction without the times of its stages. -/
def NpuInstruction.identity (i : NpuInstruction) : NpuInstruction := { i with timestamps := {} }

theorem NpuInstruction.equal_fields {a b : NpuInstruction}
    (h : a.identity.equal b.identity = true) :
    a.sequenceId = b.sequenceId ∧ a.blockId = b.blockId ∧ a.opcode = b.opcode ∧
      a.outputTiles = b.outputTiles ∧ a.engine = b.engine := by
  unfold equal identity at h
  simp only [Bool.and_eq_true, decide_eq_true_eq] at h
  obtain ⟨⟨⟨⟨⟨⟨⟨⟨⟨⟨⟨hsequence, hblock⟩, hopcode⟩, _⟩, _⟩, _⟩, houtputs⟩, _⟩, _⟩, _⟩, hengine⟩, _⟩ := h
  exact ⟨hsequence, hblock, hopcode, houtputs, hengine⟩

/-- A byte string as text: each byte is a character. -/
def textOf (bytes : Bytes) : String := String.ofList (bytes.map fun b => Char.ofNat b.toNat)

end AgenticCircuit.Npu
