import AgenticCircuit.Lib.Slice
import Mathlib.Data.List.Nodup
import Mathlib.Tactic.Linarith

/-! # Packet records and their generated helpers

The native realization of `!ac.packet` values.  A packet is a block of bytes
(`gfsim::AtomicPacket`), its fields lie at their natural offsets (`recordFieldOffsets`), and
`ac.record.create`, `ac.record.get`, `ac.record.with`, `ac.packet.serialize` and
`ac.packet.deserialize` are lowered to generated helpers over these bytes.

* **Layouts.** `nativeSizeAlignment` and `nativeQueueCppType` follow the lowering: the size of a
  nested record is read from its data layout entry, and a packet has a C++ type when its derived
  size and alignment agree with that entry.  Structs and transactions have a size but no C++ type,
  so a helper that passes one is refused.
* **Values.** A value is the bytes of its C++ object in the memory of the host: a scalar in the byte
  order of the host, a vector element after element, a nested packet as its bytes.
* **Byte order.** A helper reverses a whole field when its flag `big_endian` does not name the byte
  order of the host.  The flag is that of the first operand: the record for `get` and `with`, the
  first field for `create`. -/

namespace AgenticCircuit.CodeGen

/-- Byte orders, of a data layout entry and of the host (`std::endian::native`). -/
inductive Endianness where
  | little
  | big
deriving DecidableEq

/-- Types of record fields, as the lowering inspects them.  A packet carries its data layout
entry (`endianness`, `size`, `abi_alignment`, `serialization_width`) and its named fields; a
struct or a transaction is known by its entry only. -/
inductive Layout where
  | integer (width : ℕ) (signless : Bool)
  | index
  | f32
  | f64
  | vector (length : ℕ) (positive : 0 < length) (element : Layout)
  | packet (endianness : Endianness) (size alignment width : ℕ) (fields : List (String × Layout))
  | record (endianness : Endianness) (size alignment : ℕ)

/-- The largest `uint64_t`. -/
def uint64Max : ℕ := 2 ^ 64 - 1

/-- Size and alignment in bytes. -/
def nativeSizeAlignment : Layout → Option (ℕ × ℕ)
  | .integer width signless =>
    if signless = true ∧ width % 8 = 0 ∧ width / 8 ∈ [1, 2, 4, 8] then
      some (width / 8, width / 8)
    else none
  | .index => none
  | .f32 => some (4, 4)
  | .f64 => some (8, 8)
  | .vector length _ element =>
    match nativeSizeAlignment element with
    | none => none
    | some (size, alignment) =>
      if size > uint64Max / length then none else some (size * length, alignment)
  | .packet _ size alignment _ _ | .record _ size alignment =>
    if 0 < size ∧ 0 < alignment then some (size, alignment) else none

/-- The offset that follows `cursor` at the given alignment. -/
def alignUp (cursor alignment : ℕ) : ℕ :=
  if cursor % alignment = 0 then cursor else cursor + (alignment - cursor % alignment)

/-- The loop of `recordFieldOffsets` over the fields, from `cursor` on. -/
def fieldOffsetsFrom (cursor : ℕ) : List (String × Layout) → Option (List ℕ)
  | [] => some []
  | (_, type) :: rest =>
    match nativeSizeAlignment type with
    | none => none
    | some (size, alignment) =>
      let offset := alignUp cursor alignment
      if size > uint64Max - offset then none
      else (fieldOffsetsFrom (offset + size) rest).map (offset :: ·)

/-- Natural offsets of the fields of a record. -/
def recordFieldOffsets (fields : List (String × Layout)) : Option (List ℕ) :=
  fieldOffsetsFrom 0 fields

/-- Size and alignment derived from the fields and their offsets, the loop of
`nativeQueueCppType`. -/
def derivedLayout : List ((String × Layout) × ℕ) → ℕ × ℕ → Option (ℕ × ℕ)
  | [], derived => some derived
  | ((_, type), offset) :: rest, (_, derivedAlignment) =>
    match nativeSizeAlignment type with
    | none => none
    | some (size, alignment) =>
      derivedLayout rest (offset + size, max derivedAlignment alignment)

/-- C++ types of the realization.  Packets of equal size have distinct C++ types in the
source, told apart by a fingerprint that no helper looks at. -/
inductive CppType where
  | bool
  | int (bytes : ℕ)
  | size
  | float
  | double
  | array (element : CppType) (length : ℕ)
  | atomicPacket (bytes : ℕ)
deriving DecidableEq

/-- `sizeof`, on an LP64 target. -/
def CppType.sizeof : CppType → ℕ
  | bool => 1
  | int bytes => bytes
  | size => 8
  | float => 4
  | double => 8
  | array element length => length * element.sizeof
  | atomicPacket bytes => bytes

/-- The layout check of a packet. -/
def packetLayoutMatches (size alignment width : ℕ) (fields : List (String × Layout)) : Bool :=
  match recordFieldOffsets fields with
  | none => false
  | some offsets =>
    match derivedLayout (fields.zip offsets) (0, 1) with
    | none => false
    | some (derivedSize, derivedAlignment) =>
      0 < width ∧ width = size ∧ alignUp derivedSize derivedAlignment = size ∧
        derivedAlignment = alignment

/-- The C++ type of a value, when it has one. -/
def nativeQueueCppType : Layout → Option CppType
  | .integer width signless =>
    if signless = true then
      match width with
      | 1 => some .bool
      | 8 => some (.int 1)
      | 16 => some (.int 2)
      | 32 => some (.int 4)
      | 64 => some (.int 8)
      | _ => none
    else none
  | .index => some .size
  | .f32 => some .float
  | .f64 => some .double
  | .vector length _ element => (nativeQueueCppType element).map (.array · length)
  | .packet _ size alignment width fields =>
    if packetLayoutMatches size alignment width fields then some (.atomicPacket width) else none
  | .record _ _ _ => none

/-- A packet declaration.  The declaration verifier refuses a second field of one name. -/
structure Packet where
  endianness : Endianness
  size : ℕ
  alignment : ℕ
  width : ℕ
  fields : List (String × Layout)
  distinct : (fields.map Prod.fst).Nodup

/-- Whether the data layout entry of a helper's record type declares big endian; types with
no entry leave the flag at `false`. -/
def declaresBigEndian : Layout → Bool
  | .packet endianness _ _ _ _ | .record endianness _ _ => endianness = .big
  | _ => false

namespace Packet

variable (p : Packet)

def layout : Layout := .packet p.endianness p.size p.alignment p.width p.fields

/-- The packet has a C++ type. -/
def Accepted : Prop := (nativeQueueCppType p.layout).isSome

instance : Decidable p.Accepted := inferInstanceAs (Decidable (_ = true))

/-- Position of the first field of a name. -/
def fieldIndex (name : String) : Option ℕ := p.fields.findIdx? (·.1 = name)

/-- Offset and type of a field, for a helper that names it. -/
def field (name : String) : Option (ℕ × Layout) := do
  let offsets ← recordFieldOffsets p.fields
  let index ← p.fieldIndex name
  let offset ← offsets[index]?
  let (_, type) ← p.fields[index]?
  return (offset, type)

/-- `big_endian` of the helpers for `record.get` and `record.with`. -/
def accessBigEndian : Bool := declaresBigEndian p.layout

/-- `big_endian` of the helper for `record.create`: the first operand is the value of the
first field. -/
def createBigEndian : Bool :=
  match p.fields with
  | [] => false
  | (_, type) :: _ => declaresBigEndian type

end Packet

/-- The byte order a flag stands for. -/
def order (bigEndian : Bool) : Endianness := if bigEndian then .big else .little

/-- The conditional `std::reverse` of the field accessors. -/
def orient (native : Endianness) (bigEndian : Bool) (bytes : List UInt8) : List UInt8 :=
  if order bigEndian = native then bytes else bytes.reverse

/-- `gfsim::packetFieldGet`. -/
def packetFieldGet (native : Endianness) (size offset : ℕ) (bigEndian : Bool)
    (packet : List UInt8) : List UInt8 :=
  orient native bigEndian (slice offset size packet)

/-- `gfsim::packetFieldSet`. -/
def packetFieldSet (native : Endianness) (offset : ℕ) (bigEndian : Bool)
    (packet value : List UInt8) : List UInt8 :=
  splice offset (orient native bigEndian value) packet

/-- `gfsim::packetSerializeBytes`. -/
def packetSerializeBytes (packet : List UInt8) : List Int8 := packet.map (·.toInt8)

/-- `gfsim::packetDeserializeBytes`. -/
def packetDeserializeBytes (bytes : List Int8) : List UInt8 := bytes.map (·.toUInt8)

namespace Packet

variable (native : Endianness) (p : Packet)

/-- `ac.record.get`; `none` when the lowering refuses the helper. -/
def recordGet (name : String) (record : List UInt8) : Option (List UInt8) := do
  let (offset, type) ← p.field name
  let _ ← nativeQueueCppType p.layout
  let cpp ← nativeQueueCppType type
  return packetFieldGet native cpp.sizeof offset p.accessBigEndian record

/-- `ac.record.with`. -/
def recordWith (name : String) (record value : List UInt8) : Option (List UInt8) := do
  let (offset, type) ← p.field name
  let _ ← nativeQueueCppType p.layout
  let _ ← nativeQueueCppType type
  return packetFieldSet native offset p.accessBigEndian record value

/-- The body of the `record.create` helper: one `packetFieldSet` after another. -/
def setFields (bigEndian : Bool) : List (ℕ × List UInt8) → List UInt8 → List UInt8
  | [], packet => packet
  | (offset, value) :: rest, packet =>
    setFields bigEndian rest (packetFieldSet native offset bigEndian packet value)

/-- `ac.record.create`. -/
def recordCreate (values : List (List UInt8)) : Option (List UInt8) := do
  let cpp ← nativeQueueCppType p.layout
  let _ ← p.fields.mapM (fun entry => nativeQueueCppType entry.2)
  let entries ← p.fields.mapM (fun entry => p.field entry.1)
  return setFields native p.createBigEndian ((entries.map Prod.fst).zip values)
    (List.replicate cpp.sizeof 0)

end Packet

end AgenticCircuit.CodeGen
