import AgenticCircuit.Lib.StableSort
import Mathlib.Data.String.Basic

/-! # The canonicalization pass over a model

`canonicalizeModel` puts the declarations of a model into one order: the top level of the model,
and the first body block of each `ac.module`, `ac.type_scope`, `ac.interface` and `ac.protocol`,
are sorted by a key made of a rank, the operation name, the symbol and the attributes.  Before
that the entries of every address map are normalized, and after it every source location is
dropped.  A model with evidence of an earlier freeze is only verified.

An operation is a **header** (what the key, the preflight and the freeze evidence read) with its
regions.  An attribute is known by its printed text, except for the two kinds the pass looks into:
strings, for the symbol, and the entries of an address map. -/

namespace AgenticCircuit.Transforms

/-! ### Attributes -/

abbrev Word := BitVec 64

structure Interleave where
  granularity : Word
  banks : Word
  bank : Word
  deriving DecidableEq

/-- One entry of an address map, with the keys its verifier admits.  The target and the
elements of the two sets are printed attributes. -/
structure MapEntry where
  base : Word
  size : Word
  offset : Word
  target : String
  permissions : List String
  classes : List String
  priority : Option Word := none
  interleave : Option Interleave := none
  deriving DecidableEq

inductive Attribute where
  | string (value : String)
  | mapEntries (entries : List MapEntry)
  | other (token : String)
  deriving DecidableEq

/-- An array attribute with the given printed elements. -/
def arrayToken (elements : List String) : String := "[" ++ ", ".intercalate elements ++ "]"

/-- An `i64` attribute, printed as a signed number. -/
def Word.token (value : Word) : String := toString value.toInt ++ " : i64"

def Interleave.token (i : Interleave) : String :=
  "\x7bbank = " ++ Word.token i.bank ++ ", banks = " ++ Word.token i.banks ++
    ", granularity = " ++ Word.token i.granularity ++ "\x7d"

def MapEntry.token (e : MapEntry) : String :=
  "\x7bbase = " ++ Word.token e.base ++ ", classes = " ++ arrayToken e.classes ++
    (e.interleave.elim "" fun i => ", interleave = " ++ i.token) ++
    ", offset = " ++ Word.token e.offset ++ ", permissions = " ++ arrayToken e.permissions ++
    (e.priority.elim "" fun p => ", priority = " ++ Word.token p) ++
    ", size = " ++ Word.token e.size ++ ", target = " ++ e.target ++ "\x7d"

def hexDigit (n : Nat) : Char := (Nat.digitChar n).toUpper

/-- A character of a printed string.  What is not printable is written byte by byte. -/
def escaped (c : Char) : List Char :=
  if c = '\\' then ['\\', '\\']
  else if 32 ≤ c.toNat ∧ c.toNat < 127 ∧ c ≠ '"' then [c]
  else (String.utf8EncodeChar c).flatMap fun byte =>
    ['\\', hexDigit (byte.toNat / 16), hexDigit (byte.toNat % 16)]

/-- The printed attribute. -/
def Attribute.token : Attribute → String
  | .string value => "\"" ++ String.ofList (value.toList.flatMap escaped) ++ "\""
  | .mapEntries entries => arrayToken (entries.map MapEntry.token)
  | .other token => token

/-! ### Operations -/

/-- The name of a registered operation, which has no bar in it. -/
structure OperationName where
  text : String
  plain : '|' ∉ text.toList
  deriving DecidableEq

inductive Location where
  | unknown
  | known (text : String)
  deriving DecidableEq

/-- What an operation is apart from its regions.  Values are numbered over the model, and a
result carries its printed type. -/
structure Header where
  name : OperationName
  attributes : List (String × Attribute)
  operands : List Nat := []
  results : List (Nat × String) := []
  location : Location := .unknown
  deriving DecidableEq

/-- A block argument: its value, its printed type and its location. -/
structure Argument where
  value : Nat
  type : String
  location : Location := .unknown
  deriving DecidableEq

mutual

inductive Operation where
  | mk (header : Header) (regions : List Region)

inductive Region where
  | mk (blocks : List Block)

inductive Block where
  | mk (arguments : List Argument) (operations : List Operation)

end

/-- The outer `builtin.module`: its own header and the operations of its body. -/
structure Model where
  header : Header
  body : List Operation

def Operation.header : Operation → Header
  | .mk header _ => header

def Operation.name (op : Operation) : OperationName := op.header.name

def Operation.isTransition (op : Operation) : Bool := op.name.text == "ac.transition"

mutual

/-- The operation with `f` applied to every header in it and `g` to every block argument. -/
def Operation.rewrite (f : Header → Header) (g : Argument → Argument) : Operation → Operation
  | .mk header regions => .mk (f header) (rewriteRegions f g regions)

def Region.rewrite (f : Header → Header) (g : Argument → Argument) : Region → Region
  | .mk blocks => .mk (rewriteBlocks f g blocks)

def Block.rewrite (f : Header → Header) (g : Argument → Argument) : Block → Block
  | .mk arguments operations => .mk (arguments.map g) (rewriteOperations f g operations)

def rewriteRegions (f : Header → Header) (g : Argument → Argument) : List Region → List Region
  | [] => []
  | region :: regions => region.rewrite f g :: rewriteRegions f g regions

def rewriteBlocks (f : Header → Header) (g : Argument → Argument) : List Block → List Block
  | [] => []
  | block :: blocks => block.rewrite f g :: rewriteBlocks f g blocks

def rewriteOperations (f : Header → Header) (g : Argument → Argument) :
    List Operation → List Operation
  | [] => []
  | op :: operations => op.rewrite f g :: rewriteOperations f g operations

end

mutual

/-- The headers of an operation and of everything in it, in preorder, each with its depth. -/
def Operation.walk (depth : Nat) : Operation → List (Nat × Header)
  | .mk header regions => (depth, header) :: walkRegions depth regions

def Region.walk (depth : Nat) : Region → List (Nat × Header)
  | .mk blocks => walkBlocks depth blocks

def Block.walk (depth : Nat) : Block → List (Nat × Header)
  | .mk _ operations => walkOperations (depth + 1) operations

def walkRegions (depth : Nat) : List Region → List (Nat × Header)
  | [] => []
  | region :: regions => region.walk depth ++ walkRegions depth regions

def walkBlocks (depth : Nat) : List Block → List (Nat × Header)
  | [] => []
  | block :: blocks => block.walk depth ++ walkBlocks depth blocks

def walkOperations (depth : Nat) : List Operation → List (Nat × Header)
  | [] => []
  | op :: operations => op.walk depth ++ walkOperations depth operations

end

def Model.walk (m : Model) : List (Nat × Header) := (0, m.header) :: walkOperations 1 m.body

def Model.rewrite (f : Header → Header) (g : Argument → Argument) (m : Model) : Model where
  header := f m.header
  body := rewriteOperations f g m.body

/-! ### Preflight and freeze evidence -/

structure RawModelStructureLimits where
  maxNodes : Nat
  maxEdges : Nat
  maxNestedRegionDepth : Nat

def rawModelStructureLimits : RawModelStructureLimits where
  maxNodes := 2 ^ 20
  maxEdges := 2 ^ 22
  maxNestedRegionDepth := 512

/-- One turn of `walkStructuredOperationsIterative`: the numbers of operations and operands
seen so far. -/
def visit (limits : RawModelStructureLimits) (seen : Nat × Nat) (item : Nat × Header) :
    Option (Nat × Nat) :=
  if limits.maxNestedRegionDepth < item.1 then none
  else if seen.1 = limits.maxNodes ∨ limits.maxEdges - seen.2 < item.2.operands.length then none
  else some (seen.1 + 1, seen.2 + item.2.operands.length)

def preflightRawModelStructure (m : Model) : Bool :=
  (m.walk.foldlM (visit rawModelStructureLimits) (0, 0)).isSome

/-- The name begins with the given text. -/
def startsWith (name start : String) : Bool := start.toList.isPrefixOf name.toList

def isFreezeEvidence (name : String) : Bool :=
  name == "ac.freeze_epoch" || name == "ac.freeze_proven" || startsWith name "ac.frozen_" ||
    startsWith name "ac.topology_"

def hasTopologyFreezeEvidence (m : Model) : Bool :=
  m.walk.any fun item => item.2.attributes.any fun named => isFreezeEvidence named.1

/-! ### Address maps -/

def compareUnsigned (left right : Word) : Ordering := compare left.toNat right.toNat

def sortedSetAttribute (values : List String) : List String := values.insertionSort (· ≤ ·)

def normalizedMapEntry (entry : MapEntry) : MapEntry :=
  { entry with
    permissions := sortedSetAttribute entry.permissions
    classes := sortedSetAttribute entry.classes }

/-- An entry with a priority comes before one without, and a higher priority first. -/
def comparePriority : Option Word → Option Word → Ordering
  | some _, none => .lt
  | none, some _ => .gt
  | some left, some right => (compareUnsigned left right).swap
  | none, none => .eq

/-- An entry without interleaving comes before one with it. -/
def compareInterleave : Option Interleave → Option Interleave → Ordering
  | some _, none => .gt
  | none, some _ => .lt
  | some left, some right =>
    (compareUnsigned left.granularity right.granularity).then <|
      (compareUnsigned left.banks right.banks).then (compareUnsigned left.bank right.bank)
  | none, none => .eq

def compareNormalizedMapEntries (left right : MapEntry) : Ordering :=
  (compareUnsigned left.base right.base).then <|
    (comparePriority left.priority right.priority).then <|
    (compareUnsigned left.size right.size).then <|
    (compare (arrayToken left.permissions) (arrayToken right.permissions)).then <|
    (compare (arrayToken left.classes) (arrayToken right.classes)).then <|
    (compareInterleave left.interleave right.interleave).then <|
    (compare left.target right.target).then (compareUnsigned left.offset right.offset)

/-- `left` may stand before `right`: `right` does not compare less. -/
def entryNotAfter (left right : MapEntry) : Prop :=
  compareNormalizedMapEntries right left ≠ .lt

instance : DecidableRel entryNotAfter :=
  fun left right => inferInstanceAs (Decidable (compareNormalizedMapEntries right left ≠ .lt))

def normalizedEntries (entries : List MapEntry) : List MapEntry :=
  (entries.map normalizedMapEntry).insertionSort entryNotAfter

def normalizedAttribute (name : String) : Attribute → Attribute
  | .mapEntries entries =>
    .mapEntries (if name = "entries" then normalizedEntries entries else entries)
  | value => value

/-- The entries of an address map in normal form; other headers as they are. -/
def Header.normalizeAddressMap (h : Header) : Header :=
  if h.name.text = "ac.address_map" then
    { h with
      attributes := h.attributes.map fun named => (named.1, normalizedAttribute named.1 named.2) }
  else h

def normalizeAddressMaps (m : Model) : Model := m.rewrite Header.normalizeAddressMap id

/-! ### The order of the siblings -/

def topLevelRank (name : OperationName) : Nat :=
  if name.text = "ac.system" then 0
  else if name.text ∈ ["ac.type_scope", "ac.type_alias", "ac.struct", "ac.enum", "ac.union",
      "ac.packet", "ac.transaction"] then 1
  else if name.text ∈ ["ac.interface", "ac.protocol"] then 2
  else if name.text = "func.func" then 3
  else if name.text ∈ ["ac.module", "ac.module.extern", "ac.module.generated"] then 4
  else 5

def graphRank (name : OperationName) : Nat :=
  if name.text = "ac.return" then 100
  else if name.text ∈ ["ac.instance", "ac.array", "ac.instances", "ac.view"] then 0
  else if name.text ∈ ["ac.queue", "ac.event_queue", "ac.resource", "ac.address_space",
      "ac.address_map", "ac.time_domain"] then 1
  else if name.text = "ac.process" then 2
  else if name.text = "ac.stat" then 3
  else if name.text ∈ ["ac.require", "ac.ensure"] then 4
  else 5

def typeScopeRank (_ : OperationName) : Nat := 0

def interfaceRank (name : OperationName) : Nat :=
  if name.text = "ac.role" then 0
  else if name.text = "ac.port" then 1
  else if name.text = "ac.guarantee" then 2
  else 3

/-- Transitions keep their order: it is part of the meaning of a protocol. -/
def protocolRank (name : OperationName) : Nat :=
  if name.text = "ac.role" then 0
  else if name.text = "ac.state" then 1
  else if name.text = "ac.event" then 2
  else if name.text = "ac.transition" then 3
  else if name.text = "ac.guarantee" then 4
  else 5

/-- The value of `sym_name`, where that is a string. -/
def Header.symName? (h : Header) : Option String :=
  match h.attributes.lookup "sym_name" with
  | some (.string value) => some value
  | _ => none

/-- The rank, padded to three digits. -/
def rankKey (rank : Nat) : String :=
  let digits := toString rank
  String.ofList (List.replicate (3 - min 3 digits.length) '0') ++ digits

/-- The attributes of the key, without those that a freeze adds. -/
def attributeKey (attributes : List (String × Attribute)) : String :=
  let sorted := attributes.insertionSort fun left right => left.1 ≤ right.1
  let kept := sorted.filter fun named =>
    !(startsWith named.1 "ac.frozen_" || named.1 == "ac.freeze_proven")
  String.join (kept.map fun named => named.1 ++ "=" ++ named.2.token ++ ";")

def stableKey (op : Operation) (rank : Nat) : String :=
  rankKey rank ++ "|" ++ (op.name.text ++ "|" ++
    (op.header.symName?.getD "" ++ "|" ++ attributeKey op.header.attributes))

/-- The comparison `sortBlock` sorts by. -/
def comesBefore (rank : OperationName → Nat) (left right : Operation) : Bool :=
  let leftRank := rank left.name
  let rightRank := rank right.name
  if leftRank == rightRank && left.isTransition && right.isTransition then false
  else stableKey left leftRank < stableKey right rightRank

/-- `left` may stand before `right`. -/
def notAfter (rank : OperationName → Nat) (left right : Operation) : Prop :=
  comesBefore rank right left = false

instance (rank : OperationName → Nat) : DecidableRel (notAfter rank) :=
  fun left right => inferInstanceAs (Decidable (comesBefore rank right left = false))

/-- The operations of a block in sorted order.  Which operation is which is told by its place
in the block; in a frozen model no operation may move. -/
def sortBlock (operations : List Operation) (topologyFrozen : Bool)
    (rank : OperationName → Nat) : Except String (List Operation) :=
  let current := operations.zipIdx
  let sorted := current.insertionSort fun left right => notAfter rank left.1 right.1
  if sorted.map Prod.snd = current.map Prod.snd then .ok operations
  else if topologyFrozen then
    .error "topology declaration order was mutated after ac-freeze-topology"
  else .ok (sorted.map Prod.fst)

/-- Sort the first block of the first region, when there is one. -/
def Operation.sortBody (topologyFrozen : Bool) (rank : OperationName → Nat) :
    Operation → Except String Operation
  | .mk header (.mk (.mk arguments operations :: blocks) :: regions) => do
      let operations ← sortBlock operations topologyFrozen rank
      return .mk header (.mk (.mk arguments operations :: blocks) :: regions)
  | op => return op

/-- Sort the bodies of the operations of one kind. -/
def sortBodies (kind : String) (topologyFrozen : Bool) (rank : OperationName → Nat)
    (operations : List Operation) : Except String (List Operation) :=
  operations.mapM fun op =>
    if op.name.text = kind then op.sortBody topologyFrozen rank else return op

def Header.dropLocation (h : Header) : Header := { h with location := .unknown }

def Argument.dropLocation (a : Argument) : Argument := { a with location := .unknown }

/-- What `canonicalizeModel` makes of a model that shows no freeze evidence. -/
def sortModel (model : Model) : Except String Model := do
  let model := normalizeAddressMaps model
  let body ← sortBlock model.body false topLevelRank
  let body ← sortBodies "ac.module" false graphRank body
  let body ← sortBodies "ac.type_scope" false typeScopeRank body
  let body ← sortBodies "ac.interface" false interfaceRank body
  let body ← sortBodies "ac.protocol" false protocolRank body
  return Model.rewrite Header.dropLocation Argument.dropLocation { model with body }

/-- The pass.  `verifyModel` is what a frozen model is checked with. -/
def canonicalizeModel (verifyModel : Model → Bool) (model : Model) : Option Model :=
  if !preflightRawModelStructure model then none
  else if hasTopologyFreezeEvidence model then
    if verifyModel model then some model else none
  else (sortModel model).toOption

end AgenticCircuit.Transforms
