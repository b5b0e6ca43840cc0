import Mathlib.Algebra.BigOperators.Group.List.Basic
import Mathlib.Data.List.Nodup
import AgenticCircuit.Lib.Graph

/-! # The module hierarchy of a model

A model is a list of `ac.module` bodies and of external or generated declarations, with the systems
that select a root.  A body is a Graph region: its operations are known by their identity, not by their
place, and a value may be used before the operation that defines it.

Elaboration inlines every element of `ac.instance`, `ac.array` and `ac.instances`.  A module of the
elaborated hierarchy is given by its path from the root, innermost step first, and a value by the path of
its module.  `Wire` says which values are joined at the boundary of an element. -/

namespace AgenticCircuit.Analysis

open List

def kMaxModelAnalysisNodes : ℕ := 2 ^ 20

/-- Of a type only whether it is `!ac.flow` is looked at. -/
inductive PortType where
  | flow
  | other
  deriving DecidableEq

/-- A block argument, or a result of the operation with the given identity. -/
inductive Value where
  | argument (index : ℕ)
  | result (operation index : ℕ)
  deriving DecidableEq

/-- `Value::getDefiningOp`. -/
def Value.definingOp : Value → Option ℕ
  | .argument _ => none
  | .result operation _ => some operation

/-- The operations that `isStructuralGraphChild` admits, and `func.call`. -/
inductive Kind where
  | queue
  | eventQueue
  | stateArray
  | resource
  | addressSpace
  | addressMap
  | timeDomain
  | process
  | require
  | ensure
  | stat
  | constant
  | view
  | call
  | flowExport
  | flowImport
  | instanceOf (definition : String)
  | arrayOf (definition : String) (shape : List ℕ)
  | instancesOf (definitions : List String)
  deriving DecidableEq

/-- `isDirectStateOwner`; `ac.state_array` is not among them. -/
def Kind.isDirectStateOwner : Kind → Bool
  | queue | eventQueue | resource | addressSpace | process | stat => true
  | _ => false

/-- `isMemoryEffectFree`: the operations with the trait `Pure`. -/
def Kind.isMemoryEffectFree : Kind → Bool
  | constant | view | flowExport | flowImport | instanceOf _ | arrayOf _ _ | instancesOf _ => true
  | _ => false

/-- The definitions that an operation names. -/
def Kind.definitions : Kind → List String
  | instanceOf definition => [definition]
  | arrayOf definition _ => [definition]
  | instancesOf definitions => definitions
  | _ => []

/-- The definition of each element, in order. -/
def Kind.elements : Kind → List String
  | instanceOf definition => [definition]
  | arrayOf definition shape => List.replicate shape.prod definition
  | instancesOf definitions => definitions
  | _ => []

theorem Kind.mem_definitions_of_elements {kind : Kind} {definition : String}
    (h : definition ∈ kind.elements) : definition ∈ kind.definitions := by
  cases kind <;> simp_all [Kind.elements, Kind.definitions]

/-- An operation of a Graph region.  `name` is its symbol name or empty, `key` is its `operationKey`. -/
structure Operation where
  id : ℕ
  kind : Kind
  name : String
  key : String
  operands : List Value
  results : List PortType
  deriving DecidableEq

/-- The value is an argument or a result of an operation of the body. -/
def Value.DefinedIn (inputs : List PortType) (body : List Operation) : Value → Prop
  | .argument index => index < inputs.length
  | .result operation index => ∃ op ∈ body, op.id = operation ∧ index < op.results.length

instance (inputs : List PortType) (body : List Operation) :
    DecidablePred (Value.DefinedIn inputs body)
  | .argument index => inferInstanceAs (Decidable (index < inputs.length))
  | .result operation index =>
    inferInstanceAs (Decidable (∃ op ∈ body, op.id = operation ∧ index < op.results.length))

/-- A materialised `ac.module`; `returns` are the operands of its `ac.return`. -/
structure Module where
  name : String
  inputs : List PortType
  outputs : List PortType
  body : List Operation
  returns : List Value
  ids : (body.map Operation.id).Nodup
  defined : ∀ v ∈ body.flatMap Operation.operands ++ returns, v.DefinedIn inputs body

theorem Module.eq_of_id (m : Module) {op op' : Operation} (h : op ∈ m.body) (h' : op' ∈ m.body)
    (hid : op.id = op'.id) : op = op' := inj_on_of_nodup_map m.ids h h' hid

theorem Module.operand_defined (m : Module) {op : Operation} {v : Value} (hop : op ∈ m.body)
    (hv : v ∈ op.operands) : v.DefinedIn m.inputs m.body :=
  m.defined v (mem_append_left _ (mem_flatMap.mpr ⟨op, hop, hv⟩))

/-- A module, or an `ac.module.extern` or `ac.module.generated`. -/
inductive Definition where
  | module (m : Module)
  | declaration (name : String) (inputs outputs : List PortType)

def Definition.name : Definition → String
  | module m => m.name
  | declaration name _ _ => name

structure System where
  root : String
  rootName : String
  selected : Bool

/-- The symbol table of a file has no two definitions of one name. -/
structure Model where
  definitions : List Definition
  systems : List System
  names : (definitions.map Definition.name).Nodup

namespace Model

variable (model : Model)

def lookupDefinition (name : String) : Option Definition :=
  model.definitions.find? fun definition => definition.name = name

def lookupModule (name : String) : Option Module :=
  match model.lookupDefinition name with
  | some (.module m) => some m
  | _ => none

/-- The first system that is selected. -/
def selected : Option System := model.systems.find? System.selected

/-- The materialised module of the selected system. -/
def selectedRoot : Option Module := do
  let system ← model.selected
  model.lookupModule system.root

/-- The modules of the file. -/
def modules : List Module :=
  model.definitions.filterMap fun
    | .module m => some m
    | .declaration _ _ _ => none

variable {model} {m : Module}

theorem mem_modules : m ∈ model.modules ↔ .module m ∈ model.definitions := by
  simp only [modules, mem_filterMap]
  constructor
  · rintro ⟨definition, hmem, h⟩
    cases definition <;> simp_all
  · exact fun h => ⟨_, h, rfl⟩

theorem lookupModule_eq_some {name : String} :
    model.lookupModule name = some m ↔ m ∈ model.modules ∧ m.name = name := by
  rw [mem_modules]
  unfold lookupModule lookupDefinition
  constructor
  · intro h
    split at h
    case h_1 m' hfind =>
      cases h
      have hname := List.find?_some hfind
      exact ⟨List.mem_of_find?_eq_some hfind, of_decide_eq_true hname⟩
    case h_2 => cases h
  · rintro ⟨hmem, rfl⟩
    have hfind : model.definitions.find? (fun definition => definition.name = m.name) =
        some (.module m) := by
      rw [List.find?_eq_some_iff_append]
      refine ⟨decide_eq_true rfl, ?_⟩
      obtain ⟨before, after, hsplit⟩ := append_of_mem hmem
      refine ⟨before, after, hsplit, fun d hd => ?_⟩
      have hnames := model.names
      rw [hsplit, map_append, nodup_append] at hnames
      have hne : d.name ≠ m.name :=
        hnames.2.2 d.name (mem_map_of_mem hd) m.name (by simp [Definition.name])
      rw [decide_eq_false hne]
      rfl
    rw [hfind]

theorem mem_modules_of_selectedRoot {root : Module} (h : model.selectedRoot = some root) :
    root ∈ model.modules := by
  simp only [selectedRoot, bind, Option.bind_eq_some_iff] at h
  obtain ⟨system, -, hroot⟩ := h
  exact (lookupModule_eq_some.mp hroot).1

theorem lookupDefinition_module (h : m ∈ model.modules) :
    model.lookupDefinition m.name = some (.module m) := by
  have hlookup := lookupModule_eq_some.mpr ⟨h, rfl⟩
  unfold lookupModule at hlookup
  split at hlookup
  case h_1 m' hfind =>
    cases hlookup
    exact hfind
  case h_2 => cases hlookup

variable (model)

/-- The body of one module names another in one of its operations. -/
def Instantiates (d d' : String) : Prop :=
  ∃ m m', model.lookupModule d = some m ∧ model.lookupModule d' = some m' ∧
    ∃ op ∈ m.body, d' ∈ op.kind.definitions

/-! ### Elaboration -/

/-- The steps from the root: an operation and the number of one of its elements. -/
abbrev Path := List (ℕ × ℕ)

/-- The module at a path. -/
inductive Elaborates (root : Module) : Path → Module → Prop
  | root : Elaborates root [] root
  | element {path : Path} {m c : Module} {op : Operation} {e : ℕ} {d : String} :
      Elaborates root path m → op ∈ m.body → op.kind.elements[e]? = some d →
      model.lookupModule d = some c → Elaborates root ((op.id, e) :: path) c

/-- The value inside a module is the value outside, at an operand or at a result of an element of an
operation that is passed `through`. -/
inductive Wire (root : Module) (through : Operation → Prop) : Path × Value → Path × Value → Prop
  | enter {path : Path} {m c : Module} {op : Operation} {e k : ℕ} {d : String} {v : Value} :
      model.Elaborates root path m → op ∈ m.body → op.kind.elements[e]? = some d →
      model.lookupModule d = some c → through op → k < c.inputs.length →
      op.operands[e * c.inputs.length + k]? = some v →
      Wire root through (path, v) ((op.id, e) :: path, .argument k)
  | leave {path : Path} {m c : Module} {op : Operation} {e k : ℕ} {d : String} {v : Value} :
      model.Elaborates root path m → op ∈ m.body → op.kind.elements[e]? = some d →
      model.lookupModule d = some c → through op → c.returns[k]? = some v →
      e * c.outputs.length + k < op.results.length →
      Wire root through ((op.id, e) :: path, v) (path, .result op.id (e * c.outputs.length + k))

variable {model} {root : Module} {path : Path} {m m' : Module}

theorem Elaborates.unique (h : model.Elaborates root path m) (h' : model.Elaborates root path m') :
    m = m' := by
  induction h generalizing m' with
  | root =>
    cases h'
    rfl
  | element _ hop he hc ih =>
    generalize hpath : _ :: _ = path' at h'
    cases h' with
    | root => cases hpath
    | element hm' hop' he' hc' =>
      obtain ⟨hstep, rfl⟩ := cons.inj hpath
      obtain ⟨hid, rfl⟩ := Prod.mk.inj hstep
      cases ih hm'
      cases Module.eq_of_id _ hop hop' hid
      rw [he] at he'
      cases he'
      rw [hc] at hc'
      exact Option.some.inj hc'

theorem Elaborates.mem_modules (hroot : root ∈ model.modules) (h : model.Elaborates root path m) :
    m ∈ model.modules := by
  cases h with
  | root => exact hroot
  | element _ _ _ hc => exact (lookupModule_eq_some.mp hc).1

end Model

end AgenticCircuit.Analysis
