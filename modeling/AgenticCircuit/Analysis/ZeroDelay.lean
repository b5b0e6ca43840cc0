import Mathlib.Data.List.Sort
import AgenticCircuit.Lib.DepthFirst
import AgenticCircuit.Analysis.Hierarchy

/-! # Zero-delay dependencies

`verifyZeroDelayDependencies` searches the body of each module for a cycle of operations without state.
An instance of a module that owns state, at any depth, is no node of that graph: such a module is a tick
boundary, whatever its body passes from an input to an output.  Every other instance is one node.

`Depends` is the dependency graph of the elaborated hierarchy.  A cycle of it has a module where it stays
highest; seen from there each of its steps stays inside one operation or follows an operand of the body,
so the search of that module finds it. -/

namespace AgenticCircuit.Analysis

open List Function Value
open AgenticCircuit.Graph
open Relation (TransGen ReflTransGen)

namespace Model

variable (model : Model)

/-! ### Modules with state -/

/-- What is known of the modules so far. -/
abbrev Memo := String → Option Bool

/-- The state of the target of a reference; a target that is not a module has state. -/
def targetIsStateful (hasState : Memo → Module → Bool × Memo) (memo : Memo) (definition : String) :
    Bool × Memo :=
  match model.lookupDefinition definition with
  | some (.module nested) => hasState memo nested
  | some (.declaration _ _ _) => (true, memo)
  | none => (false, memo)

/-- Every target of an operation is asked. -/
def targetsStateful (hasState : Memo → Module → Bool × Memo) (memo : Memo) :
    List String → Bool × Memo
  | [] => (false, memo)
  | definition :: definitions =>
    let first := model.targetIsStateful hasState memo definition
    let rest := targetsStateful hasState first.2 definitions
    (first.1 || rest.1, rest.2)

/-- The loop over the body, left at the first state. -/
def bodyStateful (hasState : Memo → Module → Bool × Memo) (memo : Memo) :
    List Operation → Bool × Memo
  | [] => (false, memo)
  | child :: children =>
    if child.kind.isDirectStateOwner then (true, memo)
    else
      let targets := model.targetsStateful hasState memo child.kind.definitions
      if targets.1 then (true, targets.2) else bodyStateful hasState targets.2 children

/-- Whether a module owns state.  The mark before the loop keeps the query total on a recursive
instantiation; `depth` bounds the recursion. -/
def hasState : ℕ → Memo → Module → Bool × Memo
  | 0, memo, _ => (true, memo)
  | depth + 1, memo, m =>
    match memo m.name with
    | some stateful => (stateful, memo)
    | none =>
      let body := model.bodyStateful (hasState depth) (update memo m.name (some true))
        m.body
      (body.1, update body.2 m.name (some body.1))

/-- The modules in the order of their names. -/
def sortedModules : List Module := model.modules.insertionSort fun m m' => m.name ≤ m'.name

def moduleStateful : Memo :=
  model.sortedModules.foldl (fun memo m => (model.hasState (model.definitions.length + 1) memo m).2)
    fun _ => none

/-! ### The search of one module -/

/-- The operation has state, so it is no node. -/
def stateful (memo : Memo) (op : Operation) : Bool :=
  op.kind.isDirectStateOwner || (!op.kind.isMemoryEffectFree && op.kind ≠ .call) ||
    op.kind.definitions.any fun definition =>
      match model.lookupDefinition definition with
      | some (.module target) => (memo target.name).getD false
      | some (.declaration _ _ _) => true
      | none => false

structure Node where
  operation : Operation
  label : String

/-- The path of the selected root, or the name of the module. -/
def labelRoot (m : Module) : String :=
  match model.selected with
  | some system => if m.name = system.root then system.rootName else "@" ++ m.name
  | none => "@" ++ m.name

def label (m : Module) (op : Operation) : String :=
  model.labelRoot m ++ "." ++ (if op.name = "" then op.key else op.name)

def nodes (memo : Memo) (m : Module) : List Node :=
  ((m.body.filter fun op => !op.results.isEmpty && !model.stateful memo op).map fun op =>
    ⟨op, model.label m op⟩).insertionSort fun n n' => n.label ≤ n'.label

end Model

/-- An operand of the operation is defined by the operation `id`. -/
def Operation.uses (op : Operation) (id : ℕ) : Bool :=
  op.operands.any fun operand => operand.definingOp = some id

/-- The successors of a node in increasing order, each once. -/
def successors (nodes : List Model.Node) (ordinal : ℕ) : List ℕ :=
  match nodes[ordinal]? with
  | none => []
  | some node => (List.range nodes.length).filter fun successor =>
    nodes[successor]?.any fun other => other.operation.uses node.operation.id

/-- Every operand that a node defines is counted. -/
def edgeCount (nodes : List Model.Node) : ℕ :=
  (nodes.map fun node => node.operation.operands.countP fun operand =>
    nodes.any fun other => operand.definingOp = some other.operation.id).sum

def kMaxModelAnalysisEdges : ℕ := 2 ^ 22

namespace Model

variable (model : Model)

/-- The message for a cycle names its nodes and the first of them again. -/
def cycleMessage (nodes : List Node) (cycle : List ℕ) : String :=
  "forbidden zero-delay cycle: " ++
    " -> ".intercalate (cycle.map fun ordinal => (nodes[ordinal]?.map Node.label).getD "")

def verifyModule (memo : Memo) (m : Module) : Except String Unit :=
  let nodes := model.nodes memo m
  if nodes.length > kMaxModelAnalysisNodes then
    .error "zero-delay analysis exceeds ACIR v0.2 node limit 1048576"
  else if edgeCount nodes > kMaxModelAnalysisEdges then
    .error "zero-delay analysis exceeds ACIR v0.2 edge limit 4194304"
  else
    match DepthFirst.search (successors nodes) nodes.length with
    | .error cycle => .error (cycleMessage nodes cycle)
    | .ok _ => .ok ()

def verifyZeroDelayDependencies : Except String Unit :=
  forM model.sortedModules (model.verifyModule model.moduleStateful)

/-! ### The elaborated dependencies -/

/-- A definition owns state: it is no module, or an operation of its body is a state owner or names a
definition that owns state. -/
inductive OwnsState : String → Prop
  | declaration {d name : String} {inputs outputs : List PortType} :
      model.lookupDefinition d = some (.declaration name inputs outputs) → OwnsState d
  | owner {d : String} {m : Module} {op : Operation} : model.lookupModule d = some m →
      op ∈ m.body → op.kind.isDirectStateOwner = true → OwnsState d
  | nested {d d' : String} {m : Module} {op : Operation} : model.lookupModule d = some m →
      op ∈ m.body → d' ∈ op.kind.definitions → OwnsState d' → OwnsState d

/-- No module that the operation names owns state. -/
def Stateless (op : Operation) : Prop := ∀ d ∈ op.kind.definitions, ¬ model.OwnsState d

end Model

/-- An operation without effect that is evaluated in place, or a call of a pure function. -/
def Kind.isZeroDelay (kind : Kind) : Bool :=
  !kind.isDirectStateOwner && (kind.isMemoryEffectFree || kind = .call)

namespace Model

variable (model : Model)

/-- One value depends on another without delay: at the boundary of an element that is passed `through`,
or as a result of an operation without effect on its operands. -/
inductive Depends (root : Module) (through : Operation → Prop) :
    Path × Value → Path × Value → Prop
  | wire {x y : Path × Value} : model.Wire root through x y → Depends root through x y
  | operation {path : Path} {m : Module} {op : Operation} {v : Value} {k : ℕ} :
      model.Elaborates root path m → op ∈ m.body → op.kind.definitions = [] →
      op.kind.isZeroDelay = true → v ∈ op.operands → k < op.results.length →
      Depends root through (path, v) (path, .result op.id k)

variable {model}

/-! ### The state of a module is found -/

section state

/-- A module known to have state is being asked about or owns state. -/
def Agrees (model : Model) (active : List String) (memo : Memo) : Prop :=
  ∀ d, memo d = some true → d ∈ active ∨ model.OwnsState d

/-- What the query says of a module that the active ones instantiate. -/
def Sound (model : Model) (active : List String) (query : Memo → Module → Bool × Memo) : Prop :=
  ∀ memo m, m ∈ model.modules → (∀ a ∈ active, TransGen model.Instantiates a m.name) →
    model.Agrees active memo →
      ((query memo m).1 = true → model.OwnsState m.name) ∧ model.Agrees active (query memo m).2

variable {active : List String} {query : Memo → Module → Bool × Memo} {memo : Memo} {m : Module}

theorem targetIsStateful_sound (hquery : model.Sound active query) {d : String}
    (hactive : ∀ n, model.lookupModule d = some n → ∀ a ∈ active, TransGen model.Instantiates a d)
    (hmemo : model.Agrees active memo) :
    ((model.targetIsStateful query memo d).1 = true → model.OwnsState d) ∧
      model.Agrees active (model.targetIsStateful query memo d).2 := by
  unfold targetIsStateful
  split
  case h_1 n hn =>
    have hlookup : model.lookupModule d = some n := by simp only [lookupModule, hn]
    obtain ⟨hmem, rfl⟩ := lookupModule_eq_some.mp hlookup
    exact hquery memo n hmem (hactive n hlookup) hmemo
  case h_2 hd => exact ⟨fun _ => .declaration hd, hmemo⟩
  case h_3 => exact ⟨by simp, hmemo⟩

theorem targetsStateful_sound (hquery : model.Sound active query) {ds : List String}
    (hactive : ∀ d ∈ ds, ∀ n, model.lookupModule d = some n →
      ∀ a ∈ active, TransGen model.Instantiates a d)
    (hmemo : model.Agrees active memo) :
    ((model.targetsStateful query memo ds).1 = true → ∃ d ∈ ds, model.OwnsState d) ∧
      model.Agrees active (model.targetsStateful query memo ds).2 := by
  induction ds generalizing memo with
  | nil => exact ⟨by simp [targetsStateful], hmemo⟩
  | cons d ds ih =>
    obtain ⟨hfirst, hmemo₁⟩ := targetIsStateful_sound hquery (hactive d (by simp)) hmemo
    obtain ⟨hrest, hmemo₂⟩ := ih (fun e he => hactive e (mem_cons_of_mem d he)) hmemo₁
    refine ⟨fun h => ?_, hmemo₂⟩
    simp only [targetsStateful, Bool.or_eq_true] at h
    obtain h | h := h
    · exact ⟨d, by simp, hfirst h⟩
    · obtain ⟨e, he, howns⟩ := hrest h
      exact ⟨e, mem_cons_of_mem d he, howns⟩

/-- The loop over the body of the module asked about last. -/
theorem bodyStateful_sound (hm : m ∈ model.modules)
    (hactive : ∀ a ∈ active, a = m.name ∨ TransGen model.Instantiates a m.name)
    (hquery : model.Sound active query) {body : List Operation} (hbody : ∀ op ∈ body, op ∈ m.body)
    (hmemo : model.Agrees active memo) :
    ((model.bodyStateful query memo body).1 = true → model.OwnsState m.name) ∧
      model.Agrees active (model.bodyStateful query memo body).2 := by
  have hlookup : model.lookupModule m.name = some m := lookupModule_eq_some.mpr ⟨hm, rfl⟩
  induction body generalizing memo with
  | nil => exact ⟨by simp [bodyStateful], hmemo⟩
  | cons op body ih =>
    have hop := hbody op (by simp)
    unfold bodyStateful
    split
    case isTrue hstate => exact ⟨fun _ => .owner hlookup hop hstate, hmemo⟩
    case isFalse =>
      have hreach : ∀ d ∈ op.kind.definitions, ∀ n, model.lookupModule d = some n →
          ∀ a ∈ active, TransGen model.Instantiates a d := by
        intro d hd n hn a ha
        have hstep : model.Instantiates m.name d := ⟨m, n, hlookup, hn, op, hop, hd⟩
        obtain rfl | ha := hactive a ha
        · exact .single hstep
        · exact ha.tail hstep
      obtain ⟨htargets, hmemo₁⟩ := targetsStateful_sound hquery hreach hmemo
      dsimp only
      split
      case isTrue h =>
        obtain ⟨d, hd, howns⟩ := htargets h
        exact ⟨fun _ => .nested hlookup hop hd howns, hmemo₁⟩
      case isFalse => exact ih (fun op' h => hbody op' (mem_cons_of_mem op h)) hmemo₁

theorem hasState_sound (hacyclic : Acyclic model.Instantiates) {depth : ℕ}
    (hnodup : active.Nodup) (hnames : active ⊆ model.definitions.map Definition.name)
    (hdepth : model.definitions.length < depth + active.length) :
    model.Sound active (model.hasState depth) := by
  induction depth generalizing active with
  | zero =>
    have hle := (hnodup.subperm hnames).length_le
    rw [length_map] at hle
    omega
  | succ depth ih =>
    intro memo m hm hactive hmemo
    have hfresh : m.name ∉ active := fun h => hacyclic _ (hactive _ h)
    unfold hasState
    split
    case h_1 known hknown =>
      refine ⟨fun h => ?_, hmemo⟩
      obtain rfl : known = true := h
      exact (hmemo _ hknown).resolve_left hfresh
    case h_2 =>
      have hname : m.name ∈ model.definitions.map Definition.name :=
        mem_map.mpr ⟨.module m, mem_modules.mp hm, rfl⟩
      have hquery : model.Sound (m.name :: active) (model.hasState depth) := by
        refine ih (nodup_cons.mpr ⟨hfresh, hnodup⟩)
          (cons_subset.mpr ⟨hname, hnames⟩) ?_
        rw [length_cons]
        omega
      have hmark : model.Agrees (m.name :: active) (update memo m.name (some true)) := by
        intro d hd
        by_cases hdm : d = m.name
        · exact .inl (by simp [hdm])
        · rw [update_of_ne hdm] at hd
          exact (hmemo d hd).imp (mem_cons_of_mem _) id
      obtain ⟨hbody, hmemo'⟩ := bodyStateful_sound hm
        (fun a ha => (mem_cons.mp ha).imp id (hactive a)) hquery (fun op h => h) hmark
      refine ⟨hbody, fun d hd => ?_⟩
      dsimp only at hd
      by_cases hdm : d = m.name
      · subst hdm
        rw [update_self] at hd
        exact .inr (hbody (Option.some.inj hd))
      · rw [update_of_ne hdm] at hd
        exact (hmemo' d hd).imp (fun h => (mem_cons.mp h).resolve_left hdm) id

/-- **A module found to have state owns state.** -/
theorem ownsState_of_moduleStateful (hacyclic : Acyclic model.Instantiates) {d : String}
    (h : model.moduleStateful d = some true) : model.OwnsState d := by
  have hsound : model.Sound [] (model.hasState (model.definitions.length + 1)) :=
    hasState_sound hacyclic .nil (nil_subset _) (by simp)
  have hfold : ∀ (ms : List Module) (memo : Memo), (∀ m ∈ ms, m ∈ model.modules) →
      model.Agrees [] memo → model.Agrees [] (ms.foldl (fun memo m =>
        (model.hasState (model.definitions.length + 1) memo m).2) memo) := by
    intro ms
    induction ms with
    | nil => exact fun memo _ hmemo => hmemo
    | cons m ms ih =>
      intro memo hms hmemo
      exact ih _ (fun m' h => hms m' (mem_cons_of_mem m h))
        (hsound memo m (hms m (by simp)) (by simp) hmemo).2
  have hagrees := hfold model.sortedModules (fun _ => none)
    (fun m hm => (mem_insertionSort _).mp hm) (fun d hd => by cases hd)
  exact (hagrees d h).resolve_left (by simp)

theorem stateful_eq_false (hacyclic : Acyclic model.Instantiates) {op : Operation}
    (hzero : op.kind.isZeroDelay = true) (hop : model.Stateless op) :
    model.stateful model.moduleStateful op = false := by
  simp only [Kind.isZeroDelay, Bool.and_eq_true, Bool.not_eq_true', Bool.or_eq_true] at hzero
  have hdefinitions : (op.kind.definitions.any fun definition =>
      match model.lookupDefinition definition with
      | some (.module target) => (model.moduleStateful target.name).getD false
      | some (.declaration _ _ _) => true
      | none => false) = false := by
    rw [any_eq_false]
    intro d hd
    split
    case h_1 target htarget =>
      intro htrue
      have hlookup : model.lookupModule d = some target := by simp only [lookupModule, htarget]
      obtain ⟨-, rfl⟩ := lookupModule_eq_some.mp hlookup
      refine hop _ hd (ownsState_of_moduleStateful hacyclic ?_)
      cases hmemo : model.moduleStateful target.name with
      | none => simp [hmemo] at htrue
      | some known =>
        rw [hmemo, Option.getD_some] at htrue
        rw [htrue]
    case h_2 htarget => exact fun _ => hop _ hd (.declaration htarget)
    case h_3 => simp
  unfold stateful
  rw [hdefinitions, hzero.1]
  obtain hfree | hcall := hzero.2
  · simp [hfree]
  · simp [hcall]

end state

/-! ### The search of one module finds its cycles -/

section body

variable {memo : Memo} {m : Module}

theorem mem_nodes {n : Node} : n ∈ model.nodes memo m ↔
    ∃ op ∈ m.body, op.results ≠ [] ∧ model.stateful memo op = false ∧
      n = ⟨op, model.label m op⟩ := by
  simp only [nodes, mem_insertionSort, mem_map, mem_filter, Bool.and_eq_true,
    Bool.not_eq_true', isEmpty_eq_false_iff]
  constructor
  · rintro ⟨op, ⟨hop, hresults, hstate⟩, rfl⟩
    exact ⟨op, hop, hresults, hstate, rfl⟩
  · rintro ⟨op, hop, hresults, hstate, rfl⟩
    exact ⟨op, ⟨hop, hresults, hstate⟩, rfl⟩

/-- A node of the body uses a result of another. -/
def BodyEdge (model : Model) (memo : Memo) (m : Module) (i j : ℕ) : Prop :=
  ∃ op ∈ m.body, ∃ op' ∈ m.body, op.id = i ∧ op'.id = j ∧
    (op.results ≠ [] ∧ model.stateful memo op = false) ∧
    (op'.results ≠ [] ∧ model.stateful memo op' = false) ∧ op'.uses i = true

theorem exists_ordinal {op : Operation} (hop : op ∈ m.body)
    (hnode : op.results ≠ [] ∧ model.stateful memo op = false) :
    ∃ n, (model.nodes memo m)[(model.nodes memo m).findIdx fun n => n.operation.id = op.id]? =
      some n ∧ n.operation = op := by
  have hmem : (⟨op, model.label m op⟩ : Node) ∈ model.nodes memo m :=
    mem_nodes.mpr ⟨op, hop, hnode.1, hnode.2, rfl⟩
  have hlt : (model.nodes memo m).findIdx (fun n => n.operation.id = op.id) <
      (model.nodes memo m).length :=
    findIdx_lt_length_of_exists ⟨_, hmem, by simp⟩
  refine ⟨_, getElem?_eq_getElem hlt, ?_⟩
  have hid := findIdx_getElem (w := hlt)
  obtain ⟨op', hop', -, -, heq⟩ := mem_nodes.mp (getElem_mem hlt)
  rw [heq] at hid ⊢
  exact m.eq_of_id hop' hop (of_decide_eq_true hid)

theorem acyclic_bodyEdge (h : model.verifyModule memo m = .ok ()) :
    Acyclic (model.BodyEdge memo m) := by
  unfold verifyModule at h
  dsimp only at h
  split at h
  · cases h
  · split at h
    · cases h
    · split at h
      · cases h
      · rename_i found hfound
        have hsearch : DepthFirst.search (successors (model.nodes memo m))
          (model.nodes memo m).length = .ok found := hfound
        have hlt : ∀ v, ∀ w ∈ successors (model.nodes memo m) v,
            w < (model.nodes memo m).length := by
          intro v w hw
          unfold successors at hw
          split at hw
          · cases hw
          · exact mem_range.mp (mem_of_mem_filter hw)
        have hacyclic := DepthFirst.acyclic_of_search hlt hsearch
        intro i hi
        let ordinal : ℕ → ℕ := fun i =>
          (model.nodes memo m).findIdx fun n => n.operation.id = i
        refine hacyclic (ordinal i) (hi.lift ordinal ?_)
        rintro _ _ ⟨op, hop, op', hop', rfl, rfl, hnode, hnode', huses⟩
        obtain ⟨n, hn, hnop⟩ := exists_ordinal hop hnode
        obtain ⟨n', hn', hnop'⟩ := exists_ordinal hop' hnode'
        have hordinal := (List.getElem?_eq_some_iff.mp hn).1
        have hordinal' := (List.getElem?_eq_some_iff.mp hn').1
        refine ⟨?_, hordinal, hordinal'⟩
        change _ ∈ successors (model.nodes memo m) (ordinal op.id)
        unfold successors
        simp only [ordinal, hn, mem_filter, mem_range, hn', Option.any_some, hnop, hnop']
        exact ⟨hordinal', huses⟩

theorem verifyModule_of_verifyZeroDelayDependencies
    (h : model.verifyZeroDelayDependencies = .ok ()) (hm : m ∈ model.modules) :
    model.verifyModule model.moduleStateful m = .ok () := by
  have hforM : ∀ ms : List Module, forM ms (model.verifyModule model.moduleStateful) = .ok () →
      ∀ m ∈ ms, model.verifyModule model.moduleStateful m = .ok () := by
    intro ms
    induction ms with
    | nil => simp
    | cons n ms ih =>
      intro hrun m hm
      rw [forM_cons] at hrun
      cases hn : model.verifyModule model.moduleStateful n with
      | error message => simp [hn, bind, Except.bind] at hrun
      | ok u =>
        simp only [hn] at hrun
        obtain rfl | hm := mem_cons.mp hm
        · exact hn
        · exact ih hrun m hm
  exact hforM _ h m ((mem_insertionSort _).mpr hm)

end body

/-! ### A cycle of the elaborated graph is a cycle of one body -/

section elaborated

variable {root m : Module} {path : Path} {x y : Path × Value} {i : ℕ}

/-- Seen from the module at `path`, a value is defined by the operation `i` or lies inside it. -/
inductive Seen (path : Path) : Path × Value → ℕ → Prop
  | here {i k : ℕ} : Seen path (path, .result i k) i
  | inside {rest : Path} {i e : ℕ} {v : Value} : Seen path (rest ++ (i, e) :: path, v) i

/-- An operation of the body that is evaluated in place uses a result of another. -/
def PlaceEdge (model : Model) (m : Module) (i j : ℕ) : Prop :=
  ∃ op ∈ m.body, op.id = j ∧ op.kind.isZeroDelay = true ∧ model.Stateless op ∧ op.uses i = true

variable {e k : ℕ} {v : Value}

theorem isZeroDelay_of_element {kind : Kind} {d : String} (h : kind.elements[e]? = some d) :
    kind.isZeroDelay = true := by
  cases kind <;>
    simp_all [Kind.elements, Kind.isZeroDelay, Kind.isDirectStateOwner, Kind.isMemoryEffectFree]

theorem uses_of_mem {op : Operation} (h : .result i k ∈ op.operands) : op.uses i = true :=
  any_eq_true.mpr ⟨_, h, by simp [definingOp]⟩

/-- A step from a value of the module itself follows an operand, unless it leaves the module. -/
theorem Depends.seen_here (hm : model.Elaborates root path m)
    (h : model.Depends root model.Stateless (path, .result i k) y) (hy : path.length ≤ y.1.length) :
    ∃ j, Seen path y j ∧ model.PlaceEdge m i j := by
  generalize hx : (path, result i k) = x at h
  cases h with
  | wire hwire =>
    cases hwire with
    | @enter _ n c op e k' d v hn hop hd _ hthrough _ hv =>
      obtain ⟨rfl, rfl⟩ := Prod.mk.inj hx
      cases hm.unique hn
      refine ⟨op.id, @Seen.inside path [] op.id e _, op, hop, rfl, isZeroDelay_of_element hd, hthrough, ?_⟩
      exact uses_of_mem (mem_of_getElem? hv)
    | leave =>
      rw [← (Prod.mk.inj hx).1.symm] at hy
      simp at hy
  | @operation _ n op v k' hn hop hdefinitions hzero hv _ =>
    obtain ⟨rfl, rfl⟩ := Prod.mk.inj hx
    cases hm.unique hn
    refine ⟨op.id, .here, op, hop, rfl, hzero, ?_, uses_of_mem hv⟩
    simp [Stateless, hdefinitions]

theorem Depends.seen_inside {rest : Path}
    (h : model.Depends root model.Stateless (rest ++ (i, e) :: path, v) y) : Seen path y i := by
  generalize hx : (rest ++ (i, e) :: path, v) = x at h
  cases h with
  | wire hwire =>
    cases hwire with
    | @enter _ n c op e' k' d v' hn hop hd _ hthrough _ hv =>
      obtain ⟨rfl, -⟩ := Prod.mk.inj hx
      exact @Seen.inside path ((op.id, e') :: rest) i e _
    | @leave _ n c op e' k' d v' hn hop hd _ hthrough _ _ =>
      obtain ⟨hpath, -⟩ := Prod.mk.inj hx
      cases rest with
      | nil =>
        obtain ⟨hstep, rfl⟩ := List.cons.inj hpath
        obtain ⟨rfl, -⟩ := Prod.mk.inj hstep
        exact .here
      | cons step rest =>
        obtain ⟨-, rfl⟩ := List.cons.inj hpath
        exact .inside
  | @operation _ n op v' k' hn hop _ _ _ _ =>
    obtain ⟨rfl, -⟩ := Prod.mk.inj hx
    exact .inside

theorem seen_run (hm : model.Elaborates root path m) (hx : Seen path x i)
    (h : ReflTransGen (On (model.Depends root model.Stateless) {z | path.length ≤ z.1.length}) x y) :
    ∃ j, Seen path y j ∧ ReflTransGen (model.PlaceEdge m) i j := by
  induction h with
  | refl => exact ⟨i, hx, .refl⟩
  | tail _ hstep ih =>
    obtain ⟨j, hseen, hrun⟩ := ih
    cases hseen with
    | here =>
      obtain ⟨j', hseen', hedge⟩ := hstep.1.seen_here hm hstep.2.2
      exact ⟨j', hseen', hrun.tail hedge⟩
    | inside => exact ⟨j, hstep.1.seen_inside, hrun⟩

theorem Depends.not_argument (h : model.Depends root model.Stateless x (path, .argument k)) :
    x.1.length < path.length := by
  generalize hy : (path, argument k) = y at h
  cases h with
  | wire hwire =>
    cases hwire with
    | enter =>
      rw [(Prod.mk.inj hy).1]
      simp
    | leave => cases hy
  | operation => cases hy

theorem Depends.elaborates {path : Path} (h : model.Depends root model.Stateless (path, v) y)
    (hy : path.length ≤ y.1.length) : ∃ m, model.Elaborates root path m := by
  generalize hx : (path, v) = x at h
  cases h with
  | wire hwire =>
    cases hwire with
    | enter hn =>
      rw [(Prod.mk.inj hx).1]
      exact ⟨_, hn⟩
    | leave =>
      rw [← (Prod.mk.inj hx).1.symm] at hy
      simp at hy
  | operation hn =>
    rw [(Prod.mk.inj hx).1]
    exact ⟨_, hn⟩

theorem acyclic_placeEdge (hacyclic : Acyclic model.Instantiates)
    (hm : model.verifyModule model.moduleStateful m = .ok ()) : Acyclic (model.PlaceEdge m) := by
  intro i hi
  refine acyclic_bodyEdge hm i (TransGen.mono ?_ i i (transGen_on_cycle hi .refl))
  -- both ends of an edge of a cycle are used and evaluated in place, hence nodes
  have hnode : ∀ j, TransGen (model.PlaceEdge m) j j → ∃ op ∈ m.body, op.id = j ∧
      op.results ≠ [] ∧ model.stateful model.moduleStateful op = false := by
    intro j hj
    obtain ⟨_, -, op, hop, rfl, hzero, hstateless, -⟩ := TransGen.tail'_iff.mp hj
    refine ⟨op, hop, rfl, ?_, stateful_eq_false hacyclic hzero hstateless⟩
    obtain ⟨_, ⟨user, huser, -, -, -, huses⟩, -⟩ := TransGen.head'_iff.mp hj
    obtain ⟨v, hv, hdef⟩ := any_eq_true.mp huses
    have hdefined := m.operand_defined huser hv
    cases v with
    | argument k => simp [definingOp] at hdef
    | result j k =>
      obtain ⟨op', hop', hid, hk⟩ := hdefined
      have hj : j = op.id := by simpa [definingOp] using hdef
      obtain rfl := m.eq_of_id hop' hop (hid.trans hj)
      exact ne_nil_of_length_pos (by omega)
  rintro a b ⟨hab, ha, hb⟩
  obtain ⟨op, hop, hid, hresults, hstate⟩ := hnode a ha
  obtain ⟨op', hop', hid', hresults', hstate'⟩ := hnode b hb
  obtain ⟨user, huser, huserId, -, -, huses⟩ := hab
  obtain rfl := m.eq_of_id huser hop' (huserId.trans hid'.symm)
  exact ⟨op, hop, user, huser, hid, hid', ⟨hresults, hstate⟩, ⟨hresults', hstate'⟩, huses⟩

end elaborated

/-- **The check is sound through stateless modules**: the elaborated dependency graph of an accepted
model has no cycle, for the values that only pass through operations none of whose modules owns state. -/
theorem acyclic_stateless_dependencies (model : Model) (root : Module)
    (hroot : model.selectedRoot = some root) (hacyclic : Acyclic model.Instantiates)
    (h : model.verifyZeroDelayDependencies = .ok ()) :
    Acyclic (model.Depends root model.Stateless) := by
  intro x₀ hx₀
  -- a value on a cycle whose module is as high as possible
  obtain ⟨⟨path, v⟩, hx, hmin⟩ := WellFounded.has_min (measure fun x : Path × Value => x.1.length).wf
    {x | TransGen (model.Depends root model.Stateless) x x} ⟨x₀, hx₀⟩
  have hhigh : ∀ y, TransGen (model.Depends root model.Stateless) y y → path.length ≤ y.1.length :=
    fun y hy => Nat.le_of_not_lt (hmin y hy)
  have hcycle : TransGen (On (model.Depends root model.Stateless) {z | path.length ≤ z.1.length})
      (path, v) (path, v) := by
    refine TransGen.mono ?_ _ _ (transGen_on_cycle hx .refl)
    exact fun a b hab => ⟨hab.1, hhigh a hab.2.1, hhigh b hab.2.2⟩
  obtain ⟨y, hstep, hrun⟩ := TransGen.head'_iff.mp hcycle
  obtain ⟨z, -, hlast⟩ := TransGen.tail'_iff.mp hcycle
  obtain ⟨m, hm⟩ := hstep.1.elaborates hstep.2.2
  have hmodule := hm.mem_modules (mem_modules_of_selectedRoot hroot)
  have hplace := acyclic_placeEdge hacyclic (verifyModule_of_verifyZeroDelayDependencies h hmodule)
  cases v with
  | argument k => exact absurd hlast.1.not_argument (Nat.not_lt.mpr hlast.2.1)
  | result i k =>
    obtain ⟨j, hseen, hedge⟩ := hstep.1.seen_here hm hstep.2.2
    obtain ⟨i', hback, hplaces⟩ := seen_run hm hseen hrun
    have hi : i' = i := by
      generalize hend : (path, Value.result i k) = x at hback
      cases hback with
      | here => exact (Value.result.inj (Prod.mk.inj hend).2).1.symm
      | inside =>
        have := congrArg List.length (Prod.mk.inj hend).1
        simp at this
        omega
    subst hi
    exact hplace _ (TransGen.head' hedge hplaces)

/-! ### A module with state is a tick boundary -/

/-- `%result = ac.instance(%operand)`. -/
def instanceOp (id : ℕ) (name definition : String) (operands : List Value) (results : List PortType) :
    Operation := ⟨id, .instanceOf definition, name, "", operands, results⟩

def pureModule : Module where
  name := "Pure"
  inputs := [.other]
  outputs := [.other]
  body := []
  returns := [.argument 0]
  ids := List.nodup_nil
  defined := by decide

/-- The module owns a process and passes its input on. -/
def statefulModule : Module where
  name := "Stateful"
  inputs := [.other]
  outputs := [.other]
  body := [⟨0, .process, "state", "", [], []⟩]
  returns := [.argument 0]
  ids := by decide
  defined := by decide

def statefulEdgeTop : Module where
  name := "Top"
  inputs := []
  outputs := []
  body := [instanceOp 0 "a" "Stateful" [.result 1 0] [.other],
    instanceOp 1 "b" "Pure" [.result 0 0] [.other], ⟨2, .process, "workload", "", [], []⟩]
  returns := []
  ids := by decide
  defined := by decide

/-- Two instances feed each other and one of them owns a process. -/
def statefulEdge : Model where
  definitions := [.module pureModule, .module statefulModule, .module statefulEdgeTop]
  systems := [⟨"Top", "root", true⟩]
  names := by decide

theorem statefulEdge_acyclic : Acyclic statefulEdge.Instantiates := by
  refine acyclic_of_rank (r := statefulEdge.Instantiates)
    (h := fun d d' h => (?_ : (fun d => if d = "Top" then 0 else 1) d < _))
  obtain ⟨m, m', hm, hm', op, hop, hd'⟩ := h
  obtain ⟨hmem, rfl⟩ := lookupModule_eq_some.mp hm
  have hmodules : m ∈ [pureModule, statefulModule, statefulEdgeTop] := hmem
  simp only [mem_cons, not_mem_nil, or_false] at hmodules
  obtain rfl | rfl | rfl := hmodules
  · cases hop
  · obtain rfl : op = ⟨0, .process, "state", "", [], []⟩ := by simpa [statefulModule] using hop
    simp [Kind.definitions] at hd'
  · simp only [statefulEdgeTop, mem_cons, not_mem_nil, or_false] at hop
    obtain rfl | rfl | rfl := hop
    · obtain rfl : d' = "Stateful" := by simpa [instanceOp, Kind.definitions] using hd'
      decide
    · obtain rfl : d' = "Pure" := by simpa [instanceOp, Kind.definitions] using hd'
      decide
    · simp [Kind.definitions] at hd'

theorem acyclic_stateless_dependencies_statefulEdge :
    statefulEdge.verifyZeroDelayDependencies = .ok () ∧
      Acyclic (statefulEdge.Depends statefulEdgeTop statefulEdge.Stateless) := by
  have haccepted : statefulEdge.verifyZeroDelayDependencies = .ok () := by decide +kernel
  exact ⟨haccepted, acyclic_stateless_dependencies statefulEdge statefulEdgeTop rfl
    statefulEdge_acyclic haccepted⟩

/-- The input of either instance of the model reaches its output. -/
theorem statefulEdge_passes (id : ℕ) (name d : String) (v : Value) {c : Module}
    (hop : instanceOp id name d [v] [.other] ∈ statefulEdgeTop.body)
    (hc : statefulEdge.lookupModule d = some c) (hinputs : c.inputs = [.other])
    (hreturns : c.returns = [.argument 0]) :
    TransGen (statefulEdge.Depends statefulEdgeTop fun _ => True) ([], v) ([], .result id 0) := by
  have henter : statefulEdge.Wire statefulEdgeTop (fun _ => True) ([], v) ([(id, 0)], .argument 0) :=
    .enter .root hop rfl hc trivial (by simp [hinputs]) (by simp [instanceOp])
  have hleave : statefulEdge.Wire statefulEdgeTop (fun _ => True) ([(id, 0)], .argument 0)
      ([], .result id (0 * c.outputs.length + 0)) :=
    .leave .root hop rfl hc trivial (by simp [hreturns]) (by simp [instanceOp])
  rw [Nat.zero_mul] at hleave
  exact .tail (.single (.wire henter)) (.wire hleave)

/-- **A module with state passes a cycle on**: the two instances depend on each other although the model
is accepted. -/
theorem statefulEdge_cycle : ¬ ∀ (model : Model) (root : Module), model.selectedRoot = some root →
    Acyclic model.Instantiates → model.verifyZeroDelayDependencies = .ok () →
      Acyclic (model.Depends root fun _ => True) := by
  intro hclaim
  have haccepted : statefulEdge.verifyZeroDelayDependencies = .ok () := by decide +kernel
  refine hclaim statefulEdge statefulEdgeTop rfl statefulEdge_acyclic haccepted
    ([], .result 0 0) ?_
  have hb := statefulEdge_passes 1 "b" "Pure" (.result 0 0) (by simp [statefulEdgeTop]) rfl rfl rfl
  have ha := statefulEdge_passes 0 "a" "Stateful" (.result 1 0) (by simp [statefulEdgeTop]) rfl rfl rfl
  exact hb.trans ha

end Model

end AgenticCircuit.Analysis
