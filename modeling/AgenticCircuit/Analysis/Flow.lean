import AgenticCircuit.Analysis.Hierarchy

/-! # Flow connections

`verifyFlowConnections` elaborates the selected root through its `ac.instance` operations and joins the
Flow values of all module instances into nets.  A net starts at an `ac.flow.export`, is threaded through
module ports and collects the `ac.flow.import` operations it reaches; in the end each net must have one
source and one sink.  The instances of a body are handled by a worklist: an instance waits until all of its
Flow operands have a net.  `ac.array` and `ac.instances` are not elaborated. -/

namespace AgenticCircuit.Analysis

/-! ### What the verifiers of the operations have checked -/

/-- The type of a value of the body. -/
def Module.typeOf (m : Module) : Value → Option PortType
  | .argument index => m.inputs[index]?
  | .result operation index =>
    (m.body.find? fun op => op.id = operation).bind fun op => op.results[index]?

def Module.isFlow (m : Module) (v : Value) : Bool := m.typeOf v = some .flow

def Definition.inputs : Definition → List PortType
  | module m => m.inputs
  | declaration _ inputs _ => inputs

def Definition.outputs : Definition → List PortType
  | module m => m.outputs
  | declaration _ _ outputs => outputs

namespace Model

variable (model : Model)

/-- `FlowExportOp::verify`, `FlowImportOp::verify`, and the repeated signature that `InstanceOp::verify`,
`ArrayOp::verify` and `InstancesOp::verify` ask for. -/
def verifyOperation (m : Module) (op : Operation) : Bool :=
  match op.kind with
  | .flowExport => op.operands = [] && op.results = [.flow]
  | .flowImport => op.operands.map m.typeOf = [some .flow] && op.results = []
  | kind => kind.definitions.all fun d =>
    match model.lookupDefinition d with
    | some definition =>
      op.operands.map m.typeOf =
        ((List.replicate kind.elements.length definition.inputs).flatten.map some) &&
      op.results = (List.replicate kind.elements.length definition.outputs).flatten
    | none => false

/-- The operations of every body and its `ac.return` pass their verifiers. -/
def Verified : Prop :=
  ∀ m ∈ model.modules, m.returns.map m.typeOf = m.outputs.map some ∧
    ∀ op ∈ m.body, model.verifyOperation m op = true

instance : Decidable model.Verified :=
  inferInstanceAs (Decidable (∀ m ∈ model.modules, _ ∧ ∀ op ∈ m.body, _))

end Model

/-! ### The analysis -/

/-- An executed `ac.flow.export` or `ac.flow.import`: the path of its module and its identity. -/
abbrev Endpoint := Model.Path × ℕ

structure Net where
  source : Option Endpoint
  sinks : List Endpoint

structure FlowState where
  nets : List Net
  visitedInstances : ℕ

abbrev MaybeNet := Option ℕ

/-- The nets of the values of one body. -/
abbrev Values := Value → MaybeNet

/-- The net gets the next number. -/
def FlowState.newNet (s : FlowState) (source : Option Endpoint) : FlowState :=
  { s with nets := s.nets ++ [⟨source, []⟩] }

def FlowState.addSink (s : FlowState) (net : ℕ) (sink : Endpoint) : FlowState :=
  { s with nets := s.nets.modify net fun n => { n with sinks := n.sinks ++ [sink] } }

/-- The Flow arguments from `index` on take the nets of the inputs. -/
def bindArguments (inputs : List MaybeNet) : ℕ → List PortType → Values → FlowState →
    Values × FlowState
  | _, [], values, s => (values, s)
  | index, .other :: types, values, s => bindArguments inputs (index + 1) types values s
  | index, .flow :: types, values, s =>
    match inputs[index]?.join with
    | some net => bindArguments inputs (index + 1) types
        (Function.update values (.argument index) (some net)) s
    | none => bindArguments inputs (index + 1) types
        (Function.update values (.argument index) (some s.nets.length)) (s.newNet none)

/-- Every export starts a net. -/
def bindExports (path : Model.Path) : List Operation → Values → FlowState → Values × FlowState
  | [], values, s => (values, s)
  | op :: ops, values, s =>
    if op.kind = .flowExport then
      bindExports path ops (Function.update values (.result op.id 0) (some s.nets.length))
        (s.newNet (some (path, op.id)))
    else bindExports path ops values s

/-- The `ac.instance` operations of a body with their definitions. -/
def Module.instances (m : Module) : List (Operation × String) :=
  m.body.filterMap fun op =>
    match op.kind with
    | .instanceOf definition => some (op, definition)
    | _ => none

/-- All Flow operands have a net. -/
def Module.ready (m : Module) (values : Values) (instanced : Operation × String) : Bool :=
  instanced.1.operands.all fun v => !m.isFlow v || (values v).isSome

def Module.carriesFlow (m : Module) (op : Operation) : Bool :=
  op.operands.any m.isFlow || op.results.any fun type => type = .flow

/-- The Flow results of an instance take the nets of the outputs. -/
def bindResults (op : Operation) (outputs : List MaybeNet) (values : Values) : Values
  | .argument index => values (.argument index)
  | .result operation index =>
    if operation = op.id ∧ op.results[index]? = some .flow then
      (outputs[index]?.join).or (values (.result operation index))
    else values (.result operation index)

abbrev Analyze :=
  Module → List MaybeNet → Model.Path → FlowState → Except String (List MaybeNet × FlowState)

namespace Model

variable (model : Model)

/-- One instance whose Flow operands all have a net. -/
def bindInstance (analyze : Analyze) (m : Module) (path : Path) (instanced : Operation × String)
    (values : Values) (s : FlowState) : Except String (Values × FlowState) :=
  match model.lookupModule instanced.2 with
  | none =>
    if m.carriesFlow instanced.1 then
      .error "ACFLOW-MIXED-EXTERNAL: native Flow cannot bind an external or generated provider"
    else .ok (values, s)
  | some concrete => do
      let childInputs := instanced.1.operands.map fun v => if m.isFlow v then values v else none
      let (childOutputs, s) ← analyze concrete childInputs ((instanced.1.id, 0) :: path) s
      .ok (bindResults instanced.1 childOutputs values, s)

/-- The worklist: the first ready instance is taken until none is left. -/
def bindInstances (analyze : Analyze) (m : Module) (path : Path) :
    ℕ → List (Operation × String) → Values → FlowState → Except String (Values × FlowState)
  | 0, _, values, s => .ok (values, s)
  | count + 1, pending, values, s =>
    match pending.find? (m.ready values) with
    | none => .error "ACFLOW-DANGLING-IMPORT: Flow operand has no resolved source"
    | some instanced => do
        let (values', s) ← model.bindInstance analyze m path instanced values s
        bindInstances analyze m path count (pending.eraseP (m.ready values)) values' s

/-- Every import is a sink of the net of its operand. -/
def bindImports (path : Path) (values : Values) : List Operation → FlowState → Except String FlowState
  | [], s => .ok s
  | op :: ops, s =>
    if op.kind = .flowImport then
      match op.operands.head?.bind values with
      | none => .error "ACFLOW-DANGLING-IMPORT: Flow import has no resolved source"
      | some net => bindImports path values ops (s.addSink net (path, op.id))
    else bindImports path values ops s

def bindReturns (m : Module) (values : Values) : List Value → Except String (List MaybeNet)
  | [] => .ok []
  | v :: vs => do
      let output ← if m.isFlow v then
          match values v with
          | none => .error "ACFLOW-DANGLING-EXPORT: returned Flow has no resolved export"
          | some net => .ok (some net)
        else .ok none
      let outputs ← bindReturns m values vs
      .ok (output :: outputs)

/-- One module instance.  Each call counts an instance, so a depth above the limit is never reached. -/
def analyze : ℕ → Analyze
  | 0, _, _, _, _ =>
    .error "ACFLOW-LIMIT: instantiated Flow analysis exceeds the ACIR node limit"
  | depth + 1, m, inputs, path, s =>
    let s := { s with visitedInstances := s.visitedInstances + 1 }
    if s.visitedInstances > kMaxModelAnalysisNodes then
      .error "ACFLOW-LIMIT: instantiated Flow analysis exceeds the ACIR node limit"
    else do
      let (values, s) := bindArguments inputs 0 m.inputs (fun _ => none) s
      let (values, s) := bindExports path m.body values s
      let (values, s) ←
        model.bindInstances (analyze depth) m path m.instances.length m.instances values s
      let s ← bindImports path values m.body s
      let outputs ← bindReturns m values m.returns
      .ok (outputs, s)

def verifyNet (net : Net) : Except String Unit :=
  if net.source = none then
    .error "ACFLOW-DANGLING-IMPORT: Flow has no source export in the selected root hierarchy"
  else if net.sinks = [] then
    .error "ACFLOW-DANGLING-EXPORT: Flow export has no import in the selected root hierarchy"
  else if 1 < net.sinks.length then
    .error "ACFLOW-FANOUT: one Flow export resolves to multiple imports"
  else .ok ()

def verifyRoot (root : Module) : Except String Unit :=
  if PortType.flow ∈ root.inputs then
    .error ("ACFLOW-ROOT-ESCAPE: selected root Flow input " ++
      toString (root.inputs.idxOf .flow) ++ " would require a harness provider")
  else do
    let (outputs, s) ← model.analyze (kMaxModelAnalysisNodes + 1) root
      (List.replicate root.inputs.length none) [] ⟨[], 0⟩
    if outputs.any Option.isSome then
      .error ("ACFLOW-ROOT-ESCAPE: selected root Flow result " ++
        toString (outputs.findIdx Option.isSome) ++ " escapes to the harness")
    else forM s.nets verifyNet

/-- Without a selected root there is nothing to check. -/
def verifyFlowConnections : Except String Unit :=
  match model.selectedRoot with
  | none => .ok ()
  | some root => model.verifyRoot root

end Model

end AgenticCircuit.Analysis
