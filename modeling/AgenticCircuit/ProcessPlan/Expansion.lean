import AgenticCircuit.ProcessPlan.PureCallGraph

/-! # Process expansion

`PlanSetBuilder::expandProcess`: the operations of a process and of the functions it calls become one
list of actions.  Operations wait on a stack.  A call binds the arguments of its callee and its own
results and pushes the body of the callee; a static loop becomes three actions shared by its
iterations and pushes its body once.

The environment binds values by call context.  `defineValue` and `resolveValue` leave a bound value
alone and bind any other one to its own coordinate.  Planned values are compared by address in the
source; each coordinate is built at most once, so that equality of coordinates is the same. -/

namespace AgenticCircuit.ProcessPlan

/-! ### Contexts and planned values -/

structure CallSite where
  operation : Call
  iterationVector : List ℕ
  deriving DecidableEq

structure ExpansionContext where
  callSites : List CallSite
  iterations : List ℕ
  deriving DecidableEq

namespace ExpansionContext

def root : ExpansionContext := ⟨[], []⟩

/-- `contextKey` keeps the call sites and the first iteration counts. -/
def key (context : ExpansionContext) (iterationCount : ℕ) : ExpansionContext :=
  ⟨context.callSites, context.iterations.take iterationCount⟩

/-- The context of the body of a callee. -/
def enter (context : ExpansionContext) (call : Call) : ExpansionContext :=
  ⟨context.callSites ++ [⟨call, context.iterations⟩], context.iterations⟩

end ExpansionContext

inductive LoopPhase where
  | initialization
  | condition
  | increment
  deriving DecidableEq

/-- A coordinate of the source in its context, or a value of a loop that has none. -/
inductive PlannedValue where
  | original (value : Value) (context : ExpansionContext)
  | synthetic (loop : ℕ) (context : ExpansionContext) (phase : LoopPhase) (index : ℕ)
  deriving DecidableEq

inductive ActionKind where
  | original
  | forInitialize
  | forCondition
  | forIncrement
  deriving DecidableEq

structure ScalarOperation where
  name : String
  properties : String
  attributes : List (String × String)
  deriving DecidableEq

def makeScalar (name : String) (predicate : Bool) : ScalarOperation :=
  ⟨name, "\x7b\x7d", if predicate then [("predicate", "2 : i64")] else []⟩

structure ExpandedAction where
  kind : ActionKind
  operation : Operation
  context : ExpansionContext
  operands : List PlannedValue
  results : List PlannedValue
  scalarOperation : Option ScalarOperation

structure ExpandedForwarding where
  source : PlannedValue
  target : PlannedValue

/-- The use of a value is replaced by the use of the one it stands for. -/
def rewriteUse (target source p : PlannedValue) : PlannedValue := if p = target then source else p

def ExpandedAction.rewrite (target source : PlannedValue) (action : ExpandedAction) :
    ExpandedAction :=
  { action with operands := action.operands.map (rewriteUse target source) }

/-! ### The environment -/

def Environment : Type := Value → ExpansionContext → Option PlannedValue

namespace Environment

def empty : Environment := fun _ _ => none

def insertOrAssign (env : Environment) (v : Value) (context : ExpansionContext)
    (p : PlannedValue) : Environment :=
  fun v' context' => if v' = v ∧ context' = context then some p else env v' context'

def defineValue (env : Environment) (v : Value) (context : ExpansionContext) :
    PlannedValue × Environment :=
  match env v (context.key context.iterations.length) with
  | some p => (p, env)
  | none =>
    (.original v context,
      env.insertOrAssign v (context.key context.iterations.length) (.original v context))

/-- The binding with the longest prefix of the iteration counts. -/
def lookup (env : Environment) (v : Value) (context : ExpansionContext) : ℕ → Option PlannedValue
  | 0 => env v (context.key 0)
  | count + 1 => (env v (context.key (count + 1))).or (lookup env v context count)

def resolveValue (env : Environment) (v : Value) (context : ExpansionContext) :
    PlannedValue × Environment :=
  match env.lookup v context context.iterations.length with
  | some p => (p, env)
  | none => env.defineValue v context

def resolveValues (context : ExpansionContext) :
    Environment → List Value → List PlannedValue × Environment
  | env, [] => ([], env)
  | env, v :: rest =>
    let (p, env) := env.resolveValue v context
    let (ps, env) := resolveValues context env rest
    (p :: ps, env)

def defineValues (context : ExpansionContext) :
    Environment → List Value → List PlannedValue × Environment
  | env, [] => ([], env)
  | env, v :: rest =>
    let (p, env) := env.defineValue v context
    let (ps, env) := defineValues context env rest
    (p :: ps, env)

end Environment

/-! ### The loop -/

structure Task where
  operation : Operation
  context : ExpansionContext

structure Expansion where
  actions : List ExpandedAction
  forwarding : List ExpandedForwarding
  environment : Environment
  nodes : ℕ
  edges : ℕ
  pending : List Task

variable (limits : RawModelStructureLimits)

namespace Expansion

def reserveNodes (s : Expansion) (count : ℕ) : Option Expansion :=
  if limits.maxNodes - s.nodes < count then none else some { s with nodes := s.nodes + count }

def reserveEdges (s : Expansion) (count : ℕ) : Option Expansion :=
  if limits.maxEdges - s.edges < count then none else some { s with edges := s.edges + count }

def addForwarding (fromValue : Value) (fromContext : ExpansionContext) (toValue : Value)
    (toContext : ExpansionContext) (s : Expansion) : Option Expansion := do
  let s ← s.reserveEdges limits 1
  let (source, env) := s.environment.resolveValue fromValue fromContext
  let (target, env) := env.defineValue toValue toContext
  some { s with
    actions := s.actions.map (ExpandedAction.rewrite target source)
    forwarding := s.forwarding.map (fun f => { f with source := rewriteUse target source f.source }) ++
      [⟨source, target⟩]
    environment := env.insertOrAssign toValue (toContext.key toContext.iterations.length) source }

/-- `addForwarding` for each pair of two ranges. -/
def addForwardings (fromContext toContext : ExpansionContext) :
    List (Value × Value) → Expansion → Option Expansion
  | [], s => some s
  | (fromValue, toValue) :: rest, s => do
      let s ← s.addForwarding limits fromValue fromContext toValue toContext
      addForwardings fromContext toContext rest s

def addOriginalAction (operation : Operation) (context : ExpansionContext) (s : Expansion) :
    Expansion :=
  let (operands, env) := s.environment.resolveValues context operation.operands
  let (results, env) := env.defineValues context operation.results
  { s with
    environment := env
    actions := s.actions ++ [⟨.original, operation, context, operands, results, none⟩] }

/-- The operations are pushed from the last one on, so that the first is popped first. -/
def pushBlock (context : ExpansionContext) : List Operation → Expansion → Option Expansion
  | [], s => some s
  | operation :: rest, s => do
      let s ← pushBlock context rest s
      let s ← s.reserveNodes limits 1
      let s ← s.reserveEdges limits operation.operands.length
      some { s with pending := ⟨operation, context⟩ :: s.pending }

/-- The returns of a callee are forwarded before its body is expanded. -/
def forwardReturns (call : Call) (context : ExpansionContext) :
    List Operation → Expansion → Option Expansion
  | [], s => some s
  | .ret _ operands :: rest, s => do
      let s ← s.addForwardings limits (context.enter call) context
        (operands.zip ((List.range call.results).map (.result call.id)))
      forwardReturns call context rest s
  | _ :: rest, s => forwardReturns call context rest s

def expandCall (callGraph : List Function) (call : Call) (context : ExpansionContext)
    (s : Expansion) : Option Expansion := do
  let callee ← callGraph.find? fun f => f.name == call.callee
  if kMaxPureCallDepth < (context.enter call).callSites.length then failure
  let s ← s.addForwardings limits context (context.enter call)
    (call.operands.zip (blockArguments callee.id 0 callee.arguments))
  let s ← s.forwardReturns limits call context callee.body
  s.pushBlock limits (context.enter call) callee.body

/-- Each iteration argument and each result of a loop is bound to the carried value. -/
def bindCarried (id : ℕ) (context : ExpansionContext) :
    ℕ → Environment → List PlannedValue × Environment
  | 0, env => ([], env)
  | count + 1, env =>
    let (carried, env) := bindCarried id context count env
    let (p, env) := env.defineValue (.argument id 0 (count + 1)) context
    let key := context.key context.iterations.length
    (carried ++ [p],
      (env.insertOrAssign (.argument id 0 (count + 1)) key p).insertOrAssign (.result id count) key p)

/-- The three actions of a loop.  The yielded values are resolved before the body is expanded. -/
def loopActions (id : ℕ) (lower upper step : Value) (inits : List Value) (body : List Operation)
    (context : ExpansionContext) (env : Environment) : List ExpandedAction × Environment :=
  let operation := Operation.forOp id lower upper step inits body
  let induction := PlannedValue.synthetic id context .initialization 0
  let condition := PlannedValue.synthetic id context .condition 0
  let nextInduction := PlannedValue.synthetic id context .increment 0
  let nextLoopCarried :=
    (List.range inits.length).map fun i => PlannedValue.synthetic id context .increment (i + 1)
  let (loopCarried, env) := bindCarried id context inits.length env
  let (initialOperands, env) := env.resolveValues context (lower :: inits)
  let (upperValue, env) := env.resolveValue upper context
  let (stepValue, env) := env.resolveValue step context
  let (nextOperands, env) := env.resolveValues context (yielded body)
  ([⟨.forInitialize, operation, context, initialOperands, induction :: loopCarried, none⟩,
      ⟨.forCondition, operation, context, [induction, upperValue], [condition],
        some (makeScalar "arith.cmpi" true)⟩,
      ⟨.forIncrement, operation, context,
        [induction, stepValue] ++ loopCarried ++ nextOperands, nextInduction :: nextLoopCarried,
        some (makeScalar "arith.addi" false)⟩],
    env)

/-- The induction variable is bound by hand: earlier uses of it are not rewritten. -/
def bindInduction (id : ℕ) (context : ExpansionContext) (s : Expansion) : Expansion :=
  let induction := PlannedValue.synthetic id context .initialization 0
  let (target, env) := s.environment.defineValue (inductionVar id) context
  { s with
    forwarding := s.forwarding ++ [⟨induction, target⟩]
    environment :=
      env.insertOrAssign (inductionVar id) (context.key context.iterations.length) induction }

def expandFor (id : ℕ) (lower upper step : Value) (inits : List Value) (body : List Operation)
    (context : ExpansionContext) (s : Expansion) : Option Expansion := do
  let (actions, env) := loopActions id lower upper step inits body context s.environment
  let s := { s with environment := env, actions := s.actions ++ actions }
  let s ← s.reserveNodes limits 3
  let s ← s.reserveEdges limits 1
  (s.bindInduction id context).pushBlock limits context body

/-- One turn, for the task popped. -/
def expandTask (callGraph : List Function) (task : Task) (s : Expansion) : Option Expansion :=
  match task.operation with
  | .call call => s.expandCall limits callGraph call task.context
  | .ret _ _ | .yield _ _ | .condition _ _ => some s
  | .forOp id lower upper step inits body =>
    s.expandFor limits id lower upper step inits body task.context
  | .ifOp _ _ _ thenBody elseBody => do
      let s ← s.pushBlock limits task.context thenBody
      s.pushBlock limits task.context elseBody
  | .whileOp _ _ _ before after => do
      let s ← s.pushBlock limits task.context before
      s.pushBlock limits task.context after
  | operation => some (s.addOriginalAction operation task.context)

/-- The loop runs until nothing is pending; every turn pops an operation that was counted. -/
def expandPending (callGraph : List Function) : ℕ → Expansion → Option Expansion
  | 0, s => if s.pending.isEmpty then some s else none
  | turns + 1, s =>
    match s.pending with
    | [] => some s
    | task :: rest => do
        let s ← expandTask limits callGraph task { s with pending := rest }
        expandPending callGraph turns s

end Expansion

structure ExpandedProcess where
  process : Process
  actions : List ExpandedAction
  forwarding : List ExpandedForwarding
  expandedNodes : ℕ
  expandedEdges : ℕ

/-- The state in which the loop starts. -/
def Expansion.start (process : Process) : Option Expansion :=
  Expansion.pushBlock limits .root process.body
    { actions := []
      forwarding := []
      environment :=
        (Environment.empty.defineValues .root (blockArguments process.id 0 process.captures)).2
      nodes := 0
      edges := 0
      pending := [] }

/-- The functions that the processes of a file reach, when all of them are pure and none is
recursive.  The limits on the size of the rest of the file are left out. -/
def File.validatePureProcessCallGraph (file : File) : Option (List Function) :=
  match PureCallGraph.validatePureProcessCallGraph ⟨file, 0, 0, 0⟩ {} {} with
  | .ok graph => some (graph.map PureCallGraph.ValidatedPureFunction.function)
  | .error _ => none

def expandProcess (file : File) (process : Process) : Option ExpandedProcess := do
  if !file.verifyProcessLowerability limits process.captures process.body then failure
  let callGraph ← file.validatePureProcessCallGraph
  let s ← Expansion.start limits process
  let s ← s.expandPending limits callGraph limits.maxNodes
  return ⟨process, s.actions, s.forwarding, s.nodes, s.edges⟩

end AgenticCircuit.ProcessPlan
