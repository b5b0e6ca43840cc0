import Mathlib.Algebra.BigOperators.Group.List.Basic
import Mathlib.Algebra.GroupWithZero.Nat
import Mathlib.Data.List.Sort

/-! # Processes before planning

The operations of an `ac.process` and of the functions it calls, as the process planner reads them.

* **Syntax.**  Every operation has an identity, which stands for its address and for the path that
  `indexOperationTree` gives it.  A value is a result of an operation or an argument of one of its
  blocks.
* **Files.**  `WellFormed` is what the verifiers of MLIR and of the `func` dialect promise: identities
  differ, every operand is dominated by its definition, terminators end their blocks, and calls
  match the signature of their callee.
* **Acceptance.**  `verifyProcessLowerability`, and the calls that the call graph starts from. -/

namespace AgenticCircuit.ProcessPlan

/-! ### Syntax -/

/-- A result of an operation, or an argument of one of the blocks of the operation `owner`. -/
inductive Value where
  | result (owner index : ℕ)
  | argument (owner block index : ℕ)
  deriving DecidableEq

/-- Names of the operations without regions that are neither calls nor terminators. -/
inductive Name where
  | arith (mnemonic : String)
  | index (mnemonic : String)
  | recordCreate
  | recordGet
  | recordWith
  | packetSerialize
  | packetDeserialize
  | trySend
  | tryRecv
  | tryTransfer
  | peek
  | space
  | schedule
  | tryEvent
  | stateRead
  | stateWrite
  | waitUntil
  | waitFor
  | awaitEvent
  | awaitQueue
  | yieldSim
  | traceOpen
  | traceNext
  | traceDecode
  | traceEof
  | tracePosition
  | require
  | ensure
  | assert
  | probe
  | statAdd
  | arbitrate
  | other (name : String)
  deriving DecidableEq

/-- What `m_Constant` finds: `i1` values, other integers by their signed value, other attributes. -/
inductive Constant where
  | boolean (value : Bool)
  | integer (value : ℤ)
  | other
  deriving DecidableEq

structure Call where
  id : ℕ
  callee : String
  operands : List Value
  results : ℕ
  deriving DecidableEq

/-- The arguments of the body of `scf.for` are the induction variable and one for each element of
`inits`, and so are the results but for the induction variable.  An `elseBody` that is empty is an
absent region.  `effectFree` says that the operation has no memory effects. -/
inductive Operation where
  | simple (id : ℕ) (name : Name) (operands : List Value) (results : ℕ)
      (constant : Option Constant) (effectFree : Bool)
  | call (call : Call)
  | ret (id : ℕ) (operands : List Value)
  | yield (id : ℕ) (operands : List Value)
  | condition (id : ℕ) (operands : List Value)
  | forOp (id : ℕ) (lower upper step : Value) (inits : List Value) (body : List Operation)
  | ifOp (id : ℕ) (condition : Value) (results : ℕ) (thenBody elseBody : List Operation)
  | whileOp (id : ℕ) (inits : List Value) (results : ℕ) (before after : List Operation)
  | instrumentation (id : ℕ) (body : List Operation)

namespace Operation

def id : Operation → ℕ
  | simple id _ _ _ _ _ | ret id _ | yield id _ | condition id _ | forOp id _ _ _ _ _
  | ifOp id _ _ _ _ | whileOp id _ _ _ _ | instrumentation id _ => id
  | .call c => c.id

def operands : Operation → List Value
  | simple _ _ operands _ _ _ | ret _ operands | yield _ operands | condition _ operands => operands
  | .call c => c.operands
  | forOp _ lower upper step inits _ => lower :: upper :: step :: inits
  | ifOp _ guard _ _ _ => [guard]
  | whileOp _ inits _ _ _ => inits
  | instrumentation _ _ => []

def numResults : Operation → ℕ
  | simple _ _ _ results _ _ | ifOp _ _ results _ _ | whileOp _ _ results _ _ => results
  | .call c => c.results
  | forOp _ _ _ _ inits _ => inits.length
  | ret _ _ | yield _ _ | condition _ _ | instrumentation _ _ => 0

def results (op : Operation) : List Value := (List.range op.numResults).map (.result op.id)

def isTerminator : Operation → Bool
  | ret _ _ | yield _ _ | condition _ _ => true
  | _ => false

end Operation

/-- The induction variable and the iteration arguments of `scf.for`. -/
def inductionVar (id : ℕ) : Value := .argument id 0 0

def iterArgs (id count : ℕ) : List Value := (List.range count).map fun i => .argument id 0 (i + 1)

/-- The arguments of the given block of an operation. -/
def blockArguments (id block count : ℕ) : List Value :=
  (List.range count).map (.argument id block)

/-- An external function has no body. -/
structure Function where
  id : ℕ
  name : String
  arguments : ℕ
  results : ℕ
  body : List Operation

structure Process where
  id : ℕ
  owner : String
  name : String
  captures : ℕ
  body : List Operation

structure File where
  processes : List Process
  functions : List Function

/-- The operands of the `func.return` that ends the body. -/
def Function.returns (f : Function) : List Value :=
  match f.body.getLast? with
  | some (.ret _ operands) => operands
  | _ => []

/-- The operands of the `scf.yield` that ends a body. -/
def yielded (body : List Operation) : List Value :=
  match body.getLast? with
  | some (.yield _ operands) => operands
  | _ => []

/-! ### Operations inside operations -/

mutual

/-- An operation and those nested in it, in the order of a walk. -/
def Operation.tree : Operation → List Operation
  | .forOp id lower upper step inits body => .forOp id lower upper step inits body :: trees body
  | .ifOp id condition results thenBody elseBody =>
    .ifOp id condition results thenBody elseBody :: (trees thenBody ++ trees elseBody)
  | .whileOp id inits results before after =>
    .whileOp id inits results before after :: (trees before ++ trees after)
  | .instrumentation id body => .instrumentation id body :: trees body
  | op => [op]

def trees : List Operation → List Operation
  | [] => []
  | op :: rest => op.tree ++ trees rest

end

mutual

/-- Number of regions around the innermost operation. -/
def Operation.depth : Operation → ℕ
  | .forOp _ _ _ _ _ body | .instrumentation _ body => depths body
  | .ifOp _ _ _ thenBody elseBody => max (depths thenBody) (depths elseBody)
  | .whileOp _ _ _ before after => max (depths before) (depths after)
  | _ => 0

def depths : List Operation → ℕ
  | [] => 0
  | op :: rest => max (op.depth + 1) (depths rest)

end

/-- What an identity belongs to. -/
inductive Owner where
  | process (process : Process)
  | function (function : Function)
  | operation (op : Operation)

namespace File

variable (file : File)

def operations : List Operation :=
  file.processes.flatMap (fun p => trees p.body) ++ file.functions.flatMap (fun f => trees f.body)

def owners : List (ℕ × Owner) :=
  file.processes.map (fun p => (p.id, .process p)) ++
    (file.functions.map (fun f => (f.id, .function f)) ++
      file.operations.map fun op => (op.id, .operation op))

/-- `Value::getDefiningOp`, or the operation around the block of an argument. -/
def owner (id : ℕ) : Option Owner := (file.owners.find? fun o => o.1 == id).map Prod.snd

def lookup (name : String) : Option Function := file.functions.find? fun f => f.name == name

end File

/-! ### Dominance -/

mutual

/-- Every operand is in scope. -/
def Operation.dominated (scope : List Value) : Operation → Bool
  | .simple _ _ operands _ _ _ | .ret _ operands | .yield _ operands | .condition _ operands =>
    operands.all scope.contains
  | .call call => call.operands.all scope.contains
  | .forOp id lower upper step inits body =>
    (lower :: upper :: step :: inits).all scope.contains &&
      blockDominated (inductionVar id :: iterArgs id inits.length ++ scope) body
  | .ifOp _ condition _ thenBody elseBody =>
    scope.contains condition && blockDominated scope thenBody && blockDominated scope elseBody
  | .whileOp id inits results before after =>
    inits.all scope.contains &&
      blockDominated (blockArguments id 0 inits.length ++ scope) before &&
      blockDominated (blockArguments id 1 results ++ scope) after
  | .instrumentation _ body => blockDominated scope body

/-- The results of an operation are in scope in the rest of its block. -/
def blockDominated (scope : List Value) : List Operation → Bool
  | [] => true
  | op :: rest => op.dominated scope && blockDominated (op.results ++ scope) rest

end

/-- A function ends in one `func.return`, of as many operands as it has results. -/
def Function.returnsLast (f : Function) : Bool :=
  f.body.dropLast.all (fun op => !op.isTerminator) &&
    match f.body.getLast? with
    | some (.ret _ operands) => operands.length == f.results
    | _ => false

/-- A call and its callee have the same signature. -/
def File.callMatches (file : File) : Operation → Bool
  | .call call =>
    match file.lookup call.callee with
    | some f => call.operands.length == f.arguments && call.results == f.results
    | none => false
  | _ => true

/-- What the verifiers of MLIR promise of a file. -/
structure File.WellFormed (file : File) : Prop where
  ids_nodup : (file.owners.map Prod.fst).Nodup
  process_dominated : ∀ p ∈ file.processes,
    blockDominated (blockArguments p.id 0 p.captures) p.body = true
  function_dominated : ∀ f ∈ file.functions,
    blockDominated (blockArguments f.id 0 f.arguments) f.body = true
  returnsLast : ∀ f ∈ file.functions, f.body ≠ [] → f.returnsLast = true
  callMatches : ∀ op ∈ file.operations, file.callMatches op = true

/-! ### Acceptance -/

structure RawModelStructureLimits where
  maxNodes : ℕ := 2 ^ 20
  maxEdges : ℕ := 2 ^ 22
  maxNestedRegionDepth : ℕ := 512
  deriving DecidableEq

def kMaxStaticForTrips : ℕ := 2 ^ 20

def kMaxPureCallFunctions : ℕ := 2 ^ 16

def kMaxPureCallEdges : ℕ := 2 ^ 18

def kMaxPureCallDepth : ℕ := 1024

def isSuspension : Name → Bool
  | .waitUntil | .waitFor | .awaitEvent | .awaitQueue | .yieldSim => true
  | _ => false

/-- Of the operations without regions only unknown ones are refused. -/
def isAllowedProcessOperation : Operation → Bool
  | .simple _ (.other _) _ _ _ _ => false
  | _ => true

def arithmeticIsPure : Operation → Bool
  | .simple _ (.arith _) _ _ _ effectFree | .simple _ (.index _) _ _ _ effectFree => effectFree
  | _ => true

/-- The block ends in `scf.yield` with the given number of operands. -/
def yieldsExactly (body : List Operation) (count : ℕ) : Bool :=
  match body.getLast? with
  | some (.yield _ operands) => operands.length == count
  | _ => false

/-- The arities that `verifySCFShape` compares. -/
def verifySCFShape : Operation → Bool
  | .ifOp _ _ results thenBody elseBody =>
    yieldsExactly thenBody results &&
      (if elseBody.isEmpty then results == 0 else yieldsExactly elseBody results)
  | .forOp _ _ _ _ inits body => yieldsExactly body inits.length
  | .whileOp _ inits results before after =>
    (match before.getLast? with
      | some (.condition _ operands) => operands.length == results + 1
      | _ => false) && yieldsExactly after inits.length
  | _ => true

namespace File

variable (file : File)

def constant : Value → Option Constant
  | .result id 0 =>
    match file.owner id with
    | some (.operation (.simple _ _ _ _ constant _)) => constant
    | _ => none
  | _ => none

def constantBoolean (v : Value) : Option Bool :=
  match file.constant v with
  | some (.boolean value) => some value
  | _ => none

def isIntegerConstant (v : Value) : Bool :=
  match file.constant v with
  | some (.boolean _) | some (.integer _) => true
  | _ => false

/-- The signed value, where it has at most 64 bits. -/
def constantInt (v : Value) : Option ℤ :=
  match file.constant v with
  | some (.boolean value) => some (if value then -1 else 0)
  | some (.integer value) => if -2 ^ 63 ≤ value ∧ value < 2 ^ 63 then some value else none
  | _ => none

/-- Trip count of a static loop. -/
def analyzeStaticFor (lower upper step : Value) : Option ℕ := do
  let lower ← file.constantInt lower
  let upper ← file.constantInt upper
  let step ← file.constantInt step
  let distance := (upper - lower).toNat
  let trips := (distance + step.toNat - 1) / step.toNat
  if step ≤ 0 ∨ kMaxStaticForTrips < trips then none else some trips

mutual

/-- The operation suspends on every path through it, as far as the analysis looks. -/
def guaranteed : Operation → Bool
  | .simple _ name _ _ _ _ => isSuspension name
  | .ifOp _ condition _ thenBody elseBody =>
    match file.constantBoolean condition with
    | some true => guarantees thenBody
    | some false => guarantees elseBody
    | none => !elseBody.isEmpty && guarantees thenBody && guarantees elseBody
  | _ => false

def guarantees : List Operation → Bool
  | [] => false
  | op :: rest => guaranteed op || guarantees rest

end

/-- Constant bounds make a loop static; every other loop has to suspend in its body. -/
def loopAllowed : Operation → Bool
  | .forOp _ lower upper step _ body =>
    if file.isIntegerConstant lower && file.isIntegerConstant upper && file.isIntegerConstant step
    then (file.analyzeStaticFor lower upper step).isSome
    else file.guarantees body
  | _ => true

/-- The walk over the operations of a body, whose own operation has the given operands. -/
def verifyProcessLowerability (limits : RawModelStructureLimits) (operands : ℕ)
    (body : List Operation) : Bool :=
  let nested := trees body
  decide (depths body ≤ limits.maxNestedRegionDepth) &&
    decide (nested.length + 1 ≤ limits.maxNodes) &&
    decide (operands + (nested.map fun op => op.operands.length).sum ≤ limits.maxEdges) &&
    nested.all fun op =>
      isAllowedProcessOperation op && arithmeticIsPure op && verifySCFShape op && file.loopAllowed op

end File

/-- Local effects; those of regions are the effects of their operations. -/
def localEffectFree : Operation → Bool
  | .simple _ _ _ _ _ effectFree => effectFree
  | _ => true

def calls (body : List Operation) : List Call :=
  (trees body).filterMap fun
    | .call call => some call
    | _ => none

inductive Visit where
  | unvisited
  | active
  | pure
  deriving DecidableEq

namespace File

variable (file : File)

/-- The calls of all processes, by owner, process and callee. -/
def roots : List (String × Call) :=
  (file.processes.flatMap fun p =>
    (calls p.body).map fun call => (p.owner ++ "::" ++ p.name ++ "::" ++ call.callee, call)).insertionSort
      fun a b => a.1 ≤ b.1

end File

end AgenticCircuit.ProcessPlan
