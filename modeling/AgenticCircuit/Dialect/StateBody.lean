import AgenticCircuit.Dialect.Structured
import AgenticCircuit.Gfsim.StateArray

/-! # Process bodies over state arrays

The bodies of `ac.process` with their SSA values, and the canonicalisation patterns of
`ac.state_read` and `ac.state_write`.

* **Syntax.**  A `Region` is a single block, operation after operation; the results of an operation
  are in scope in the rest of the block and in the regions nested there, as dominance has it
  (`dominated`).  Forgetting the values gives the blocks of `Dialect.Structured`, on which the
  process verifier decides progress.
* **Patterns.**  `Rewrites` is one application of `ReuseCommittedStateRead` or
  `EraseDisabledStateWrite` at any place of a body.  Its first argument tells whether a read was
  reused across an operation that may suspend the process, which the pattern does not ask.
* **Execution.**  A stack machine in which every frame has its own values.  State arrays are
  accessed as `StateArray` has it; other effects are events that the rest of the system answers, and
  at a suspension it acts on the arrays until the process is resumed. -/

namespace AgenticCircuit.Dialect

open AgenticCircuit.Gfsim Function

/-- Values of the machine, with what loop bounds, indices, ports and conditions read of them.
The default is `T{}`. -/
class ScalarValue (V : Type) extends Inhabited V where
  toInt : V → ℤ
  ofInt : ℤ → V
  toBool : V → Bool

export ScalarValue (toInt ofInt toBool)

/-- An SSA value, by number. -/
abbrev Ssa := ℕ

/-! ### Syntax -/

/-- Operations without regions.  `compute` stands for pure operations, `operation` for those
with an effect outside the state arrays, suspensions among them. -/
inductive Instruction (V O : Type) where
  | constant (value : V) (result : Ssa)
  | compute (name : O) (operands results : List Ssa)
  | operation (name : O) (operands results : List Ssa)
  | stateRead (array : String) (index port : Ssa) (element : String) (result : Ssa)
  | stateWrite (array : String) (index value enable port : Ssa)
deriving DecidableEq

/-- A block with its terminator.  The terminator of the first region of an `scf.while` has the
condition as its first operand. -/
inductive Region (V O : Type) where
  | yield (operands : List Ssa)
  | instruction (i : Instruction V O) (rest : Region V O)
  | ifOp (condition : Ssa) (thenRegion elseRegion : Region V O) (results : List Ssa)
      (rest : Region V O)
  | forOp (lower upper step : Ssa) (inits : List Ssa) (induction : Ssa) (arguments : List Ssa)
      (body : Region V O) (results : List Ssa) (rest : Region V O)
  | whileOp (inits beforeArguments : List Ssa) (before : Region V O) (afterArguments : List Ssa)
      (after : Region V O) (results : List Ssa) (rest : Region V O)
  | instrumentation (body rest : Region V O)
deriving DecidableEq

variable {V O : Type}

namespace Instruction

def operands : Instruction V O → List Ssa
  | constant _ _ => []
  | compute _ operands _ | operation _ operands _ => operands
  | stateRead _ index port _ _ => [index, port]
  | stateWrite _ index value enable port => [index, value, enable, port]

def results : Instruction V O → List Ssa
  | constant _ result | stateRead _ _ _ _ result => [result]
  | compute _ _ results | operation _ _ results => results
  | stateWrite _ _ _ _ _ => []

/-- Replacement of the operands. -/
def rename (f : Ssa → Ssa) : Instruction V O → Instruction V O
  | constant value result => constant value result
  | compute name operands results => compute name (operands.map f) results
  | operation name operands results => operation name (operands.map f) results
  | stateRead array index port element result =>
    stateRead array (f index) (f port) element result
  | stateWrite array index value enable port =>
    stateWrite array (f index) (f value) (f enable) (f port)

variable [ProcessOperation O]

instance : ProcessOperation (Instruction V O) where
  isSuspension
    | operation name _ _ => isSuspension name
    | _ => false
  isYieldSim
    | operation name _ _ => isYieldSim name
    | _ => false
  isSuspension_of_isYieldSim i h := by
    cases i with
    | operation name _ _ => exact isSuspension_of_isYieldSim name h
    | _ => cases h

end Instruction

/-! ### Well-formed bodies -/

/-- Results of an operation are new and pairwise different. -/
def fresh (scope results : List Ssa) : Bool :=
  decide results.Nodup && results.all fun x => !scope.contains x

/-- Every operand is defined before its use, once. -/
def dominated (scope : List Ssa) : Region V O → Bool
  | .yield operands => operands.all scope.contains
  | .instruction i rest =>
    i.operands.all scope.contains && fresh scope i.results && dominated (i.results ++ scope) rest
  | .ifOp condition thenRegion elseRegion results rest =>
    scope.contains condition && dominated scope thenRegion && dominated scope elseRegion &&
      fresh scope results && dominated (results ++ scope) rest
  | .forOp lower upper step inits induction arguments body results rest =>
    (lower :: upper :: step :: inits).all scope.contains &&
      fresh scope (induction :: arguments) &&
      dominated (induction :: arguments ++ scope) body &&
      fresh scope results && dominated (results ++ scope) rest
  | .whileOp inits beforeArguments before afterArguments after results rest =>
    inits.all scope.contains &&
      fresh scope beforeArguments && dominated (beforeArguments ++ scope) before &&
      fresh scope afterArguments && dominated (afterArguments ++ scope) after &&
      fresh scope results && dominated (results ++ scope) rest
  | .instrumentation body rest => dominated scope body && dominated scope rest

/-- The constants known after an operation. -/
def Instruction.constants (known : List (Ssa × V)) : Instruction V O → List (Ssa × V)
  | constant value result => (result, value) :: known
  | _ => known

/-- The terminator of a block and the constants known there. -/
def terminator (known : List (Ssa × V)) : Region V O → List (Ssa × V) × List Ssa
  | .yield operands => (known, operands)
  | .instruction i rest => terminator (i.constants known) rest
  | .ifOp _ _ _ _ rest | .forOp _ _ _ _ _ _ _ _ rest | .whileOp _ _ _ _ _ _ rest
  | .instrumentation _ rest => terminator known rest

section Skeleton

variable [ScalarValue V]

def conditionOf (known : List (Ssa × V)) (condition : Ssa) : Condition :=
  match known.lookup condition with
  | some value => .constant (toBool value)
  | none => .argument

def boundOf (known : List (Ssa × V)) (bound : Ssa) : Bound :=
  match known.lookup bound with
  | some value => .constant (toInt value)
  | none => .dynamic

/-- The body without its values. -/
def skeleton (known : List (Ssa × V)) : Region V O → Block (Instruction V O)
  | .yield _ => .done
  | .instruction i rest => .op i (skeleton (i.constants known) rest)
  | .ifOp condition thenRegion elseRegion _ rest =>
    .ifOp (conditionOf known condition) (skeleton known thenRegion) true
      (skeleton known elseRegion) (skeleton known rest)
  | .forOp lower upper step _ _ _ body _ rest =>
    .forOp (boundOf known lower) (boundOf known upper) (boundOf known step)
      (skeleton known body) (skeleton known rest)
  | .whileOp _ _ before _ after _ rest =>
    let atEnd := terminator known before
    .whileOp (conditionOf atEnd.1 (atEnd.2.headD 0)) (skeleton known before)
      (skeleton known after) (skeleton known rest)
  | .instrumentation body rest => .instrumentation (skeleton known body) (skeleton known rest)

/-- The checks of `ProcessOp::verify` that bear on values and control flow; the others (types of
elements, ranges of ports, names, kinds) only refuse more. -/
def verifyBody [ProcessOperation O] (captures : List Ssa) (body : Region V O) : Bool :=
  dominated captures body && verifyProcess (skeleton [] body)

end Skeleton

/-! ### Canonicalisation -/

/-- Whether an operation of the block, or of a region nested in it, suspends. -/
def maySuspend [ProcessOperation O] : Region V O → Bool
  | .yield _ => false
  | .instruction i rest => isSuspension i || maySuspend rest
  | .ifOp _ thenRegion elseRegion _ rest =>
    maySuspend thenRegion || maySuspend elseRegion || maySuspend rest
  | .forOp _ _ _ _ _ _ body _ rest | .instrumentation body rest =>
    maySuspend body || maySuspend rest
  | .whileOp _ _ before _ after _ rest => maySuspend before || maySuspend after || maySuspend rest

/-- An operation that precedes another in its block. -/
inductive Previous where
  | stateRead (array : String) (index port : Ssa) (element : String) (result : Ssa)
  | other (suspends : Bool)
deriving DecidableEq

def Instruction.previous [ProcessOperation O] : Instruction V O → Previous
  | stateRead array index port element result => .stateRead array index port element result
  | i => .other (isSuspension i)

/-- `ReuseCommittedStateRead`: the nearest preceding read with the same array, operands and
type.  The pattern takes its result; whether an operation on the way may suspend is not asked
there. -/
def reuseCommittedStateRead (array : String) (index port : Ssa) (element : String) :
    List Previous → Option (Ssa × Bool)
  | [] => none
  | .stateRead array' index' port' element' result :: previous =>
    if array' = array ∧ index' = index ∧ port' = port ∧ element' = element then
      some (result, false)
    else reuseCommittedStateRead array index port element previous
  | .other suspends :: previous =>
    (reuseCommittedStateRead array index port element previous).map fun found =>
      (found.1, suspends || found.2)

/-- `EraseDisabledStateWrite`: the write is enabled by a constant `false`. -/
def eraseDisabledStateWrite [ScalarValue V] (known : List (Ssa × V)) (enable : Ssa) : Bool :=
  (known.lookup enable).any fun value => !toBool value

/-- Replacement of the operands of a region. -/
def Region.rename (f : Ssa → Ssa) : Region V O → Region V O
  | .yield operands => .yield (operands.map f)
  | .instruction i rest => .instruction (i.rename f) (rest.rename f)
  | .ifOp condition thenRegion elseRegion results rest =>
    .ifOp (f condition) (thenRegion.rename f) (elseRegion.rename f) results (rest.rename f)
  | .forOp lower upper step inits induction arguments body results rest =>
    .forOp (f lower) (f upper) (f step) (inits.map f) induction arguments (body.rename f)
      results (rest.rename f)
  | .whileOp inits beforeArguments before afterArguments after results rest =>
    .whileOp (inits.map f) beforeArguments (before.rename f) afterArguments (after.rename f)
      results (rest.rename f)
  | .instrumentation body rest => .instrumentation (body.rename f) (rest.rename f)

/-- `replaceAllUsesWith`; the uses of a result lie in the rest of its block. -/
def Region.replaceUses (result replacement : Ssa) (rest : Region V O) : Region V O :=
  rest.rename (update id result replacement)

/-- One application of a pattern.  `known` are the constants defined before, `previous` the
operations that precede the place in its block. -/
inductive Rewrites [ScalarValue V] [ProcessOperation O] (crossing : Bool) :
    List (Ssa × V) → List Previous → Region V O → Region V O → Prop
  | reuse {known previous array index port element result replacement rest} :
      reuseCommittedStateRead array index port element previous = some (replacement, crossing) →
      Rewrites crossing known previous
        (.instruction (.stateRead array index port element result) rest)
        (rest.replaceUses result replacement)
  | erase {known previous array index value enable port rest} :
      eraseDisabledStateWrite known enable = true →
      Rewrites crossing known previous
        (.instruction (.stateWrite array index value enable port) rest) rest
  | instruction {known previous i rest rest'} :
      Rewrites crossing (i.constants known) (i.previous :: previous) rest rest' →
      Rewrites crossing known previous (.instruction i rest) (.instruction i rest')
  | ifThen {known previous condition thenRegion thenRegion' elseRegion results rest} :
      Rewrites crossing known [] thenRegion thenRegion' →
      Rewrites crossing known previous (.ifOp condition thenRegion elseRegion results rest)
        (.ifOp condition thenRegion' elseRegion results rest)
  | ifElse {known previous condition thenRegion elseRegion elseRegion' results rest} :
      Rewrites crossing known [] elseRegion elseRegion' →
      Rewrites crossing known previous (.ifOp condition thenRegion elseRegion results rest)
        (.ifOp condition thenRegion elseRegion' results rest)
  | ifRest {known previous condition thenRegion elseRegion results rest rest'} :
      Rewrites crossing known
        (.other (maySuspend thenRegion || maySuspend elseRegion) :: previous) rest rest' →
      Rewrites crossing known previous (.ifOp condition thenRegion elseRegion results rest)
        (.ifOp condition thenRegion elseRegion results rest')
  | forBody {known previous lower upper step inits induction arguments body body' results rest} :
      Rewrites crossing known [] body body' →
      Rewrites crossing known previous
        (.forOp lower upper step inits induction arguments body results rest)
        (.forOp lower upper step inits induction arguments body' results rest)
  | forRest {known previous lower upper step inits induction arguments body results rest rest'} :
      Rewrites crossing known (.other (maySuspend body) :: previous) rest rest' →
      Rewrites crossing known previous
        (.forOp lower upper step inits induction arguments body results rest)
        (.forOp lower upper step inits induction arguments body results rest')
  | whileBefore {known previous inits beforeArguments before before' afterArguments after
        results rest} :
      Rewrites crossing known [] before before' →
      Rewrites crossing known previous
        (.whileOp inits beforeArguments before afterArguments after results rest)
        (.whileOp inits beforeArguments before' afterArguments after results rest)
  | whileAfter {known previous inits beforeArguments before afterArguments after after'
        results rest} :
      Rewrites crossing known [] after after' →
      Rewrites crossing known previous
        (.whileOp inits beforeArguments before afterArguments after results rest)
        (.whileOp inits beforeArguments before afterArguments after' results rest)
  | whileRest {known previous inits beforeArguments before afterArguments after results rest
        rest'} :
      Rewrites crossing known (.other (maySuspend before || maySuspend after) :: previous)
        rest rest' →
      Rewrites crossing known previous
        (.whileOp inits beforeArguments before afterArguments after results rest)
        (.whileOp inits beforeArguments before afterArguments after results rest')
  | instrumentationBody {known previous body body' rest} :
      Rewrites crossing known [] body body' →
      Rewrites crossing known previous (.instrumentation body rest) (.instrumentation body' rest)
  | instrumentationRest {known previous body rest rest'} :
      Rewrites crossing known (.other (maySuspend body) :: previous) rest rest' →
      Rewrites crossing known previous (.instrumentation body rest) (.instrumentation body rest')

/-! ### Execution -/

/-- The state arrays by name, and their system. -/
structure World (V : Type) where
  registration : Registration
  array : String → StateMemory V

/-- What the rest of the system does to the arrays while the process is suspended. -/
inductive WorldAction (V : Type) where
  | read (array : String) (index port : ℤ)
  | proposeWrite (array : String) (index : ℤ) (value : V) (enable : Bool) (port : ℤ)
  | doXfer
  | setRegistration (registration : Registration)

namespace World

variable [ScalarValue V]

def read (array : String) (index port : ℤ) (w : World V) : V × World V :=
  let found := (w.array array).read w.registration index port
  (found.1, { w with array := update w.array array found.2 })

def proposeWrite (array : String) (index : ℤ) (value : V) (enable : Bool) (port : ℤ)
    (w : World V) : World V :=
  { w with
    array := update w.array array
      ((w.array array).proposeWrite w.registration index value enable port) }

def apply (w : World V) : WorldAction V → World V
  | .read array index port => (w.read array index port).2
  | .proposeWrite array index value enable port => w.proposeWrite array index value enable port
  | .doXfer => { w with array := fun name => (w.array name).doXfer }
  | .setRegistration registration => { w with registration := registration }

/-- No array puts one failure code in the place of another. -/
def Steady (w w' : World V) : Prop := ∀ name, (w.array name).Steady (w'.array name)

end World

abbrev Values (V : Type) := Ssa → V

/-- The values after the results of an operation are bound. -/
def bind [Inhabited V] : List Ssa → List V → Values V → Values V
  | [], _, env => env
  | result :: results, values, env =>
    bind results values.tail (update env result values.headI)

/-- What waits for the block above it: an operation with regions for the values of its
terminator, and the process for its end. -/
inductive Pending (V O : Type) where
  | join (env : Values V) (results : List Ssa) (rest : Region V O)
  | forLoop (env : Values V) (next upper step : ℤ) (induction : Ssa) (arguments : List Ssa)
      (body : Region V O) (results : List Ssa) (rest : Region V O)
  | whileTest (env : Values V) (beforeArguments : List Ssa) (before : Region V O)
      (afterArguments : List Ssa) (after : Region V O) (results : List Ssa) (rest : Region V O)
  | whileBack (env : Values V) (beforeArguments : List Ssa) (before : Region V O)
      (afterArguments : List Ssa) (after : Region V O) (results : List Ssa) (rest : Region V O)
  | process (env : Values V) (body : Region V O)

/-- The block being executed, what waits for it, and the arrays. -/
structure Machine (V O : Type) where
  env : Values V
  region : Region V O
  stack : List (Pending V O)
  world : World V

/-- The next thing a machine does. -/
inductive Outcome (V O : Type) where
  | internal (next : Machine V O)
  | operation (name : O) (operands : List V) (resume : List V → Machine V O)
  | suspend (name : O) (operands : List V) (resume : List (WorldAction V) → Machine V O)
  | stuck

/-- An iteration of `scf.for`, or its end. -/
def enterFor [ScalarValue V] (env : Values V) (next upper step : ℤ) (induction : Ssa)
    (arguments : List Ssa) (body : Region V O) (results : List Ssa) (rest : Region V O)
    (values : List V) (stack : List (Pending V O)) (world : World V) : Machine V O :=
  if next < upper then
    ⟨bind (induction :: arguments) (ofInt next :: values) env, body,
      .forLoop env (next + step) upper step induction arguments body results rest :: stack, world⟩
  else ⟨bind results values env, rest, stack, world⟩

/-- A block has ended with the given values. -/
def deliver [ScalarValue V] (values : List V) (world : World V) :
    List (Pending V O) → Outcome V O
  | [] => .stuck
  | .join env results rest :: stack => .internal ⟨bind results values env, rest, stack, world⟩
  | .forLoop env next upper step induction arguments body results rest :: stack =>
    .internal
      (enterFor env next upper step induction arguments body results rest values stack world)
  | .whileTest env beforeArguments before afterArguments after results rest :: stack =>
    if toBool values.headI then
      .internal ⟨bind afterArguments values.tail env, after,
        .whileBack env beforeArguments before afterArguments after results rest :: stack, world⟩
    else .internal ⟨bind results values.tail env, rest, stack, world⟩
  | .whileBack env beforeArguments before afterArguments after results rest :: stack =>
    .internal ⟨bind beforeArguments values env, before,
      .whileTest env beforeArguments before afterArguments after results rest :: stack, world⟩
  | .process env body :: stack => .internal ⟨env, body, .process env body :: stack, world⟩

section Step

variable [ScalarValue V] [ProcessOperation O] (eval : O → List V → List V)

/-- An operation without regions, before the given rest of its block. -/
def execute (i : Instruction V O) (rest : Region V O) (env : Values V)
    (stack : List (Pending V O)) (world : World V) : Outcome V O :=
  match i with
  | .constant value result => .internal ⟨update env result value, rest, stack, world⟩
  | .compute name operands results =>
    .internal ⟨bind results (eval name (operands.map env)) env, rest, stack, world⟩
  | .operation name operands results =>
    if isSuspension name then
      .suspend name (operands.map env) fun actions =>
        ⟨bind results [] env, rest, stack, actions.foldl World.apply world⟩
    else .operation name (operands.map env) fun answers =>
      ⟨bind results answers env, rest, stack, world⟩
  | .stateRead array index port _ result =>
    let found := world.read array (toInt (env index)) (toInt (env port))
    .internal ⟨update env result found.1, rest, stack, found.2⟩
  | .stateWrite array index value enable port =>
    .internal ⟨env, rest, stack,
      world.proposeWrite array (toInt (env index)) (env value) (toBool (env enable))
        (toInt (env port))⟩

def step (m : Machine V O) : Outcome V O :=
  match m.region with
  | .yield operands => deliver (operands.map m.env) m.world m.stack
  | .instruction i rest => execute eval i rest m.env m.stack m.world
  | .ifOp condition thenRegion elseRegion results rest =>
    .internal ⟨m.env, if toBool (m.env condition) then thenRegion else elseRegion,
      .join m.env results rest :: m.stack, m.world⟩
  | .forOp lower upper step inits induction arguments body results rest =>
    .internal (enterFor m.env (toInt (m.env lower)) (toInt (m.env upper)) (toInt (m.env step))
      induction arguments body results rest (inits.map m.env) m.stack m.world)
  | .whileOp inits beforeArguments before afterArguments after results rest =>
    .internal ⟨bind beforeArguments (inits.map m.env) m.env, before,
      .whileTest m.env beforeArguments before afterArguments after results rest :: m.stack,
      m.world⟩
  | .instrumentation body rest =>
    .internal ⟨m.env, body, .join m.env [] rest :: m.stack, m.world⟩

/-- What an execution shows: operations with their operands and answers, and suspensions with
the arrays as the process leaves them and what the rest of the system does to them. -/
inductive Event (V O : Type) where
  | operation (name : O) (operands answers : List V)
  | suspend (name : O) (operands : List V) (left : World V) (actions : List (WorldAction V))

/-- Executions, with what the process itself may do to the arrays restricted by `allowed`. -/
inductive Run (allowed : World V → World V → Prop) :
    Machine V O → List (Event V O) → Machine V O → Prop
  | refl (m) : Run allowed m [] m
  | internal {m next trace last} : step eval m = .internal next → allowed m.world next.world →
      Run allowed next trace last → Run allowed m trace last
  | operation {m name operands resume trace last} (answers) :
      step eval m = .operation name operands resume → Run allowed (resume answers) trace last →
      Run allowed m (.operation name operands answers :: trace) last
  | suspend {m name operands resume trace last} (actions) :
      step eval m = .suspend name operands resume → Run allowed (resume actions) trace last →
      Run allowed m (.suspend name operands m.world actions :: trace) last

/-- The process at its start, with the values of its captures. -/
def start (env : Values V) (body : Region V O) (world : World V) : Machine V O :=
  ⟨env, body, [.process env body], world⟩

/-- Two bodies show the same events and leave the same arrays. -/
def SameExecutions (allowed : World V → World V → Prop) (body body' : Region V O) : Prop :=
  ∀ (env : Values V) (world : World V) (trace : List (Event V O)) (left : World V),
    (∃ last, Run eval allowed (start env body world) trace last ∧ last.world = left) ↔
      ∃ last, Run eval allowed (start env body' world) trace last ∧ last.world = left

variable {eval} {allowed : World V → World V → Prop} {m next last : Machine V O} {name : O}
  {operands : List V} {event : Event V O} {trace : List (Event V O)}

theorem Run.of_internal (hs : step eval m = .internal next)
    (h : Run eval allowed m (event :: trace) last) :
    Run eval allowed next (event :: trace) last := by
  cases h with
  | internal hs' _ h =>
    rw [hs] at hs'
    cases hs'
    exact h
  | operation _ hs' _ | suspend _ hs' _ =>
    rw [hs] at hs'
    cases hs'

theorem Run.of_operation {resume : List V → Machine V O}
    (hs : step eval m = .operation name operands resume)
    (h : Run eval allowed m (event :: trace) last) :
    ∃ answers, event = .operation name operands answers ∧
      Run eval allowed (resume answers) trace last := by
  cases h with
  | operation answers hs' h =>
    rw [hs] at hs'
    cases hs'
    exact ⟨answers, rfl, h⟩
  | internal hs' _ _ | suspend _ hs' _ =>
    rw [hs] at hs'
    cases hs'

theorem Run.of_suspend {resume : List (WorldAction V) → Machine V O}
    (hs : step eval m = .suspend name operands resume)
    (h : Run eval allowed m (event :: trace) last) :
    ∃ actions, event = .suspend name operands m.world actions ∧
      Run eval allowed (resume actions) trace last := by
  cases h with
  | suspend actions hs' h =>
    rw [hs] at hs'
    cases hs'
    exact ⟨actions, rfl, h⟩
  | internal hs' _ _ | operation _ hs' _ =>
    rw [hs] at hs'
    cases hs'

end Step

end AgenticCircuit.Dialect
