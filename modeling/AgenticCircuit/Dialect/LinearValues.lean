import AgenticCircuit.Dialect.Structured

/-! # Linear values and suspensions

The check of `ac.process` that no value of a linear type stays live across a suspension, over the
bodies of `Structured.lean` with their SSA values.

* **Epochs.** `buildEpochs` numbers the operations in one pass: an operation that may suspend ends
  an epoch, and a nested region begins in the epoch of its operation.  `definitions` and `uses` are
  the values of the reachable blocks with these numbers.
* **`verifyLinearLiveness`** refuses a use in a later epoch than the definition.
* **Execution.** A configuration remembers for every value how many suspensions had been executed
  when it was produced (`stamp`); forwarding keeps the stamp.  When it is the present count, there
  was no suspension since.  When the body has ended with its `ac.yield_sim`, it begins anew with the
  captures of the process. -/

namespace AgenticCircuit.Dialect

/-- The types of values, as far as `isLinearAcrossSuspension` tells them apart. -/
inductive ValueType where
  | flow (payload : String)
  | resourceToken (resource : String)
  | other (name : String)
deriving DecidableEq

def isLinearAcrossSuspension : ValueType → Bool
  | .flow _ | .resourceToken _ => true
  | .other _ => false

/-- A single-block region over the values `ν`; `done` is its terminator.  The operands of an
`scf.for` are its bounds and the initial values, those of an `scf.condition` the condition and
the forwarded values. -/
inductive ProcessRegion (ν : Type) where
  | done (operands : List ν)
  | op (operation : Operation) (operands results : List ν) (rest : ProcessRegion ν)
  | ifOp (condition : Condition) (operand : ν) (thenRegion : ProcessRegion ν) (hasElse : Bool)
      (elseRegion : ProcessRegion ν) (results : List ν) (rest : ProcessRegion ν)
  | forOp (lower upper step : Bound) (operands arguments : List ν) (body : ProcessRegion ν)
      (results : List ν) (rest : ProcessRegion ν)
  | whileOp (condition : Condition) (operands beforeArguments : List ν)
      (before : ProcessRegion ν) (afterArguments : List ν) (after : ProcessRegion ν)
      (results : List ν) (rest : ProcessRegion ν)
  | instrumentation (body rest : ProcessRegion ν)
deriving DecidableEq

namespace ProcessRegion

variable {ν : Type}

/-- The region without its values. -/
def block : ProcessRegion ν → Block Operation
  | done _ => .done
  | op operation _ _ rest => .op operation rest.block
  | ifOp condition _ thenRegion hasElse elseRegion _ rest =>
    .ifOp condition thenRegion.block hasElse elseRegion.block rest.block
  | forOp lower upper step _ _ body _ rest => .forOp lower upper step body.block rest.block
  | whileOp condition _ _ before _ after _ rest =>
    .whileOp condition before.block after.block rest.block
  | instrumentation body rest => .instrumentation body.block rest.block

/-! ### The analysis -/

/-- The regions of an `scf.if` that are visited: the taken one of a constant condition. -/
def thenReachable (condition : Condition) : Bool := constantBool condition != some false

def elseReachable (condition : Condition) : Bool := constantBool condition != some true

/-- `regionMaySuspend`. -/
def maySuspend : ProcessRegion ν → Bool
  | done _ => false
  | op operation _ _ rest => isSuspension operation || rest.maySuspend
  | ifOp condition _ thenRegion _ elseRegion _ rest =>
    (thenReachable condition && thenRegion.maySuspend ||
      elseReachable condition && elseRegion.maySuspend) || rest.maySuspend
  | forOp _ _ _ _ _ body _ rest => body.maySuspend || rest.maySuspend
  | whileOp _ _ _ before _ after _ rest =>
    (before.maySuspend || after.maySuspend) || rest.maySuspend
  | instrumentation body rest => body.maySuspend || rest.maySuspend

/-- The epoch after an operation. -/
def nextEpoch (epoch : ℕ) (mayOp : Bool) : ℕ := epoch + if mayOp then 1 else 0

/-- The values defined in reachable blocks, with the epochs of their definitions. -/
def definitions (epoch : ℕ) : ProcessRegion ν → List (ν × ℕ)
  | done _ => []
  | op operation _ results rest =>
    let next := nextEpoch epoch (isSuspension operation)
    results.map (·, next) ++ rest.definitions next
  | ifOp condition _ thenRegion _ elseRegion results rest =>
    let next := nextEpoch epoch (thenReachable condition && thenRegion.maySuspend ||
      elseReachable condition && elseRegion.maySuspend)
    (if thenReachable condition then thenRegion.definitions epoch else []) ++
      (if elseReachable condition then elseRegion.definitions epoch else []) ++
      results.map (·, next) ++ rest.definitions next
  | forOp _ _ _ _ arguments body results rest =>
    let next := nextEpoch epoch body.maySuspend
    arguments.map (·, epoch) ++ body.definitions epoch ++ results.map (·, next) ++
      rest.definitions next
  | whileOp _ _ beforeArguments before afterArguments after results rest =>
    let next := nextEpoch epoch (before.maySuspend || after.maySuspend)
    beforeArguments.map (·, epoch) ++ before.definitions epoch ++
      afterArguments.map (·, epoch) ++ after.definitions epoch ++ results.map (·, next) ++
      rest.definitions next
  | instrumentation body rest =>
    body.definitions epoch ++ rest.definitions (nextEpoch epoch body.maySuspend)

/-- The uses of values in reachable blocks, with the epochs of the operations. -/
def uses (epoch : ℕ) : ProcessRegion ν → List (ν × ℕ)
  | done operands => operands.map (·, epoch)
  | op operation operands _ rest =>
    operands.map (·, epoch) ++ rest.uses (nextEpoch epoch (isSuspension operation))
  | ifOp condition operand thenRegion _ elseRegion _ rest =>
    let next := nextEpoch epoch (thenReachable condition && thenRegion.maySuspend ||
      elseReachable condition && elseRegion.maySuspend)
    (operand, epoch) :: (if thenReachable condition then thenRegion.uses epoch else []) ++
      (if elseReachable condition then elseRegion.uses epoch else []) ++ rest.uses next
  | forOp _ _ _ operands _ body _ rest =>
    operands.map (·, epoch) ++ body.uses epoch ++ rest.uses (nextEpoch epoch body.maySuspend)
  | whileOp _ operands _ before _ after _ rest =>
    operands.map (·, epoch) ++ before.uses epoch ++ after.uses epoch ++
      rest.uses (nextEpoch epoch (before.maySuspend || after.maySuspend))
  | instrumentation body rest =>
    body.uses epoch ++ rest.uses (nextEpoch epoch body.maySuspend)

section checks

variable (typeOf : ν → ValueType)

/-- The values forwarded by the terminator of a region. -/
def terminator : ProcessRegion ν → List ν
  | done operands => operands
  | op _ _ _ rest | ifOp _ _ _ _ _ _ rest | forOp _ _ _ _ _ _ _ rest
  | whileOp _ _ _ _ _ _ _ rest | instrumentation _ rest => rest.terminator

def sameTypes (left right : List ν) : Bool := left.map typeOf == right.map typeOf

/-- What a region forwards has the types of the values that receive it: the typing rules of the
`scf` operations. -/
def wellTyped : ProcessRegion ν → Bool
  | done _ => true
  | op _ _ _ rest => rest.wellTyped
  | ifOp _ _ thenRegion _ elseRegion results rest =>
    sameTypes typeOf thenRegion.terminator results &&
      sameTypes typeOf elseRegion.terminator results &&
      thenRegion.wellTyped && elseRegion.wellTyped && rest.wellTyped
  | forOp _ _ _ operands arguments body results rest =>
    sameTypes typeOf (operands.drop 3) results && sameTypes typeOf (arguments.drop 1) results &&
      sameTypes typeOf body.terminator results && body.wellTyped && rest.wellTyped
  | whileOp _ operands beforeArguments before afterArguments after results rest =>
    sameTypes typeOf operands beforeArguments &&
      sameTypes typeOf (before.terminator.drop 1) results &&
      sameTypes typeOf afterArguments results &&
      sameTypes typeOf after.terminator beforeArguments &&
      before.wellTyped && after.wellTyped && rest.wellTyped
  | instrumentation body rest => body.terminator.isEmpty && body.wellTyped && rest.wellTyped

variable [DecidableEq ν]

/-- The operands with the given property, in reachable blocks, are defined before, in the same
region or around it; `visible` are the values from outside. -/
def usesWithin (property : ν → Bool) (visible : List ν) : ProcessRegion ν → Bool
  | done operands => operands.all fun x => !property x || decide (x ∈ visible)
  | op _ operands results rest =>
    operands.all (fun x => !property x || decide (x ∈ visible)) &&
      rest.usesWithin property (results ++ visible)
  | ifOp condition operand thenRegion _ elseRegion results rest =>
    (!property operand || decide (operand ∈ visible)) &&
      (!thenReachable condition || thenRegion.usesWithin property visible) &&
      (!elseReachable condition || elseRegion.usesWithin property visible) &&
      rest.usesWithin property (results ++ visible)
  | forOp _ _ _ operands arguments body results rest =>
    operands.all (fun x => !property x || decide (x ∈ visible)) &&
      body.usesWithin property (arguments ++ visible) &&
      rest.usesWithin property (results ++ visible)
  | whileOp _ operands beforeArguments before afterArguments after results rest =>
    operands.all (fun x => !property x || decide (x ∈ visible)) &&
      before.usesWithin property (beforeArguments ++ visible) &&
      after.usesWithin property (afterArguments ++ visible) &&
      rest.usesWithin property (results ++ visible)
  | instrumentation body rest =>
    body.usesWithin property visible && rest.usesWithin property visible

end checks

end ProcessRegion

/-- A process body over typed values, as the verifiers of the dialects it is written in leave
it: operands are defined before they are used, and forwarded values have the types of the
values that receive them. -/
structure Process (ν : Type) [DecidableEq ν] where
  typeOf : ν → ValueType
  captures : List ν
  body : ProcessRegion ν
  wellTyped : body.wellTyped typeOf = true
  visible : body.usesWithin (fun _ => true) captures = true

namespace Process

variable {ν : Type} [DecidableEq ν] (p : Process ν)

def linear (x : ν) : Bool := isLinearAcrossSuspension (p.typeOf x)

/-- Every use of a linear value in a reachable block has at most the epoch of the definition. -/
def verifyLinearLiveness : Bool :=
  (p.captures.map (·, 0) ++ p.body.definitions 0).all fun definition =>
    !p.linear definition.1 || (p.body.uses 0).all fun operand =>
      operand.1 != definition.1 || decide (operand.2 ≤ definition.2)

/-- The checks of `ProcessOp::verify` on control flow and linear values. -/
def accepted : Bool := verifyProcess p.body.block && p.verifyLinearLiveness

end Process

/-! ### Execution -/

section Machine

variable {ν : Type}

/-- The number of iterations of an `scf.for` with constant bounds; with other bounds any
number is possible. -/
def Bound.AdmitsTrips (lower upper step : Bound) (trips : ℕ) : Prop :=
  match lower, upper, step with
  | .constant lower, .constant upper, .constant step =>
    trips = ((upper - lower + step - 1) / step).toNat
  | _, _, _ => True

/-- An `scf.while` with what follows it. -/
structure WhileLoop (ν : Type) where
  condition : Condition
  beforeArguments : List ν
  before : ProcessRegion ν
  afterArguments : List ν
  after : ProcessRegion ν
  results : List ν
  rest : ProcessRegion ν

/-- What is left to do when the running region ends.  A loop remembers how many suspensions had
been executed when it was entered. -/
inductive RegionFrame (ν : Type) where
  | rest (results : List ν) (rest : ProcessRegion ν)
  | forBody (entered remaining : ℕ) (arguments : List ν) (body : ProcessRegion ν)
      (results : List ν) (rest : ProcessRegion ν)
  | whileBefore (entered : ℕ) (loop : WhileLoop ν)
  | whileAfter (entered : ℕ) (loop : WhileLoop ν)

/-- The running region, the frames around it, the number of suspensions executed so far
(`clock`), and for every value that number at its production (`stamp`). -/
structure RegionConfig (ν : Type) where
  region : ProcessRegion ν
  frames : List (RegionFrame ν)
  stamp : ν → ℕ
  clock : ℕ

/-- The operands of the next operation. -/
def ProcessRegion.operands : ProcessRegion ν → List ν
  | .done operands | .op _ operands _ _ | .forOp _ _ _ operands _ _ _ _
  | .whileOp _ operands _ _ _ _ _ _ => operands
  | .ifOp _ operand _ _ _ _ _ => [operand]
  | .instrumentation _ _ => []

/-- What a step shows: the branch of an `scf.if` that is taken, another pass over a region of a
loop that was entered at the given count of suspensions, or another pass over the body. -/
inductive RegionLabel (ν : Type) where
  | silent
  | branch (condition : Condition) (outcome : Bool)
  | pass (entered : ℕ) (arguments : List ν) (region : ProcessRegion ν)
  | restart (body : ProcessRegion ν)

variable [DecidableEq ν]

/-- The stamps after the values `produced` were produced. -/
def produce (stamp : ν → ℕ) (produced : List ν) (clock : ℕ) (x : ν) : ℕ :=
  if x ∈ produced then clock else stamp x

/-- The stamps after `targets` received the values `sources`. -/
def forward (stamp : ν → ℕ) (targets sources : List ν) (x : ν) : ℕ :=
  match (targets.zip sources).lookup x with
  | some source => stamp source
  | none => stamp x

/-- One step. -/
inductive RegionStep : RegionConfig ν → RegionLabel ν → RegionConfig ν → Prop
  | execute (operation operands results rest frames stamp clock) :
      RegionStep ⟨.op operation operands results rest, frames, stamp, clock⟩ .silent
        ⟨rest, frames,
          produce stamp results (ProcessRegion.nextEpoch clock (isSuspension operation)),
          ProcessRegion.nextEpoch clock (isSuspension operation)⟩
  | takeThen {condition} (operand thenRegion hasElse elseRegion results rest frames stamp clock) :
      condition.Allows true →
      RegionStep ⟨.ifOp condition operand thenRegion hasElse elseRegion results rest, frames,
          stamp, clock⟩ (.branch condition true)
        ⟨thenRegion, .rest results rest :: frames, stamp, clock⟩
  | takeElse {condition} (operand thenRegion hasElse elseRegion results rest frames stamp clock) :
      condition.Allows false →
      RegionStep ⟨.ifOp condition operand thenRegion hasElse elseRegion results rest, frames,
          stamp, clock⟩ (.branch condition false)
        ⟨elseRegion, .rest results rest :: frames, stamp, clock⟩
  | leave (operands results rest frames stamp clock) :
      RegionStep ⟨.done operands, .rest results rest :: frames, stamp, clock⟩ .silent
        ⟨rest, frames, forward stamp results operands, clock⟩
  | enterInstrumentation (body rest frames stamp clock) :
      RegionStep ⟨.instrumentation body rest, frames, stamp, clock⟩ .silent
        ⟨body, .rest [] rest :: frames, stamp, clock⟩
  | enterFor {lower upper step remaining}
      (operands arguments body results rest frames stamp clock) :
      Bound.AdmitsTrips lower upper step (remaining + 1) →
      RegionStep ⟨.forOp lower upper step operands arguments body results rest, frames, stamp,
          clock⟩ .silent
        ⟨body, .forBody clock remaining arguments body results rest :: frames,
          produce (forward stamp (arguments.drop 1) (operands.drop 3)) (arguments.take 1) clock,
          clock⟩
  | skipFor {lower upper step} (operands arguments body results rest frames stamp clock) :
      Bound.AdmitsTrips lower upper step 0 →
      RegionStep ⟨.forOp lower upper step operands arguments body results rest, frames, stamp,
          clock⟩ .silent
        ⟨rest, frames, forward stamp results (operands.drop 3), clock⟩
  | iterateFor (operands entered remaining arguments body results rest frames stamp clock) :
      RegionStep ⟨.done operands,
          .forBody entered (remaining + 1) arguments body results rest :: frames, stamp, clock⟩
        (.pass entered arguments body)
        ⟨body, .forBody entered remaining arguments body results rest :: frames,
          produce (forward stamp (arguments.drop 1) operands) (arguments.take 1) clock, clock⟩
  | leaveFor (operands entered arguments body results rest frames stamp clock) :
      RegionStep ⟨.done operands, .forBody entered 0 arguments body results rest :: frames, stamp,
          clock⟩ .silent
        ⟨rest, frames, forward stamp results operands, clock⟩
  | enterWhile (operands loop frames stamp clock) :
      RegionStep ⟨.whileOp loop.condition operands loop.beforeArguments loop.before
          loop.afterArguments loop.after loop.results loop.rest, frames, stamp, clock⟩ .silent
        ⟨loop.before, .whileBefore clock loop :: frames,
          forward stamp loop.beforeArguments operands, clock⟩
  | continueWhile (operands entered loop frames stamp clock) : loop.condition.Allows true →
      RegionStep ⟨.done operands, .whileBefore entered loop :: frames, stamp, clock⟩
        (.pass entered loop.afterArguments loop.after)
        ⟨loop.after, .whileAfter entered loop :: frames,
          forward stamp loop.afterArguments (operands.drop 1), clock⟩
  | leaveWhile (operands entered loop frames stamp clock) : loop.condition.Allows false →
      RegionStep ⟨.done operands, .whileBefore entered loop :: frames, stamp, clock⟩ .silent
        ⟨loop.rest, frames, forward stamp loop.results (operands.drop 1), clock⟩
  | back (operands entered loop frames stamp clock) :
      RegionStep ⟨.done operands, .whileAfter entered loop :: frames, stamp, clock⟩
        (.pass entered loop.beforeArguments loop.before)
        ⟨loop.before, .whileBefore entered loop :: frames,
          forward stamp loop.beforeArguments operands, clock⟩

/-- The process at the beginning of its body: the captures have just been received. -/
def Process.start (p : Process ν) : RegionConfig ν := ⟨p.body, [], fun _ => 0, 0⟩

/-- Configurations of a run of the process whose steps are all `allowed`. -/
inductive Process.Reaches (p : Process ν) (allowed : RegionConfig ν → RegionLabel ν → Prop) :
    RegionConfig ν → Prop
  | start : Process.Reaches p allowed p.start
  | step {c label c'} : Process.Reaches p allowed c → RegionStep c label c' → allowed c label →
      Process.Reaches p allowed c'
  | restart {operands stamp clock} : Process.Reaches p allowed ⟨.done operands, [], stamp, clock⟩ →
      allowed ⟨.done operands, [], stamp, clock⟩ (.restart p.body) →
      Process.Reaches p allowed ⟨p.body, [], stamp, clock⟩

end Machine

end AgenticCircuit.Dialect
