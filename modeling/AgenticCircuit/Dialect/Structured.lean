import Mathlib.Tactic.Linarith

/-! # Structured process bodies

The bodies of `ac.process`: straight-line operations, `scf.if`, `scf.for`, `scf.while` and
`ac.instrumentation`, each region a single block.  A `Block` is such a block written operation after
operation, over an arbitrary type `α` of operations without regions; `ProcessOperation` says which
of them suspend the process, and for which the port of a state array is the induction variable of a
loop.

* **Conditions and bounds** keep what the verifiers look at: the attribute `value` of the defining
  operation, and whether that operation is a constant.
* **Analyses.** `guaranteesSuspend` is the summary of `StructuredSuspensionAnalysis`,
  `lowerabilityGuarantees` the one of `verifyProcessLowerability`; `analyzeStaticFor` computes a
  trip count in the integers of the source.
* **Execution.** A configuration is a stack of frames.  A step executes one operation or takes one
  branch; conditions that are not constants may come out either way, and the bounds of a dynamic
  loop admit any number of iterations.  An activation of the process is a run of steps without a
  suspension. -/

namespace AgenticCircuit.Dialect

/-- Operations without regions, told apart by whether they suspend the process
(`ac.wait_until`, `ac.wait_for`, `ac.await_event`, `ac.await_queue` and `ac.yield_sim`). -/
class ProcessOperation (α : Type) where
  isSuspension : α → Bool
  isYieldSim : α → Bool
  isSuspension_of_isYieldSim : ∀ a, isYieldSim a = true → isSuspension a = true
  /-- The loops whose induction variable is a port of the operation, counted from the inside. -/
  portLoops : α → List ℕ := fun _ => []

export ProcessOperation (isSuspension isYieldSim isSuspension_of_isYieldSim portLoops)

/-- A value of type `i1` by its definition: a block argument, a constant operation, or another
operation, which may carry an attribute `value` of its own. -/
inductive Condition where
  | argument
  | constant (value : Bool)
  | computed (valueAttribute : Option Bool)
deriving DecidableEq

/-- `constantBool` of the process verifier reads the attribute `value` of whatever operation
defines the condition. -/
def constantBool : Condition → Option Bool
  | .argument => none
  | .constant value => some value
  | .computed valueAttribute => valueAttribute

/-- `constantBoolean` of the lowerability check matches constant operations only. -/
def constantBoolean : Condition → Option Bool
  | .constant value => some value
  | .argument | .computed _ => none

/-- The outcomes a condition may have at run time. -/
def Condition.Allows : Condition → Bool → Prop
  | .constant value, outcome => outcome = value
  | .argument, _ | .computed _, _ => True

/-- A loop bound: an integer constant, or a value known at run time only. -/
inductive Bound where
  | constant (value : ℤ)
  | dynamic
deriving DecidableEq

def isIntegerConstant : Bound → Bool
  | .constant _ => true
  | .dynamic => false

/-- An integer constant that fits 64 bits. -/
def constantInt : Bound → Option ℤ
  | .constant value => if -2 ^ 63 ≤ value ∧ value < 2 ^ 63 then some value else none
  | .dynamic => none

/-- Result of `analyzeStaticFor`. -/
structure StaticForTripCount where
  lowerBound : ℤ
  upperBound : ℤ
  step : ℤ
  tripCount : ℕ
deriving DecidableEq

def kMaxStaticForTrips : ℕ := 2 ^ 20

/-- The trip count of a loop with constant bounds, computed in `unsigned __int128` and stored
as a `uint64_t`. -/
def analyzeStaticFor (lower upper step : Bound) : Option StaticForTripCount :=
  match constantInt lower, constantInt upper, constantInt step with
  | some lower, some upper, some step =>
    if step ≤ 0 then none
    else
      let distance := if upper ≤ lower then 0 else (upper - lower).toNat % 2 ^ 128
      let trips := (distance + step.toNat - 1) % 2 ^ 128 / step.toNat
      if trips > kMaxStaticForTrips ∨ trips > 2 ^ 64 - 1 then none
      else some ⟨lower, upper, step, trips % 2 ^ 64⟩
  | _, _, _ => none

/-- Reduction of an integer to `int64_t`. -/
def toInt64 (value : ℤ) : ℤ := (value + 2 ^ 63) % 2 ^ 64 - 2 ^ 63

/-- The distance from the first to the last value of the induction variable, before it is
reduced to 64 bits. -/
def staticPortDistance (trip : StaticForTripCount) : ℤ :=
  toInt64 (trip.tripCount - 1 : ℕ) * trip.step

/-- The last value of the induction variable, as `staticPortRange` computes it. -/
def staticPortLast (trip : StaticForTripCount) : ℤ :=
  toInt64 (trip.lowerBound + toInt64 (staticPortDistance trip))

/-- Neither the product nor the sum of `staticPortRange` leaves 64 bits. -/
def StaticPortExact (trip : StaticForTripCount) : Prop :=
  toInt64 (staticPortDistance trip) = staticPortDistance trip ∧
    staticPortLast trip = trip.lowerBound + staticPortDistance trip

/-- A single-block region, operation after operation.  An `scf.if` without an else region has
`hasElse = false` and an empty one. -/
inductive Block (α : Type) where
  | done
  | op (operation : α) (rest : Block α)
  | ifOp (condition : Condition) (thenRegion : Block α) (hasElse : Bool) (elseRegion : Block α)
      (rest : Block α)
  | forOp (lower upper step : Bound) (body rest : Block α)
  | whileOp (condition : Condition) (before after rest : Block α)
  | instrumentation (body rest : Block α)
deriving DecidableEq

/-- Operations of a process body as the progress checks see them. -/
inductive Operation where
  | waitUntil
  | waitFor
  | awaitEvent
  | awaitQueue
  | yieldSim
  /-- `ac.state.read` or `ac.state.write` with a port. -/
  | stateAccess (portLoops : List ℕ)
  | other
deriving DecidableEq

instance : ProcessOperation Operation where
  isSuspension
    | .waitUntil | .waitFor | .awaitEvent | .awaitQueue | .yieldSim => true
    | .stateAccess _ | .other => false
  isYieldSim
    | .yieldSim => true
    | _ => false
  isSuspension_of_isYieldSim a h := by
    cases a with
    | yieldSim => rfl
    | _ => cases h
  portLoops
    | .stateAccess portLoops => portLoops
    | _ => []

variable {α : Type} [ProcessOperation α]

/-! ### The two suspension summaries -/

/-- `regionGuarantees` of `StructuredSuspensionAnalysis`: the disjunction over all operations
of the block. -/
def guaranteesSuspend : Block α → Bool
  | .done => false
  | .op operation rest => isSuspension operation || guaranteesSuspend rest
  | .ifOp condition thenRegion hasElse elseRegion rest =>
    (match constantBool condition with
      | some true => guaranteesSuspend thenRegion
      | some false => guaranteesSuspend elseRegion
      | none => hasElse && guaranteesSuspend thenRegion && guaranteesSuspend elseRegion)
    || guaranteesSuspend rest
  | .forOp _ _ _ _ rest | .whileOp _ _ _ rest | .instrumentation _ rest => guaranteesSuspend rest

/-- The loop of `verifyProcessLowerability` over a block: it stops at the first guarantee, and
an `scf.if` overwrites what was found so far. -/
def lowerabilityGuaranteesFrom (regionGuarantee : Bool) : Block α → Bool
  | .done => regionGuarantee
  | .op operation rest =>
    if isSuspension operation then true else lowerabilityGuaranteesFrom regionGuarantee rest
  | .ifOp condition thenRegion hasElse elseRegion rest =>
    let guarantee := match constantBoolean condition with
      | some true => lowerabilityGuaranteesFrom false thenRegion
      | some false => lowerabilityGuaranteesFrom false elseRegion
      | none => hasElse && lowerabilityGuaranteesFrom false thenRegion &&
          lowerabilityGuaranteesFrom false elseRegion
    if guarantee then true else lowerabilityGuaranteesFrom guarantee rest
  | .forOp _ _ _ _ rest | .whileOp _ _ _ rest | .instrumentation _ rest =>
    lowerabilityGuaranteesFrom regionGuarantee rest

def lowerabilityGuarantees (region : Block α) : Bool := lowerabilityGuaranteesFrom false region

/-! ### Verification -/

def allConstant (lower upper step : Bound) : Bool :=
  isIntegerConstant lower && isIntegerConstant upper && isIntegerConstant step

/-- `verifyProcessLowerability`: every loop with constant bounds has a trip count, every other
`scf.for` suspends in each iteration. -/
def verifyProcessLowerability : Block α → Bool
  | .done => true
  | .op _ rest => verifyProcessLowerability rest
  | .ifOp _ thenRegion _ elseRegion rest =>
    verifyProcessLowerability thenRegion && verifyProcessLowerability elseRegion &&
      verifyProcessLowerability rest
  | .forOp lower upper step body rest =>
    (if allConstant lower upper step then (analyzeStaticFor lower upper step).isSome
      else lowerabilityGuarantees body) &&
      verifyProcessLowerability body && verifyProcessLowerability rest
  | .whileOp _ before after rest =>
    verifyProcessLowerability before && verifyProcessLowerability after &&
      verifyProcessLowerability rest
  | .instrumentation body rest =>
    verifyProcessLowerability body && verifyProcessLowerability rest

/-- The progress check of `ProcessOp::verify`: every `scf.while` whose condition is not a
constant `false` suspends in one of its regions. -/
def verifyWhileProgress : Block α → Bool
  | .done => true
  | .op _ rest => verifyWhileProgress rest
  | .ifOp _ thenRegion _ elseRegion rest =>
    verifyWhileProgress thenRegion && verifyWhileProgress elseRegion && verifyWhileProgress rest
  | .forOp _ _ _ body rest | .instrumentation body rest =>
    verifyWhileProgress body && verifyWhileProgress rest
  | .whileOp condition before after rest =>
    (constantBool condition == some false || guaranteesSuspend before ||
      guaranteesSuspend after) &&
      verifyWhileProgress before && verifyWhileProgress after && verifyWhileProgress rest

/-- The body ends with `ac.yield_sim`. -/
def endsWithYield : Block α → Bool
  | .done => false
  | .op operation .done => isYieldSim operation
  | .op _ rest | .ifOp _ _ _ _ rest | .forOp _ _ _ _ rest | .whileOp _ _ _ rest
  | .instrumentation _ rest => endsWithYield rest

/-- An absent else region is empty. -/
def wellFormed : Block α → Bool
  | .done => true
  | .op _ rest => wellFormed rest
  | .ifOp _ thenRegion hasElse elseRegion rest =>
    (hasElse || (match elseRegion with | .done => true | _ => false)) &&
      wellFormed thenRegion && wellFormed elseRegion && wellFormed rest
  | .forOp _ _ _ body rest | .instrumentation body rest => wellFormed body && wellFormed rest
  | .whileOp _ before after rest => wellFormed before && wellFormed after && wellFormed rest

/-- The checks of `ProcessOp::verify` that bear on control flow; the others (names, kinds,
captures, linear values) only refuse more. -/
def verifyProcess (body : Block α) : Bool :=
  endsWithYield body && wellFormed body && verifyProcessLowerability body &&
    verifyWhileProgress body

/-- No operation but a constant carries an attribute `value` that reads as a boolean, in the
conditions of the block. -/
def valueAttributesConstant : Block α → Bool
  | .done => true
  | .op _ rest => valueAttributesConstant rest
  | .ifOp condition thenRegion _ elseRegion rest =>
    constantBool condition == constantBoolean condition &&
      valueAttributesConstant thenRegion && valueAttributesConstant elseRegion &&
      valueAttributesConstant rest
  | .forOp _ _ _ body rest | .instrumentation body rest =>
    valueAttributesConstant body && valueAttributesConstant rest
  | .whileOp condition before after rest =>
    constantBool condition == constantBoolean condition &&
      valueAttributesConstant before && valueAttributesConstant after &&
      valueAttributesConstant rest

/-- The induction variable of the loop `loop` levels up is a port of an operation, so that
`staticPortRange` computes its last value. -/
def inductionPort (loop : ℕ) : Block α → Bool
  | .done => false
  | .op operation rest => (portLoops operation).contains loop || inductionPort loop rest
  | .ifOp _ thenRegion _ elseRegion rest =>
    inductionPort loop thenRegion || inductionPort loop elseRegion || inductionPort loop rest
  | .forOp _ _ _ body rest => inductionPort (loop + 1) body || inductionPort loop rest
  | .whileOp _ before after rest =>
    inductionPort loop before || inductionPort loop after || inductionPort loop rest
  | .instrumentation body rest => inductionPort loop body || inductionPort loop rest

/-- The values of every loop with constant bounds whose induction variable is a port span less than
half of the 64-bit range. -/
def staticSpansFit : Block α → Bool
  | .done => true
  | .op _ rest => staticSpansFit rest
  | .ifOp _ thenRegion _ elseRegion rest =>
    staticSpansFit thenRegion && staticSpansFit elseRegion && staticSpansFit rest
  | .forOp lower upper step body rest =>
    (match analyzeStaticFor lower upper step with
      | some trip => !inductionPort 0 body || decide ((trip.tripCount - 1 : ℕ) * trip.step < 2 ^ 63)
      | none => true) &&
      staticSpansFit body && staticSpansFit rest
  | .whileOp _ before after rest =>
    staticSpansFit before && staticSpansFit after && staticSpansFit rest
  | .instrumentation body rest => staticSpansFit body && staticSpansFit rest

/-- The regions nested in a block, at any depth. -/
def nestedRegions : Block α → List (Block α)
  | .done => []
  | .op _ rest => nestedRegions rest
  | .ifOp _ thenRegion _ elseRegion rest =>
    thenRegion :: elseRegion :: (nestedRegions thenRegion ++ nestedRegions elseRegion ++
      nestedRegions rest)
  | .forOp _ _ _ body rest | .instrumentation body rest =>
    body :: (nestedRegions body ++ nestedRegions rest)
  | .whileOp _ before after rest =>
    before :: after :: (nestedRegions before ++ nestedRegions after ++ nestedRegions rest)

/-! ### Execution -/

/-- What is left to do, innermost first: the rest of a block, a loop with constant bounds at
the next value of its induction variable, another `scf.for`, the test and the back edge of an
`scf.while`, and the process, which begins its body anew. -/
inductive Frame (α : Type) where
  | block (block : Block α)
  | staticFor (next upper step : ℤ) (body : Block α)
  | dynamicFor (body : Block α)
  | whileTest (condition : Condition) (before after : Block α)
  | whileBack (condition : Condition) (before after : Block α)
  | process (body : Block α)
deriving DecidableEq

abbrev Config (α : Type) := List (Frame α)

/-- What a step shows: an operation, or an iteration of a loop with constant bounds, by the
depth of its frame and the value of the induction variable. -/
inductive Label (α : Type) where
  | silent
  | execute (operation : α)
  | iterate (depth : ℕ) (value : ℤ)
deriving DecidableEq

def Label.suspends : Label α → Bool
  | .execute operation => isSuspension operation
  | .silent | .iterate _ _ => false

omit [ProcessOperation α] in
/-- One step. -/
inductive Step : Config α → Label α → Config α → Prop
  | leave (s) : Step (.block .done :: s) .silent s
  | execute (operation rest s) :
      Step (.block (.op operation rest) :: s) (.execute operation) (.block rest :: s)
  | takeThen {condition} (thenRegion hasElse elseRegion rest s) : condition.Allows true →
      Step (.block (.ifOp condition thenRegion hasElse elseRegion rest) :: s) .silent
        (.block thenRegion :: .block rest :: s)
  | takeElse {condition} (thenRegion hasElse elseRegion rest s) : condition.Allows false →
      Step (.block (.ifOp condition thenRegion hasElse elseRegion rest) :: s) .silent
        (.block elseRegion :: .block rest :: s)
  | enterStatic (lower upper step body rest s) :
      Step (.block (.forOp (.constant lower) (.constant upper) (.constant step) body rest) :: s)
        .silent (.staticFor lower upper step body :: .block rest :: s)
  | enterDynamic {lower upper step} (body rest s) : allConstant lower upper step = false →
      Step (.block (.forOp lower upper step body rest) :: s) .silent
        (.dynamicFor body :: .block rest :: s)
  | enterWhile (condition before after rest s) :
      Step (.block (.whileOp condition before after rest) :: s) .silent
        (.block before :: .whileTest condition before after :: .block rest :: s)
  | enterInstrumentation (body rest s) :
      Step (.block (.instrumentation body rest) :: s) .silent (.block body :: .block rest :: s)
  | iterateStatic {next upper} (step body s) : next < upper →
      Step (.staticFor next upper step body :: s) (.iterate s.length next)
        (.block body :: .staticFor (next + step) upper step body :: s)
  | leaveStatic {next upper} (step body s) : upper ≤ next →
      Step (.staticFor next upper step body :: s) .silent s
  | iterateDynamic (body s) :
      Step (.dynamicFor body :: s) .silent (.block body :: .dynamicFor body :: s)
  | leaveDynamic (body s) : Step (.dynamicFor body :: s) .silent s
  | continueWhile {condition} (before after s) : condition.Allows true →
      Step (.whileTest condition before after :: s) .silent
        (.block after :: .whileBack condition before after :: s)
  | leaveWhile {condition} (before after s) : condition.Allows false →
      Step (.whileTest condition before after :: s) .silent s
  | back (condition before after s) :
      Step (.whileBack condition before after :: s) .silent
        (.block before :: .whileTest condition before after :: s)
  | restart (body s) : Step (.process body :: s) .silent (.block body :: .process body :: s)

/-- A step that does not suspend the process. -/
def Silent (c c' : Config α) : Prop := ∃ label, Step c label c' ∧ label.suspends = false

/-- The values of the induction variable in the iterations of the loop at one depth. -/
def iterations (depth : ℕ) (labels : List (Label α)) : List ℤ :=
  labels.filterMap fun
    | .iterate d value => if d = depth then some value else none
    | .silent | .execute _ => none

section Iterations

omit [ProcessOperation α]

variable {depth : ℕ} {labels : List (Label α)}

@[simp] theorem iterations_iterate_self (value : ℤ) :
    iterations depth (.iterate depth value :: labels) = value :: iterations depth labels := by
  simp [iterations]

theorem iterations_iterate_of_ne {d : ℕ} (value : ℤ) (h : d ≠ depth) :
    iterations depth (.iterate d value :: labels) = iterations depth labels := by
  simp [iterations, h]

theorem iterations_append (first second : List (Label α)) :
    iterations depth (first ++ second) = iterations depth first ++ iterations depth second :=
  List.filterMap_append

end Iterations

omit [ProcessOperation α] in
/-- Configurations of the process with the given body. -/
inductive Reachable (body : Block α) : Config α → Prop
  | start : Reachable body [.process body]
  | step {c label c'} : Reachable body c → Step c label c' → Reachable body c'

omit [ProcessOperation α] in
/-- `Episode s pre labels`: the frames `pre` above the stack `s` are run until none of them is
left, showing `labels`. -/
inductive Episode (s : Config α) : Config α → List (Label α) → Prop
  | finish : Episode s [] []
  | step {pre label pre' labels} : pre ≠ [] → Step (pre ++ s) label (pre' ++ s) →
      Episode s pre' labels → Episode s pre (label :: labels)

end AgenticCircuit.Dialect
