import Mathlib.Data.List.Nodup
import Mathlib.Data.String.Basic

/-! # Process bodies and declared effects

The part of the Python syntax that `_process.py` looks at, and the effect declarations a process
is built against.

* **Bodies.**  A statement list is a value of `Body`: every constructor but `nil` is a first
  statement together with the `rest` of the list, so that one induction covers all nestings.
  Source spans are left out.
* **Expressions** matter in three ways: whether they are a bare name or an integer, their text,
  and the names they load.  A call is kept apart only where the builder looks inside it.
* **`Environment.meaning`** says what a simple statement does: nothing, an action, a suspension,
  or the restart of `yield_sim`. -/

namespace AgenticCircuit.Frontend

/-! ### Effects -/

inductive EffectKind where
  | pure | queue | resource | storage | event | trace | statistics | suspension
deriving DecidableEq

/-- A declared operation; the fields after the first four are the checks of `__post_init__`. -/
structure EffectDeclaration where
  operation : String
  kind : EffectKind
  suspension : Bool := false
  linearArguments : List ℕ := []
  named : operation ≠ "" := by decide
  suspends : kind = .suspension ↔ suspension = true := by decide
  distinct : linearArguments.Nodup := by decide

structure EffectRegistry where
  declarations : List EffectDeclaration
  distinct : (declarations.map EffectDeclaration.operation).Nodup := by decide

def EffectRegistry.find (r : EffectRegistry) (operation : String) : Option EffectDeclaration :=
  r.declarations.find? (fun d => d.operation == operation)

/-- The registry `_frontend.py` builds processes against. -/
def frontendEffects : EffectRegistry where
  declarations := [
    { operation := "wait_until", kind := .suspension, suspension := true },
    { operation := "wait_for", kind := .suspension, suspension := true },
    { operation := "await_event", kind := .suspension, suspension := true },
    { operation := "yield_sim", kind := .suspension, suspension := true },
    { operation := "try_send", kind := .queue },
    { operation := "try_recv", kind := .queue },
    { operation := "record_get", kind := .pure },
    { operation := "record_with", kind := .pure },
    { operation := "packet_serialize", kind := .pure },
    { operation := "packet_deserialize", kind := .pure }]

/-! ### Expressions -/

/-- An operand: a bare name, an integer, the constant `None`, or any other expression with its
text and the names it loads. -/
inductive Operand where
  | name (id : String)
  | int (value : Int)
  | noneValue
  | other (text : String) (loads : List String)
deriving DecidableEq

namespace Operand

def unparse : Operand → String
  | .name id => id
  | .int value => toString value
  | .noneValue => "None"
  | .other text _ => text

def loads : Operand → List String
  | .name id => [id]
  | .int _ | .noneValue => []
  | .other _ loads => loads

end Operand

inductive Callee where
  | name (id : String)
  | other (text : String)
deriving DecidableEq

/-- A call; a keyword without a name unpacks a mapping. -/
structure Call where
  func : Callee
  args : List Operand := []
  keywords : List (Option String × Operand) := []
deriving DecidableEq

namespace Call

/-- The texts of the arguments, positional ones first. -/
def arguments (c : Call) : List String :=
  c.args.map Operand.unparse ++ c.keywords.map fun k =>
    k.1.getD "None" ++ "=" ++ k.2.unparse

def loads (c : Call) : List String :=
  (c.args ++ c.keywords.map Prod.snd).flatMap Operand.loads

def calleeText (c : Call) : String :=
  match c.func with
  | .name id => id
  | .other text => text

def unparse (c : Call) : String := c.calleeText ++ "(" ++ ", ".intercalate c.arguments ++ ")"

end Call

inductive Expr where
  | operand (o : Operand)
  | call (c : Call)
deriving DecidableEq

namespace Expr

def unparse : Expr → String
  | .operand o => o.unparse
  | .call c => c.unparse

/-- The names an expression loads; a called name is loaded too. -/
def loads : Expr → List String
  | .operand o => o.loads
  | .call c => (match c.func with | .name id => [id] | .other _ => []) ++ c.loads

end Expr

/-! ### Statements -/

/-- An assignment target: a name, a pair of names, or anything else. -/
inductive Target where
  | name (id : String)
  | pair (first second : String)
  | other
deriving DecidableEq

/-- A statement without a nested statement list and without control flow of its own.  An
annotated assignment has one target and maybe no value. -/
inductive Simple where
  | assign (targets : List Target) (value : Option Expr)
  | expr (value : Expr)
  | pass
  | other (kind : String)
deriving DecidableEq

/-- The call statement `operation(argument)`. -/
def callStatement (operation argument : String) : Simple :=
  .expr (.call { func := .name operation, args := [.name argument] })

/-- A statement list. -/
inductive Body where
  | nil
  | simple (s : Simple) (rest : Body)
  | ite (test : Expr) (body orelse rest : Body)
  | whileLoop (test : Expr) (body orelse rest : Body)
  | forLoop (target : Target) (iter : Expr) (body orelse rest : Body)
  | ret (value : Option Expr) (rest : Body)
  | brk (rest : Body)
  | cont (rest : Body)
deriving DecidableEq

namespace Body

def append : Body → Body → Body
  | .nil, b => b
  | .simple s rest, b => .simple s (rest.append b)
  | .ite test body orelse rest, b => .ite test body orelse (rest.append b)
  | .whileLoop test body orelse rest, b => .whileLoop test body orelse (rest.append b)
  | .forLoop target iter body orelse rest, b => .forLoop target iter body orelse (rest.append b)
  | .ret value rest, b => .ret value (rest.append b)
  | .brk rest, b => .brk (rest.append b)
  | .cont rest, b => .cont (rest.append b)

theorem append_nil (b : Body) : b.append .nil = b := by
  induction b with
  | nil => rfl
  | simple _ _ ih | ite _ _ _ _ _ _ ih | whileLoop _ _ _ _ _ _ ih | forLoop _ _ _ _ _ _ _ ih
  | ret _ _ ih | brk _ ih | cont _ ih => rw [append, ih]

end Body

/-! ### What simple statements do -/

/-- The operation of an action. -/
inductive Operation where
  | assign
  | recordCreate (name : String)
  | effect (operation : String)
deriving DecidableEq

/-- `ProcessAction`; `results` holds the assigned name or pair of names, if any. -/
structure ProcessAction where
  operation : Operation
  arguments : List String
  results : List String
  effectKind : Option EffectKind
deriving DecidableEq

/-- What a process is built against: the registry, and the captured symbols that define a struct
or a packet, with their names. -/
structure Environment where
  effects : EffectRegistry
  records : String → Option String := fun _ => none

/-- The frontend's registry and no captured records. -/
def frontendEnvironment : Environment where
  effects := frontendEffects

/-- What a simple statement does when it is executed. -/
inductive Meaning where
  | skip
  | action (a : ProcessAction)
  | suspend (operation : String) (arguments : List String)
  | restart (arguments : List String)
deriving DecidableEq

namespace Environment

variable (env : Environment)

/-- The meaning of a call whose value goes to `results`; `none` where no process can be built. -/
def callMeaning (c : Call) (results : List String) : Option Meaning :=
  match c.func with
  | .other _ => none
  | .name id =>
    match env.effects.find id with
    | none => (env.records id).map fun name =>
      .action ⟨.recordCreate name, c.arguments, results, some .pure⟩
    | some d =>
      if c.keywords.any (fun k => k.1.isNone) then none
      else if d.suspension then
        if results ≠ [] then none
        else if id = "yield_sim" then some (.restart c.arguments)
        else some (.suspend id c.arguments)
      else some (.action ⟨.effect id, c.arguments, results, some d.kind⟩)

/-- The names assigned by a target, where it is supported. -/
def targetNames : Target → Option (List String)
  | .name id => some [id]
  | .pair first second => some [first, second]
  | .other => none

def meaning : Simple → Option Meaning
  | .assign [target] value =>
    match targetNames target, value with
    | none, _ => none
    | some _, none => some .skip
    | some results, some (.call c) =>
      if results.length = 2 ∧ c.func ≠ .name "try_recv" then none
      else env.callMeaning c results
    | some [name], some (.operand o) =>
      some (.action ⟨.assign, [o.unparse], [name], none⟩)
    | some _, some (.operand _) => none
  | .assign _ _ => none
  | .expr (.call c) => env.callMeaning c []
  | .expr (.operand _) => none
  | .pass => some .skip
  | .other _ => none

/-- The positions of a call's linear arguments. -/
def linearPositions (operation : String) : List ℕ :=
  match env.effects.find operation with
  | some d => d.linearArguments
  | none => []

/-- The names an executed operation passes as linear arguments. -/
def linearNames (operation : String) (arguments : List String) : List String :=
  (env.linearPositions operation).filterMap fun i => arguments[i]?

end Environment

end AgenticCircuit.Frontend
