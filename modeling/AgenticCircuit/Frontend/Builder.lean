import AgenticCircuit.Frontend.Syntax

/-! # The process builder

`_ProcessBuilder` of `_process.py`: one pass over a body that grows a list of blocks.  The
builder keeps a current block, a stack of loop targets, a version for every name and the set of
consumed linear values; a block is closed by its edge and is never reopened.

Blocks are referred to by their names, which `newBlock` makes distinct.  The uses and definitions
of blocks are recorded here; the block arguments and captures that `build` derives from them are
not part of the model. -/

namespace AgenticCircuit.Frontend

/-! ### Blocks -/

/-- The name a block is derived from. -/
inductive BlockBase where
  | entry | thenBlock | elseBlock | resume | done | loop | loopBody | afterLoop | forLoop | forBody
  | afterFor
deriving DecidableEq

/-- A block name: the first block of a base has it plain, the others a number from 2 on. -/
structure BlockName where
  base : BlockBase
  number : ℕ := 1
deriving DecidableEq

def entryName : BlockName := ⟨.entry, 1⟩

/-- The condition of a branch: a test, or whether the iterable of a `for` loop has another value,
which the target then gets. -/
inductive Condition where
  | test (text : String)
  | next (target iter : String)
deriving DecidableEq

/-- `ProcessEdge`, by its kind. -/
inductive ProcessEdge where
  | branch (condition : Condition) (onTrue onFalse : BlockName)
  | jump (target : BlockName)
  | suspend (operation : String) (arguments : List String) (target : BlockName)
  | ret
deriving DecidableEq

namespace ProcessEdge

def targets : ProcessEdge → List BlockName
  | .branch _ t f => [t, f]
  | .jump t => [t]
  | .suspend _ _ t => [t]
  | .ret => []

def isSuspend : ProcessEdge → Bool
  | .suspend .. => true
  | _ => false

end ProcessEdge

structure MutableBlock where
  name : BlockName
  actions : List ProcessAction := []
  edge : Option ProcessEdge := none
  uses : List String := []
  definitions : List String := []
deriving DecidableEq

structure ProcessEffect where
  operation : String
  kind : EffectKind
deriving DecidableEq

/-! ### Errors -/

inductive ErrorCode where
  | process003 | process006 | process007 | effect003
deriving DecidableEq

structure ProcessConstructionError where
  code : ErrorCode
  message : String
deriving DecidableEq

/-! ### The builder -/

structure Builder where
  blocks : List MutableBlock := []
  effects : List ProcessEffect := []
  loopStack : List (BlockName × BlockName) := []
  localOrder : List String := []
  versions : List (String × ℕ) := []
  consumedLinear : List (String × ℕ) := []
  current : BlockName := entryName
deriving DecidableEq

abbrev Building := Except ProcessConstructionError Builder

namespace Builder

variable (env : Environment) (σ : Builder)

def names : List BlockName := σ.blocks.map MutableBlock.name

def find (name : BlockName) : Option MutableBlock := σ.blocks.find? (fun b => b.name == name)

/-- The first free name of a base. -/
def freshName (base : BlockBase) : BlockName :=
  ⟨base, ((List.range (σ.blocks.length + 1)).find? fun k => ⟨base, k + 1⟩ ∉ σ.names).getD 0 + 1⟩

/-- `_new_block`; the new block has the fresh name. -/
def newBlock (base : BlockBase) : Builder :=
  { σ with blocks := σ.blocks ++ [{ name := σ.freshName base }] }

/-- Update a block. -/
def update (name : BlockName) (f : MutableBlock → MutableBlock) : Builder :=
  { σ with blocks := σ.blocks.map fun b => if b.name = name then f b else b }

/-- The block has a terminator. -/
def closed (name : BlockName) : Bool := (σ.find name).any fun b => b.edge.isSome

def fail (code : ErrorCode) (message : String) : Building := .error ⟨code, message⟩

/-- `_finish`. -/
def finish (name : BlockName) (edge : ProcessEdge) : Building :=
  if σ.closed name then fail .process003 "process block already has a terminator"
  else .ok (σ.update name fun b => { b with edge := some edge })

/-- The names among `loads` that the block has not defined become uses of the block. -/
def recordUses (name : BlockName) (loads : List String) : Builder :=
  σ.update name fun b => { b with uses := b.uses ++ loads.filter fun x =>
    x ∉ b.definitions ∧ x ∉ b.uses }

def version (x : String) : Option ℕ := σ.versions.lookup x

def recordDefinition (name : BlockName) (x : String) : Builder :=
  { σ.update name fun b => { b with definitions := b.definitions ++ [x] } with
    localOrder := if x ∈ σ.localOrder then σ.localOrder else σ.localOrder ++ [x]
    versions := (x, match σ.version x with | some v => v + 1 | none => 0) :: σ.versions }

def recordDefinitions (name : BlockName) (xs : List String) : Builder :=
  xs.foldl (fun σ x => σ.recordDefinition name x) σ

def addEffect (operation : String) (kind : EffectKind) : Builder :=
  { σ with effects := σ.effects ++ [⟨operation, kind⟩] }

/-- Append an action to the current block, then define its results. -/
def addAction (a : ProcessAction) : Builder :=
  (σ.update σ.current fun b => { b with actions := b.actions ++ [a] }).recordDefinitions
    σ.current a.results

/-- The loop over the linear arguments of a call. -/
def consumeLinear (operation : String) (args : List Operand) : List ℕ → Builder → Building
  | [], σ => .ok σ
  | i :: rest, σ =>
    match args[i]? with
    | some (.name x) =>
      let key := (x, (σ.version x).getD 0)
      if key ∈ σ.consumedLinear then fail .process007
        ("linear value '" ++ x ++ "' is consumed more than once")
      else consumeLinear operation args rest { σ with consumedLinear := key :: σ.consumedLinear }
    | _ => fail .process007 ("linear argument " ++ toString i ++ " of '" ++ operation ++
        "' must be one SSA name")

/-- The end of a suspension: the current block is closed and, but for `yield_sim`, a new block
goes on. -/
def suspend (operation : String) (arguments : List String) : Building :=
  if operation = "yield_sim" then σ.finish σ.current (.suspend operation arguments entryName)
  else do
    let base := if BlockName.mk .resume 1 ∈ σ.names then BlockBase.done else .resume
    let target := σ.freshName base
    let τ ← (σ.newBlock base).finish σ.current (.suspend operation arguments target)
    return { τ with current := target }

/-- `_call`. -/
def call (c : Call) (results : List String) : Building :=
  match c.func with
  | .other _ => fail .effect003 "process call target must be a declared name"
  | .name id =>
    match env.effects.find id with
    | none =>
      match env.records id with
      | some name =>
        let τ := (σ.recordUses σ.current c.loads).addEffect "record_create" .pure
        .ok (τ.addAction ⟨.recordCreate name, c.arguments, results, some .pure⟩)
      | none => fail .effect003 ("operation '" ++ id ++ "' has no declared process effect")
    | some d =>
      if c.keywords.any (fun k => k.1.isNone) then
        fail .process003 "process calls cannot unpack keywords"
      else do
        let τ ← consumeLinear id c.args d.linearArguments σ
        let τ := (τ.recordUses τ.current c.loads).addEffect id d.kind
        if d.suspension then
          if results ≠ [] then
            fail .process003 "a suspension point cannot produce a Python assignment result"
          else τ.suspend id c.arguments
        else .ok (τ.addAction ⟨.effect id, c.arguments, results, some d.kind⟩)

/-- `_assignment`. -/
def assignment (targets : List Target) (value : Option Expr) : Building :=
  match targets with
  | [target] =>
    match Environment.targetNames target, value with
    | none, _ => fail .process003 "process assignment target must be one name or a pair of names"
    | some _, none => .ok σ
    | some results, some (.call c) =>
      if results.length = 2 ∧ c.func ≠ .name "try_recv" then
        fail .process003 "only try_recv can produce a pair"
      else σ.call env c results
    | some [name], some (.operand o) =>
      .ok ((σ.recordUses σ.current o.loads).addAction ⟨.assign, [o.unparse], [name], none⟩)
    | some _, some (.operand _) => fail .process003 "pair assignment requires try_recv"
  | _ => fail .process003 "process assignment target must be one name"

def simple : Simple → Building
  | .assign targets value => σ.assignment env targets value
  | .expr (.call c) => σ.call env c []
  | .expr (.operand _) => fail .process003 "Expr is not supported in a process"
  | .pass => .ok σ
  | .other kind => fail .process003 (kind ++ " is not supported in a process")

/-- `_can_reach_backedge_without_suspension`, from the point where control may or may not fall
through. -/
def canReachBackedge : Bool → Body → Bool
  | canFall, .nil => canFall
  | false, _ => false
  | true, .simple (.expr (.call c)) rest =>
    canReachBackedge (match c.func with
      | .name id => !(env.effects.find id).any fun d => d.suspension
      | .other _ => true) rest
  | true, .simple _ rest => canReachBackedge true rest
  | true, .ite _ body orelse rest =>
    canReachBackedge (canReachBackedge true body || canReachBackedge true orelse) rest
  | true, .whileLoop _ _ _ rest => canReachBackedge true rest
  | true, .forLoop _ _ _ _ rest => canReachBackedge true rest
  | true, .ret _ rest => canReachBackedge false rest
  | true, .brk rest => canReachBackedge false rest
  | true, .cont _ => true

/-- The integer arguments of a range, and its number of values. -/
def rangeTripCount : Expr → Option ℕ
  | .call ⟨.name "range", args, []⟩ =>
    match args with
    | [.int stop] => some stop.toNat
    | [.int start, .int stop] => some (stop - start).toNat
    | [.int start, .int stop, .int step] =>
      if step ≤ 0 then none else some ((stop - start + step - 1) / step).toNat
    | _ => none
  | _ => none

/-- The statement loop refuses to go on in a closed block. -/
def guardOpen (next : Building) : Building :=
  if σ.closed σ.current then fail .process003 "statement follows a process terminator" else next

/-- Close the blocks that are still open with a jump to the join block. -/
def joinBlocks (target : BlockName) : List BlockName → Builder → Building
  | [], σ => .ok σ
  | name :: rest, σ => do
      let σ ← σ.finish name (.jump target)
      joinBlocks target rest σ

/-- Close the current block with a jump, unless it is closed. -/
def fallTo (target : BlockName) : Building :=
  if σ.closed σ.current then .ok σ else σ.finish σ.current (.jump target)

/-- The three blocks of a loop, with the jump into its header. -/
def openLoop (header body after : BlockBase) : Except ProcessConstructionError
    ((BlockName × BlockName × BlockName) × Builder) := do
  let h := σ.freshName header
  let σ₁ := σ.newBlock header
  let b := σ₁.freshName body
  let σ₂ := σ₁.newBlock body
  let a := σ₂.freshName after
  let σ₃ ← (σ₂.newBlock after).finish σ.current (.jump h)
  return ((h, b, a), σ₃)

/-- `_statements`: the statements of a body, one after the other. -/
def statements : Body → Builder → Building
  | .nil, σ => .ok σ
  | .simple s rest, σ => σ.guardOpen do
      let σ ← σ.simple env s
      statements rest σ
  | .ite test body orelse rest, σ => σ.guardOpen do
      let t := σ.freshName .thenBlock
      let σ₁ := σ.newBlock .thenBlock
      let f := σ₁.freshName .elseBlock
      let σ₂ := (σ₁.newBlock .elseBlock).recordUses σ.current test.loads
      let σ₃ ← σ₂.finish σ.current (.branch (.test test.unparse) t f)
      let σ₄ ← statements body { σ₃ with current := t }
      let thenEnd := σ₄.current
      let σ₅ ← statements orelse { σ₄ with current := f }
      let elseEnd := σ₅.current
      let openBlocks := [thenEnd, elseEnd].filter fun n => !σ₅.closed n
      if openBlocks = [] then statements rest σ₅
      else
        let join := σ₅.freshName .resume
        let σ₆ ← joinBlocks join openBlocks (σ₅.newBlock .resume)
        statements rest { σ₆ with current := join }
  | .whileLoop test body orelse rest, σ => σ.guardOpen do
      if canReachBackedge env true body then
        fail .process006 "runtime while loop must make progress through suspension"
      else
        let ((h, b, a), σ₁) ← σ.openLoop .loop .loopBody .afterLoop
        let σ₂ ← (σ₁.recordUses h test.loads).finish h (.branch (.test test.unparse) b a)
        let σ₃ ← statements body { σ₂ with loopStack := (h, a) :: σ.loopStack, current := b }
        let σ₄ ← σ₃.fallTo h
        let σ₅ ← statements orelse { σ₄ with loopStack := σ.loopStack, current := a }
        statements rest σ₅
  | .forLoop target iter body orelse rest, σ => σ.guardOpen do
      match target, rangeTripCount iter with
      | .name x, some tripCount =>
        if 1000000 < tripCount then
          fail .process006 "runtime for loop requires a finite positive static range"
        else
          let ((h, b, a), σ₁) ← σ.openLoop .forLoop .forBody .afterFor
          let σ₂ ← ((σ₁.recordUses h iter.loads).recordDefinition h x).finish h
            (.branch (.next x iter.unparse) b a)
          let σ₃ ← statements body { σ₂ with loopStack := (h, a) :: σ.loopStack, current := b }
          let σ₄ ← σ₃.fallTo h
          let σ₅ ← statements orelse { σ₄ with loopStack := σ.loopStack, current := a }
          statements rest σ₅
      | .name _, none =>
        fail .process006 "runtime for loop requires a finite positive static range"
      | _, _ => fail .process003 "runtime for target must be one name"
  | .ret value rest, σ => σ.guardOpen do
      if value.all fun v => v = .operand .noneValue then
        let σ ← σ.finish σ.current .ret
        statements rest σ
      else fail .process003 "process return cannot carry a value"
  | .brk rest, σ => σ.guardOpen do
      match σ.loopStack with
      | [] => fail .process003 "break is outside a loop"
      | (_, after) :: _ =>
        let σ ← σ.finish σ.current (.jump after)
        statements rest σ
  | .cont rest, σ => σ.guardOpen do
      match σ.loopStack with
      | [] => fail .process003 "continue is outside a loop"
      | (header, _) :: _ =>
        let σ ← σ.finish σ.current (.jump header)
        statements rest σ

end Builder

/-! ### Programs -/

structure ProcessBlock where
  name : BlockName
  actions : List ProcessAction
  edge : ProcessEdge
deriving DecidableEq

/-- `ProcessProgram`, without the block arguments and the captures. -/
structure ProcessProgram where
  entry : BlockName
  blocks : List ProcessBlock
  effects : List ProcessEffect
deriving DecidableEq

/-- The builder before the first statement: the entry block and the parameters at version 0. -/
def Builder.start (parameters : List String) : Builder :=
  { blocks := [{ name := entryName }], versions := parameters.map fun x => (x, 0) }

/-- The end of `build`: an open block returns, and every target is a block. -/
def Builder.program (σ : Builder) : Except ProcessConstructionError ProcessProgram :=
  let blocks := σ.blocks.map fun b => ⟨b.name, b.actions, b.edge.getD .ret⟩
  if blocks.all fun b => b.edge.targets.all fun t => t ∈ σ.names then
    .ok ⟨entryName, blocks, σ.effects⟩
  else .error ⟨.process003, "process CFG has an unresolved edge"⟩

/-- `construct_process` on a definition that is a plain function decorated with `@process` and
free of generators and exceptions. -/
def constructProcess (env : Environment) (parameters : List String) (body : Body) :
    Except ProcessConstructionError ProcessProgram := do
  let σ ← Builder.statements env body (Builder.start parameters)
  let σ ← if σ.closed σ.current then .ok σ else σ.finish σ.current .ret
  σ.program

end AgenticCircuit.Frontend
