import AgenticCircuit.Frontend.Builder
import AgenticCircuit.Lib.Liveness
import AgenticCircuit.Lib.Touch

/-! # Block arguments

The end of `build`: every block gets as arguments the process-local names that are live where it
starts.  The names are computed from the uses and definitions that the builder has recorded, in
passes over the blocks in reverse order.

The actions and edges of a program hold the texts of expressions.  What such a text loads is a
parameter `names` here, `ast.parse` undoing `ast.unparse`. -/

namespace AgenticCircuit.Frontend

open Touch (touches)

/-! ### The passes -/

/-- `ValueVersion`. -/
structure ValueVersion where
  sourceName : String
  version : ℕ
  category : String
  typeKey : String
  producer : Option String
  ownership : String := "borrowed"
deriving DecidableEq

/-- The value that stands for a process-local name. -/
def ValueVersion.processLocal (name : String) : ValueVersion :=
  ⟨name, 0, "result", "unknown", some "process-local", "borrowed"⟩

/-- `ProcessBlock`, with its arguments. -/
structure LiveBlock where
  block : ProcessBlock
  arguments : List ValueVersion
deriving DecidableEq

inductive BuildError where
  | construction (error : ProcessConstructionError)
  | assertion
deriving DecidableEq

namespace Builder

variable (σ : Builder)

/-- The blocks, with what the passes read of them. -/
def flowGraph : Liveness.Graph BlockName String where
  nodes := σ.names.reverse
  targets n := ((σ.find n).bind MutableBlock.edge).elim [] ProcessEdge.targets
  uses n := ((σ.find n).elim [] MutableBlock.uses).toFinset
  defs n := ((σ.find n).elim [] MutableBlock.definitions).toFinset

def blockArguments (live : BlockName → Finset String) (n : BlockName) : List ValueVersion :=
  (σ.localOrder.filter fun x => x ∈ live n).map .processLocal

end Builder

/-- The blocks of `build`, where `budget` bounds the number of passes; `none` when they do not come to
their end. -/
def constructBlocks (budget : ℕ) (env : Environment) (parameters : List String) (body : Body) :
    Except BuildError (Option (List LiveBlock)) := do
  let σ ← (Builder.statements env body (.start parameters)).mapError .construction
  let σ ← (if σ.closed σ.current then .ok σ else σ.finish σ.current .ret).mapError .construction
  if σ.blocks.any fun b => b.edge.isNone then .error .assertion
  else
    match Liveness.liveIn σ.flowGraph budget with
    | none => .ok none
    | some live => do
        let P ← σ.program.mapError .construction
        .ok (some (P.blocks.map fun b => ⟨b, σ.blockArguments live b.name⟩))

/-! ### What a block reads and assigns -/

section touches

variable (names : String → List String)

def ProcessAction.touches (a : ProcessAction) : List (Touch String) :=
  Touch.touches (a.arguments.flatMap names) a.results

/-- The header of a `for` loop reads the iterable and then defines the target: `_record_definition`
notes it for the block, whichever edge is taken.  `ProcessEdge.assigns` is what a run does. -/
def ProcessEdge.touches : ProcessEdge → List (Touch String)
  | .branch (.test text) _ _ => Touch.touches (names text) []
  | .branch (.next target iter) _ _ => Touch.touches (names iter) [target]
  | .suspend _ arguments _ => Touch.touches (arguments.flatMap names) []
  | .jump _ | .ret => []

def ProcessBlock.touches (b : ProcessBlock) : List (Touch String) :=
  b.actions.flatMap (·.touches names) ++ b.edge.touches names

/-- The texts of an operand, a call, an expression and the statements load what their trees load. -/
def Operand.Readable (o : Operand) : Prop := ∀ x, x ∈ names o.unparse ↔ x ∈ o.loads

structure Call.Readable (c : Call) : Prop where
  args : ∀ o ∈ c.args, o.Readable names
  keywords : ∀ k ∈ c.keywords, ∀ x,
    x ∈ names (k.1.getD "None" ++ "=" ++ k.2.unparse) ↔ x ∈ k.2.loads

def Expr.Readable (e : Expr) : Prop := ∀ x, x ∈ names e.unparse ↔ x ∈ e.loads

def Simple.Readable : Simple → Prop
  | .assign _ (some (.call c)) | .expr (.call c) => c.Readable names
  | .assign _ (some (.operand o)) => o.Readable names
  | _ => True

def Body.Readable : Body → Prop
  | .nil => True
  | .simple s rest => s.Readable names ∧ rest.Readable
  | .ite test body orelse rest =>
    test.Readable names ∧ body.Readable ∧ orelse.Readable ∧ rest.Readable
  | .whileLoop test body orelse rest =>
    test.Readable names ∧ body.Readable ∧ orelse.Readable ∧ rest.Readable
  | .forLoop _ iter body orelse rest =>
    iter.Readable names ∧ body.Readable ∧ orelse.Readable ∧ rest.Readable
  | .ret _ rest | .brk rest | .cont rest => rest.Readable

end touches

/-! ### Paths of blocks -/

/-- A path through the blocks from a block of the given name. -/
inductive BlockPath (P : ProcessProgram) : BlockName → List ProcessBlock → Prop
  | single {b : ProcessBlock} : b ∈ P.blocks → BlockPath P b.name [b]
  | cons {b : ProcessBlock} {t : BlockName} {path : List ProcessBlock} :
      b ∈ P.blocks → t ∈ b.edge.targets → BlockPath P t path → BlockPath P b.name (b :: path)

theorem BlockPath.head {P : ProcessProgram} {n : BlockName} {path : List ProcessBlock}
    (h : BlockPath P n path) : ∃ b rest, path = b :: rest ∧ b ∈ P.blocks ∧ b.name = n := by
  cases h with
  | single hb | cons hb _ _ => exact ⟨_, _, rfl, hb, rfl⟩

/-- On some path from the start of a block the name is read before it is defined. -/
def ReadFirst (names : String → List String) (P : ProcessProgram) (x : String) (n : BlockName) : Prop :=
  ∃ path, BlockPath P n path ∧ Touch.Exposed x (path.flatMap (·.touches names))

/-- A name that some action or `for` loop of the process defines. -/
def ProcessLocal (names : String → List String) (P : ProcessProgram) (x : String) : Prop :=
  ∃ b ∈ P.blocks, Touch.assign x ∈ b.touches names

end AgenticCircuit.Frontend
