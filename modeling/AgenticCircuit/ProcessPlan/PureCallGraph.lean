import AgenticCircuit.ProcessPlan.Source
import Mathlib.Data.String.Basic

/-! # The call graph of the pure functions

`validatePureProcessCallGraph` with its explicit stack.  The functions that the processes call are
searched depth first, over all call sites in the order of their keys; a function is entered when it
comes to the top of the stack for the first time, and is added to the graph when all its calls have
been followed.  The graph is sorted by name for the binary search of `lookup`. -/

namespace AgenticCircuit.ProcessPlan.PureCallGraph

/-! ### Effects of a function -/

def children : Operation → List Operation
  | .forOp _ _ _ _ _ body | .instrumentation _ body => body
  | .ifOp _ _ _ thenBody elseBody => thenBody ++ elseBody
  | .whileOp _ _ _ before after => before ++ after
  | _ => []

structure EffectTask where
  operation : Operation
  expanded : Bool

/-- The tasks are on a stack, top first; `budget` bounds the number of turns. -/
def effectsLoop : ℕ → List EffectTask → List Call → Except String (List Call)
  | _, [], calls => .ok calls
  | 0, _ :: _, calls => .ok calls
  | budget + 1, ⟨op, false⟩ :: pending, calls =>
    effectsLoop budget ((children op).reverse.map (⟨·, false⟩) ++ ⟨op, true⟩ :: pending) calls
  | budget + 1, ⟨op, true⟩ :: pending, calls =>
    match op with
    | .call call => effectsLoop budget pending (calls ++ [call])
    | op =>
      if localEffectFree op then effectsLoop budget pending calls
      else .error "function reachable from ac.process is not effect-free"

/-- The calls of a function without local effects, in the order of their callees. -/
def verifyFunctionEffectsIterative (f : Function) : Except String (List Call) := do
  let calls ← effectsLoop (2 * (trees f.body).length) (f.body.reverse.map (⟨·, false⟩)) []
  return calls.insertionSort fun a b => a.callee ≤ b.callee

/-! ### The search -/

structure PureCallGraphLimits where
  maxFunctions : ℕ := kMaxPureCallFunctions
  maxEdges : ℕ := kMaxPureCallEdges
  maxDepth : ℕ := kMaxPureCallDepth

structure ValidatedPureFunction where
  function : Function
  calls : List Call

def ValidatedPureFunction.name (e : ValidatedPureFunction) : String := e.function.name

structure Frame where
  function : Function
  nextCall : ℕ
  entered : Bool

def Frame.name (frame : Frame) : String := frame.function.name

/-- The stack is top first. -/
structure Search where
  states : String → Visit
  indexedCalls : String → List Call
  functions : List ValidatedPureFunction
  edges : ℕ
  stack : List Frame

def Search.start : Search := ⟨fun _ => .unvisited, fun _ => [], [], 0, []⟩

/-- The frames from the first one of the name to the top, and the name again. -/
def cycle (stack : List Frame) (name : String) : String :=
  let active := (stack.reverse.dropWhile fun frame => frame.name ≠ name).map Frame.name
  "recursive func.call purity cycle: " ++
    String.join (active.map fun frame => "@" ++ frame ++ " -> ") ++ "@" ++ name

section search

variable (file : File) (limits : RawModelStructureLimits) (callLimits : PureCallGraphLimits)

/-- `verifyProcessLowerability` has a diagnostic of its own for everything it refuses. -/
def enter (s : Search) (f : Function) : Except String Search :=
  if f.body = [] then
    .error s!"process func.call callee '@{f.name}' has no body and cannot be proven effect-free"
  else if callLimits.maxDepth < s.stack.length then
    .error s!"pure func.call analysis exceeds ACIR v0.2 depth limit {callLimits.maxDepth}"
  else if !file.verifyProcessLowerability limits 0 f.body then
    .error s!"function '@{f.name}' is not lowerable"
  else do
    let calls ← verifyFunctionEffectsIterative f
    .ok { s with
      indexedCalls := Function.update s.indexedCalls f.name calls
      states := Function.update s.states f.name .active }

/-- The next call of a frame that has been entered. -/
def advance (s : Search) (frame : Frame) (rest : List Frame) : Except String Search :=
  let calls := s.indexedCalls frame.name
  match calls[frame.nextCall]? with
  | none => .ok { s with
      states := Function.update s.states frame.name .pure
      functions := s.functions ++ [⟨frame.function, calls⟩]
      stack := rest }
  | some call =>
    let stack := { frame with nextCall := frame.nextCall + 1 } :: rest
    if s.edges = callLimits.maxEdges then
      .error s!"pure func.call analysis exceeds ACIR v0.2 edge limit {callLimits.maxEdges}"
    else
      match file.lookup call.callee with
      | none => .error s!"process func.call callee '@{call.callee}' is unresolved"
      | some target =>
        match s.states target.name with
        | .pure => .ok { s with edges := s.edges + 1, stack := stack }
        | .active => .error (cycle stack target.name)
        | .unvisited => .ok { s with
            edges := s.edges + 1
            stack := ⟨target, 0, false⟩ :: stack }

/-- One turn of the loop, for the frame on top of the stack. -/
def turn (s : Search) (frame : Frame) (rest : List Frame) : Except String Search :=
  (if frame.entered then .ok s else enter file limits callLimits s frame.function) >>= fun s =>
    advance file callLimits s { frame with entered := true } rest

/-- The loop runs until the stack is empty; `budget` bounds the number of turns. -/
def loop : ℕ → Search → Except String Search
  | 0, s => .ok s
  | budget + 1, s =>
    match s.stack with
    | [] => .ok s
    | frame :: rest => do
        let s ← turn file limits callLimits s frame rest
        loop budget s

/-- Every function is popped once and every call followed once. -/
def budget : ℕ := (file.functions.map fun f => (calls f.body).length + 1).sum

def searchRoot (s : Search) (root : String × Call) : Except String Search :=
  match file.lookup root.2.callee with
  | none => .error s!"process func.call callee '@{root.2.callee}' is unresolved"
  | some f =>
    if s.states f.name = .pure then .ok s
    else loop file limits callLimits (budget file) { s with stack := [⟨f, 0, false⟩] }

end search

/-! ### The whole model -/

/-- A model and its size: the operations and the operands that a walk over all of it counts, and how
deep its operations are nested. -/
structure Model where
  file : File
  nodes : ℕ
  edges : ℕ
  depth : ℕ

def verifySymbols : List String → List Function → Except String Unit
  | _, [] => .ok ()
  | symbols, f :: rest =>
    if f.name ∈ symbols then .error s!"duplicate pure func.call symbol '@{f.name}'"
    else verifySymbols (f.name :: symbols) rest

/-- The limits of the walk that collects the call sites. -/
def verifyWalk (model : Model) (limits : RawModelStructureLimits) : Except String Unit :=
  if limits.maxNestedRegionDepth < model.depth then
    .error (s!"whole-model region nesting exceeds ACIR v0.2 capability limit " ++
      s!"{limits.maxNestedRegionDepth}")
  else if limits.maxNodes < model.nodes ∨ limits.maxEdges < model.edges then
    .error (s!"whole-model indexed analysis exceeds ACIR v0.2 capability limits " ++
      s!"(nodes {limits.maxNodes}, edges {limits.maxEdges})")
  else .ok ()

def validatePureProcessCallGraph (model : Model) (limits : RawModelStructureLimits)
    (callLimits : PureCallGraphLimits) : Except String (List ValidatedPureFunction) := do
  verifySymbols [] model.file.functions
  if callLimits.maxFunctions < model.file.functions.length then
    .error s!"pure func.call analysis exceeds ACIR v0.2 function limit {callLimits.maxFunctions}"
  else
    verifyWalk model limits
    let s ← model.file.roots.foldlM (searchRoot model.file limits callLimits) .start
    .ok (s.functions.insertionSort fun a b => a.name ≤ b.name)

/-- Binary search in `functions[first:last]`. -/
def lookupBetween (functions : List ValidatedPureFunction) (name : String) (first last : ℕ) :
    Option ValidatedPureFunction :=
  if first < last then
    let middle := first + (last - first) / 2
    match functions[middle]? with
    | none => none
    | some candidate =>
      if candidate.name < name then lookupBetween functions name (middle + 1) last
      else if name < candidate.name then lookupBetween functions name first middle
      else some candidate
  else none
termination_by last - first

def lookup (functions : List ValidatedPureFunction) (name : String) : Option ValidatedPureFunction :=
  lookupBetween functions name 0 functions.length

/-! ### What the processes reach -/

section reached

variable (file : File)

/-- The function of the first name has a call of the second. -/
def Calls (caller callee : String) : Prop :=
  ∃ f, file.lookup caller = some f ∧ ∃ call ∈ calls f.body, call.callee = callee

/-- A process calls the name, directly or through functions. -/
inductive Reached : String → Prop
  | site {p : Process} {call : Call} : p ∈ file.processes → call ∈ calls p.body → Reached call.callee
  | call {caller callee : String} : Reached caller → Calls file caller callee → Reached callee

/-- Every function that is reached has a body without effects and does not come to call itself. -/
structure PureCalls : Prop where
  defined : ∀ name, Reached file name → ∃ f, file.lookup name = some f ∧ f.body ≠ []
  effectFree : ∀ name f, Reached file name → file.lookup name = some f →
    ∀ op ∈ trees f.body, localEffectFree op = true
  acyclic : ∀ name, Reached file name → ¬ Relation.TransGen (Calls file) name name

/-- Every function that is reached passes `verifyProcessLowerability`. -/
def Lowerable (limits : RawModelStructureLimits) : Prop :=
  ∀ name f, Reached file name → file.lookup name = some f → f.body ≠ [] →
    file.verifyProcessLowerability limits 0 f.body = true

end reached

/-- The model is within the limits of the search: of its size, of the functions, of the calls of the
functions that are reached, and of the length of a chain of calls that repeats no function. -/
structure Within (model : Model) (limits : RawModelStructureLimits) (callLimits : PureCallGraphLimits) :
    Prop where
  walk : verifyWalk model limits = .ok ()
  functions : model.file.functions.length ≤ callLimits.maxFunctions
  edges : ∀ reached : List Function, reached.Nodup →
    (∀ f ∈ reached, f ∈ model.file.functions ∧ Reached model.file f.name) →
    (reached.map fun f => (calls f.body).length).sum ≤ callLimits.maxEdges
  depth : ∀ chain : List String, chain.Nodup → (∀ name ∈ chain, Reached model.file name) →
    chain.IsChain (Calls model.file) → chain.length ≤ callLimits.maxDepth

end AgenticCircuit.ProcessPlan.PureCallGraph
