import AgenticCircuit.Lib.Checks
import AgenticCircuit.Lib.Worklist

/-! # Protocols

`ProtocolOp::verify`, without the roles before and the guarantees after the checks that are modelled
here.  The transitions of a protocol are checked for overlaps; then every state that is reached gets the
ownership with which it is reached, by a worklist over pairs of a state and an ownership.  An illegal
step adds nothing to the worklist and is found afterwards, from the ownership of its source. -/

namespace AgenticCircuit.Dialect.Protocol

open Checks (refuse)
open Worklist (Found flood)

/-! ### The operations in the body of a protocol -/

inductive Action where
  | offer
  | accept
  | cancel
  | reject
  | retry
  | response
  | notify
deriving DecidableEq

structure StateOp where
  symName : String
  initial : Bool
  terminal : Bool
deriving DecidableEq

structure EventOp where
  symName : String
  action : Action
deriving DecidableEq

structure TransitionOp where
  source : String
  target : String
  event : String
  priority : Option UInt64
  transfer : Bool
  retain : Bool
deriving DecidableEq

inductive GuaranteeValue where
  | boolean (value : Bool)
  | other (text : String)
deriving DecidableEq

structure GuaranteeOp where
  kind : String
  value : GuaranteeValue
deriving DecidableEq

/-- The body of an `ac.protocol`, by kinds of operations.  It is a symbol table. -/
structure ProtocolOp where
  states : List StateOp
  events : List EventOp
  transitions : List TransitionOp
  guarantees : List GuaranteeOp
  symbols_nodup : (states.map StateOp.symName ++ events.map EventOp.symName).Nodup

namespace ProtocolOp

variable (p : ProtocolOp)

def lookupState (name : String) : Option StateOp := p.states.find? fun s => s.symName = name

def lookupEvent (name : String) : Option EventOp := p.events.find? fun e => e.symName = name

def findGuarantee (kind : String) : Option GuaranteeOp := p.guarantees.find? fun g => g.kind = kind

/-! ### The checks before the ownership -/

def verifyInitial : Except String Unit :=
  let initialStates := (p.states.filter StateOp.initial).length
  if initialStates ≠ 1 then
    .error s!"protocol requires exactly one initial state, found {initialStates}"
  else .ok ()

def verifyGuaranteeKinds : List String → List GuaranteeOp → Except String Unit
  | _, [] => .ok ()
  | kinds, guarantee :: rest =>
    if guarantee.kind ∈ kinds then .error s!"duplicate protocol guarantee '{guarantee.kind}'"
    else verifyGuaranteeKinds (guarantee.kind :: kinds) rest

def verifyReferences (t : TransitionOp) : Except String Unit :=
  if (p.lookupState t.source).isNone then
    .error s!"unresolved transition source state '@{t.source}'"
  else if (p.lookupState t.target).isNone then
    .error s!"unresolved transition target state '@{t.target}'"
  else if (p.lookupEvent t.event).isNone then
    .error s!"unresolved transition event '@{t.event}'"
  else .ok ()

/-- The priorities of overlapping transitions, given those of the transitions before. -/
def verifyPriorities : List Int64 → List TransitionOp → Except String Unit
  | _, [] => .ok ()
  | priorities, t :: rest =>
    match t.priority with
    | none => .error "overlapping transitions require explicit priority"
    | some priority =>
      if priority.toInt64 ∈ priorities then
        .error "overlapping transitions require unique priority"
      else verifyPriorities (priority.toInt64 :: priorities) rest

def verifyOverlapping (overlapping : List TransitionOp) : Except String Unit :=
  if overlapping.length < 2 then .ok () else verifyPriorities [] overlapping

/-- Each transition with the later ones that have its source and its event. -/
def verifyOverlap : List TransitionOp → Except String Unit
  | [] => .ok ()
  | t :: rest => do
      verifyOverlapping (t :: rest.filter fun u => t.source = u.source ∧ t.event = u.event)
      verifyOverlap rest

def action (t : TransitionOp) : Option Action := (p.lookupEvent t.event).map EventOp.action

/-- `stable_pending = true`. -/
def stable : Bool :=
  match p.findGuarantee "stable_pending" with
  | some ⟨_, .boolean value⟩ => value
  | _ => false

def verifyLocal (t : TransitionOp) : Except String Unit :=
  if t.transfer ∧ t.retain then .error "transition cannot both transfer and retain ownership"
  else if p.action t = some .offer ∧ ¬ t.transfer ∧ ¬ t.retain then
    .error "offer transition must transfer or retain ownership"
  else if p.action t = some .offer ∧ t.retain ∧ ¬ p.stable then
    .error "retained pending offer requires stable_pending = true"
  else if p.action t = some .retry ∧ ¬ t.retain then
    .error "retry transition must retain the pending offer"
  else if p.action t = some .retry ∧ t.transfer then
    .error "retry transition cannot transfer the pending offer"
  else if t.retain ∧ p.action t ≠ some .offer ∧ p.action t ≠ some .retry then
    .error "retain is only valid for offer and retry transitions"
  else .ok ()

/-! ### The ownership of the states -/

inductive Ownership where
  | noPending
  | pending
deriving DecidableEq

/-- The ownership after a transition; none when the step is illegal. -/
def transferOwnership (t : TransitionOp) (input : Ownership) : Option Ownership :=
  if p.action t = some .offer then
    if input = .pending then none else some (if t.transfer then .noPending else .pending)
  else if p.action t = some .retry then
    if input = .pending then some .pending else none
  else if p.action t = some .cancel ∨ p.action t = some .reject then
    if input = .pending then some .noPending else none
  else if t.transfer then
    if input = .pending then some .noPending else none
  else some input

def outgoing (state : String) : List TransitionOp := p.transitions.filter fun t => t.source = state

def next (reached : String × Ownership) : List (String × Ownership) :=
  (p.outgoing reached.1).filterMap fun t =>
    (p.transferOwnership t reached.2).map fun output => (t.target, output)

/-- Every pair of a state and an ownership enters the worklist at most once. -/
def budget : ℕ := 2 * p.states.length + 1

/-- The worklist, which starts at the initial state without a pending item. -/
def ownership : Found (String × Ownership) :=
  flood p.next p.budget ((p.states.filter StateOp.initial).map fun s => (s.symName, .noPending))

def hasOwnership (state : String) (value : Ownership) : Bool := p.ownership.marked (state, value)

def verifySettled (s : StateOp) : Except String Unit :=
  if ¬ p.hasOwnership s.symName .pending then .ok ()
  else if s.terminal then
    .error s!"terminal state '@{s.symName}' is reachable with pending ownership"
  else if p.outgoing s.symName = [] then
    .error s!"pending ownership reaches state '@{s.symName}' with no outgoing transition"
  else .ok ()

def verifyOwnership : Except String Unit := do
  refuse (p.states.find? fun s =>
      p.hasOwnership s.symName .noPending && p.hasOwnership s.symName .pending)
    fun s => s!"ownership state conflict at join state '@{s.symName}'"
  refuse (p.transitions.find? fun t =>
      p.action t = some .offer && p.hasOwnership t.source .pending)
    fun _ => "offer cannot begin while another offer is pending"
  refuse (p.transitions.find? fun t =>
      p.action t = some .retry && p.hasOwnership t.source .noPending)
    fun _ => "retry requires a pending offer"
  refuse (p.transitions.find? fun t =>
      (p.action t = some .cancel || p.action t = some .reject) &&
        p.hasOwnership t.source .noPending)
    fun _ => "ownership resolution requires a pending offer"
  refuse (p.transitions.find? fun t =>
      t.transfer && p.action t ≠ some .offer && p.action t ≠ some .retry &&
        p.action t ≠ some .cancel && p.action t ≠ some .reject &&
        p.hasOwnership t.source .noPending)
    fun _ => "ownership transfer requires a pending offer"
  refuse (p.transitions.find? fun t =>
      !(p.hasOwnership t.source .noPending || p.hasOwnership t.source .pending) &&
        (t.transfer || p.action t = some .retry || p.action t = some .cancel ||
          p.action t = some .reject))
    fun _ => "ownership resolution is unreachable from the initial state"
  forM p.states p.verifySettled

/-- The checks of the verifier up to the ownership. -/
def verify : Except String Unit := do
  p.verifyInitial
  verifyGuaranteeKinds [] p.guarantees
  forM p.transitions p.verifyReferences
  verifyOverlap p.transitions
  forM p.transitions p.verifyLocal
  p.verifyOwnership

end ProtocolOp

/-! ### What the ownership is about -/

section paths

variable (p : ProtocolOp)

/-- What a transition makes of a pending item: an offer that retains makes one, an offer that transfers
leaves none, and a cancel, a reject and any other transfer resolve it. -/
def effect (t : TransitionOp) (pending : Bool) : Bool :=
  if p.action t = some .offer then t.retain
  else if p.action t = some .cancel ∨ p.action t = some .reject ∨ t.transfer then false
  else pending

/-- A path of transitions from the initial state, with the state reached and whether an item is pending
there.  A path goes on after steps that ought not to be taken. -/
inductive Path : List TransitionOp → String → Bool → Prop
  | start {s : StateOp} : s ∈ p.states → s.initial = true → Path [] s.symName false
  | step {ts : List TransitionOp} {state : String} {pending : Bool} {t : TransitionOp} :
      Path ts state pending → t ∈ p.transitions → t.source = state →
      Path (ts ++ [t]) t.target (effect p t pending)

/-- A transition that resolves the pending item. -/
def Resolves (t : TransitionOp) : Prop :=
  p.action t = some .cancel ∨ p.action t = some .reject ∨ t.transfer = true

/-- Transitions with one source and one event carry distinct priorities. -/
def DistinctPriorities (ts : List TransitionOp) : Prop :=
  ts.Pairwise fun t u => t.source = u.source → t.event = u.event →
    ∃ a b, t.priority = some a ∧ u.priority = some b ∧ a ≠ b

/-- The discipline of ownership on all paths. -/
structure Owned : Prop where
  determined : ∀ {ts us state a b}, Path p ts state a → Path p us state b → a = b
  offers : ∀ {ts pending t}, Path p ts t.source pending → t ∈ p.transitions →
    p.action t = some .offer → pending = false
  answers : ∀ {ts pending t}, Path p ts t.source pending → t ∈ p.transitions →
    p.action t ≠ some .offer → p.action t = some .retry ∨ Resolves p t → pending = true
  settles : ∀ {ts s}, s ∈ p.states → Path p ts s.symName true →
    s.terminal = false ∧ ∃ t ∈ p.transitions, t.source = s.symName
  resolved : ∀ t ∈ p.transitions, Resolves p t → ∃ ts pending, Path p ts t.source pending

/-- Every retry leaves a reachable state. -/
def RetriesReachable : Prop :=
  ∀ t ∈ p.transitions, p.action t = some .retry → ∃ ts pending, Path p ts t.source pending

end paths

end AgenticCircuit.Dialect.Protocol
