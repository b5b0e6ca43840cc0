import AgenticCircuit.Gfsim.Core

/-! # The observation recorder

`ObservationRecorder` of `gfsim/observation.h`.  Objects propose observations while an epoch
executes; the proposals of an owner are published when its functional state commits at the
Xfer barrier and dropped when it does not.

The maps of the recorder are total functions here: an owner without an entry has no pending
proposals and next index `0`, and a flow without an entry is not active, which is how the
recorder reads a missing key in every place.  A pending entry is created by its first
proposal, so an owner has an entry exactly when its list is not empty. -/

namespace AgenticCircuit.Gfsim

inductive TraceEventPhase where
  | instant | complete | counter | flowStart | flowEnd
deriving DecidableEq

inductive ObservationValue where
  | bool (value : Bool)
  | signed (value : ℤ)
  | unsigned (value : ℕ)
  | text (value : String)
deriving DecidableEq

structure ObservationArgument where
  name : String
  value : ObservationValue
deriving DecidableEq

structure EventProposal where
  ownerId : ObjectId := kInvalidObjectId
  category : String
  name : String
  phase : TraceEventPhase := .instant
  rootSequenceId : Option ℕ := none
  duration : Option ℕ := none
  flowId : Option ℕ := none
  arguments : List ObservationArgument := []
deriving DecidableEq

structure CommittedEvent where
  epoch : Epoch
  ownerId : ObjectId
  localCommittedIndex : ℕ
  category : String
  name : String
  phase : TraceEventPhase
  rootSequenceId : Option ℕ
  duration : Option ℕ
  flowId : Option ℕ
  arguments : List ObservationArgument
deriving DecidableEq

/-- The order of the committed log: epoch, owner, owner-local index. -/
def CommittedEvent.lessEvent (a b : CommittedEvent) : Bool :=
  decide (a.epoch < b.epoch) || (decide (a.epoch = b.epoch) &&
    (decide (a.ownerId < b.ownerId) || (decide (a.ownerId = b.ownerId) &&
      decide (a.localCommittedIndex < b.localCommittedIndex))))

/-- A letter or underscore, then letters, digits, underscores, dots and dashes. -/
def validName (value : String) : Bool :=
  match value.toList with
  | [] => false
  | c :: cs => (c.isAlpha || c == '_') &&
      cs.all (fun d => d.isAlpha || d.isDigit || d == '_' || d == '.' || d == '-')

structure ObservationRecorder where
  pending : ObjectId → List EventProposal := fun _ => []
  nextIndices : ObjectId → ℕ := fun _ => 0
  activeFlows : ℕ → Bool := fun _ => false
  committed : List CommittedEvent := []
  lastCommitEpoch : Option Epoch := none
  lastError : String := ""

namespace ObservationRecorder

def reject (r : ObservationRecorder) (message : String) : ObservationRecorder × Bool :=
  ({ r with lastError := message }, false)

/-- Argument names are valid, outside the runtime's own names, and strictly increasing. -/
def argumentsOk : Option String → List ObservationArgument → Bool
  | _, [] => true
  | previous, a :: rest =>
    validName a.name && !a.name.startsWith "gfsim_" &&
      (match previous with
        | none => true
        | some p => decide (p < a.name)) &&
      argumentsOk (some a.name) rest

def isFlow : TraceEventPhase → Bool
  | .flowStart | .flowEnd => true
  | _ => false

def propose (r : ObservationRecorder) (proposal : EventProposal) : ObservationRecorder × Bool :=
  let r := { r with lastError := "" }
  if proposal.ownerId = kInvalidObjectId || !validName proposal.category ||
      !validName proposal.name then
    r.reject "observation owner, category, or name is invalid"
  else if !argumentsOk none proposal.arguments then
    r.reject "observation arguments must be sorted and unique"
  else if isFlow proposal.phase != proposal.flowId.isSome then
    r.reject "flow observations require exactly one flow identity"
  else if proposal.phase = .complete && proposal.duration.isNone then
    r.reject "complete observations require a duration"
  else if proposal.phase ≠ .complete && proposal.duration.isSome then
    r.reject "only complete observations may carry a duration"
  else
    let proposals := r.pending proposal.ownerId ++ [proposal]
    ({ r with pending := Function.update r.pending proposal.ownerId proposals }, true)

/-- Open and close the flows of a list of proposals; the error text when one does not fit. -/
def stepFlows : List EventProposal → (ℕ → Bool) → Except String (ℕ → Bool)
  | [], flows => .ok flows
  | p :: rest, flows =>
    let flow := p.flowId.getD 0
    match p.phase with
    | .flowStart =>
      if flows flow then .error "observation flow started more than once"
      else stepFlows rest (Function.update flows flow true)
    | .flowEnd =>
      if !flows flow then .error "observation flow ended before it started"
      else stepFlows rest (Function.update flows flow false)
    | _ => stepFlows rest flows

/-- The committed form of proposals, numbered from `next`. -/
def stamp (owner : ObjectId) (epoch : Epoch) : ℕ → List EventProposal → List CommittedEvent
  | _, [] => []
  | next, p :: rest =>
    { epoch := epoch, ownerId := owner, localCommittedIndex := next, category := p.category,
      name := p.name, phase := p.phase, rootSequenceId := p.rootSequenceId,
      duration := p.duration, flowId := p.flowId, arguments := p.arguments } ::
        stamp owner epoch (next + 1) rest

/-- Insert at the position of `std::lower_bound`. -/
def insertLower (e : CommittedEvent) : List CommittedEvent → List CommittedEvent
  | [] => [e]
  | d :: rest => if d.lessEvent e then d :: insertLower e rest else e :: d :: rest

def commitOwner (r : ObservationRecorder) (owner : ObjectId) (epoch : Epoch) :
    ObservationRecorder × Bool :=
  let r := { r with lastError := "" }
  if owner = kInvalidObjectId then
    r.reject "observation commit owner is invalid"
  else if r.lastCommitEpoch.any (fun last => decide (epoch < last)) then
    r.reject "observation commit time regressed"
  else if (r.pending owner).isEmpty then
    (r, true)
  else if uint64Max - r.nextIndices owner < (r.pending owner).length then
    r.reject "observation owner-local index overflowed"
  else
    match stepFlows (r.pending owner) r.activeFlows with
    | .error message => r.reject message
    | .ok flows =>
      let next := r.nextIndices owner
      let additions := stamp owner epoch next (r.pending owner)
      ({ r with
          pending := Function.update r.pending owner []
          nextIndices := Function.update r.nextIndices owner (next + additions.length)
          activeFlows := flows
          committed := additions.foldl (fun log e => insertLower e log) r.committed
          lastCommitEpoch := some epoch }, true)

def rejectOwner (r : ObservationRecorder) (owner : ObjectId) : ObservationRecorder :=
  { r with pending := Function.update r.pending owner [] }

end ObservationRecorder

end AgenticCircuit.Gfsim
