import AgenticCircuit.Gfsim.Dispatch
import AgenticCircuit.Gfsim.Observation
import AgenticCircuit.Lib.Exit
import Mathlib.Data.String.Basic

/-! # The simulation system

`SimSystem` of `gfsim/object.h` and `system.cpp`: the scheduler that owns the exact global epoch,
the work schedule, the internal event queue and the phase barriers.

* **Objects.**  The states of all runtime objects are one value of an arbitrary type `W`, and `Hooks
  W` gives their virtual methods, of which nothing is assumed.  Those of the Work, Arbitrate and
  Xfer phases may call the system, any number of times and depending on the answers: each is a `Body
  W`, a tree of such calls whose leaves are the new states.
* **`step`** is the translation of `SimSystem::step`, phase by phase, in the early-return monad
  `Exit`; `none` is the C++ `return false`.
* **Host.**  Between steps the host may run any `Body W` against the system (`hostCall`), and `run`
  starts every process and trace source and steps until the run ends.
* **Trail.**  `SimSystem.trail` is a history variable, which the scheduler never reads: what has
  been accepted, scheduled, executed, published and delivered, and how far the loops of the step
  have come. -/

namespace AgenticCircuit.Gfsim

open Exit

/-! ### State -/

/-- The internal notification queue: committed events and this epoch's proposals, both in the
order of `Event.key`. -/
structure EventQueue where
  committed : List Event := []
  pushProposals : List Event := []
deriving DecidableEq

namespace EventQueue

def nextEvent (q : EventQueue) : Option Event := q.committed.head?

def popNext (q : EventQueue) : EventQueue := { q with committed := q.committed.tail }

def hasPendingCommit (q : EventQueue) : Bool := !q.pushProposals.isEmpty

def isFull (q : EventQueue) (capacity : ℕ) : Bool :=
  decide (capacity ≤ q.committed.length + q.pushProposals.length)

def proposeSchedule (q : EventQueue) (event : Event) : EventQueue :=
  { q with pushProposals := insertKey Event.key event q.pushProposals }

def doXfer (q : EventQueue) : EventQueue :=
  { committed := insertAll Event.key q.committed q.pushProposals, pushProposals := [] }

end EventQueue

/-- Who put an object on the work schedule. -/
inductive Cause where
  | host
  | object
  | event (event : Event)
  | activation (source : ObjectId) (tick : ℕ)
  | traceEnd
deriving DecidableEq

/-- What the history of a run records. -/
inductive Occurrence where
  | accepted (event : Event)
  | scheduled (id : ObjectId) (epoch : Epoch) (cause : Cause)
  | delivered (event : Event) (epoch : Epoch)
  | worked (id : ObjectId) (epoch : Epoch)
  | xferred (id : ObjectId) (epoch : Epoch)
  | published (id : ObjectId) (epoch : Epoch)
  | eventsPublished (epoch : Epoch)
  | asked (source target : ObjectId) (epoch : Epoch) (accepts : Bool)
deriving DecidableEq

/-- History variable: the past of the run and the position of the current step's loops. -/
structure Trail where
  history : List Occurrence := []
  inFlight : Option Event := none
  workDone : List ObjectId := []
  gathered : Bool := false
  xferDone : List ObjectId := []
  /-- The accepted events, each with the object that posted it. -/
  posts : List (Option ObjectId × Event) := []

/-- A scheduled Work execution; `std::map<Epoch, std::set<ObjectId>>` is the list of its
pairs in the order of `WorkItem.key`. -/
structure WorkItem where
  epoch : Epoch
  id : ObjectId
deriving DecidableEq

def WorkItem.key (w : WorkItem) : Epoch ×ₗ ObjectId := toLex (w.epoch, w.id)

theorem WorkItem.epoch_le_of_key_le {a b : WorkItem} (h : a.key ≤ b.key) : a.epoch ≤ b.epoch := by
  rcases Prod.Lex.toLex_le_toLex.mp h with h | ⟨h, _⟩
  · exact le_of_lt h
  · exact le_of_eq h

/-- The mutable state of the system.  `currentWork`, `xferObjects`, `committedSources` and
`traceEndProcesses` are the local variables of `step`. -/
structure SimSystem where
  epoch : Epoch := ⟨0, 0⟩
  terminated : Bool := false
  result : TerminationResult := {}
  scheduledWork : List WorkItem := []
  eventQueue : EventQueue := {}
  committedEventCount : ℕ := 0
  nextEventSequence : ℕ := 0
  executingEpoch : Bool := false
  activeProposalOwner : Option ObjectId := none
  commitParticipants : List ObjectId := []
  noProgress : NoProgressReport := {}
  traceOwnerCount : ℕ := 0
  traceEof : Bool := true
  preflightValidated : Bool := false
  lastCommitTick : ObjectId → Option ℕ := fun _ => none
  eventQueueLastCommitTick : Option ℕ := none
  domainCycles : List (String × ℕ) := []
  observations : ObservationRecorder := {}
  lastProgressTick : ℕ := 0
  currentWork : List ObjectId := []
  xferObjects : List ObjectId := []
  committedSources : List ObjectId := []
  traceEndProcesses : List ObjectId := []
  trail : Trail := {}

namespace SimSystem

variable (c : Config) (s : SimSystem)

def record (o : Occurrence) : SimSystem :=
  { s with trail := { s.trail with history := s.trail.history ++ [o] } }

/-- `SimSystem::fail`. -/
def fail (d : Diagnostic) : SimSystem :=
  { s with
    terminated := true
    executingEpoch := false
    result := { s.result with
      classification := .failed
      finalEpoch := s.epoch
      committedEventCount := s.committedEventCount
      domainCycles := s.domainCycles
      diagnostic := some d } }

/-- The common part of the four caps: the run ends as `incomplete`. -/
def incomplete (d : Diagnostic) (cap : ℕ) : SimSystem :=
  { s with
    terminated := true
    result := { s.result with
      classification := .incomplete
      finalEpoch := s.epoch
      committedEventCount := s.committedEventCount
      terminationCap := some cap
      domainCycles := s.domainCycles
      diagnostic := some d } }

/-- The caps on trace records, domain cycles and events. -/
def capped (d : Diagnostic) (cap : ℕ) : SimSystem :=
  { s with executingEpoch := false }.incomplete d cap

/-- The tick cap: time stands at the cap itself. -/
def incompleteAtMaxTicks : SimSystem :=
  { s with epoch := ⟨c.maxTicks, 0⟩ }.incomplete .maxTicksReached c.maxTicks

/-- The deadlock window: time stands at the deadline. -/
def failAt (deadline : ℕ) (d : Diagnostic) : SimSystem :=
  { s with epoch := ⟨deadline, 0⟩ }.fail d

/-- The run has nothing left to do. -/
def complete : SimSystem :=
  { s with
    terminated := true
    result := { s.result with
      classification := .completed
      finalEpoch := s.epoch
      committedEventCount := s.committedEventCount
      domainCycles := s.domainCycles } }

/-! ### The scheduler's own moves -/

/-- Take the event at the front of the queue for delivery. -/
def takeEvent (event : Event) : SimSystem :=
  { s with
    eventQueue := s.eventQueue.popNext
    trail := { s.trail with inFlight := some event } }

/-- A delivered event counts as progress. -/
def countEvent (event : Event) : SimSystem :=
  { s with
    committedEventCount := s.committedEventCount + 1
    lastProgressTick := s.epoch.time
    trail := { s.trail with
      inFlight := none
      history := s.trail.history ++ [.delivered event s.epoch] } }

/-- Take the Work set of the epoch off the schedule and open the epoch. -/
def openEpoch : SimSystem :=
  { s with
    currentWork := (s.scheduledWork.filter (fun w => w.epoch = s.epoch)).map WorkItem.id
    scheduledWork := s.scheduledWork.filter (fun w => w.epoch ≠ s.epoch)
    executingEpoch := true
    commitParticipants := []
    xferObjects := []
    committedSources := []
    traceEndProcesses := []
    trail := { s.trail with workDone := [], gathered := false, xferDone := [] } }

def startWork (id : ObjectId) : SimSystem :=
  { s with trail := { s.trail with
    workDone := s.trail.workDone ++ [id]
    history := s.trail.history ++ [.worked id s.epoch] } }

/-- The ordered union of the Work set and the registered commit participants. -/
def gatherParticipants : SimSystem :=
  { s with
    xferObjects := unionSet (fun i => i) s.currentWork s.commitParticipants
    trail := { s.trail with gathered := true } }

/-- `id` is stateful and has already committed at the current tick. -/
def committedThisTick (id : ObjectId) : Bool :=
  decide (s.lastCommitTick id = some s.epoch.time) &&
    decide (c.kindOf id ≠ some .eventQueue) && decide (c.kindOf id ≠ some .process)

def markXfer (id : ObjectId) : SimSystem :=
  { s with trail := { s.trail with
    xferDone := s.trail.xferDone ++ [id]
    history := s.trail.history ++ [.xferred id s.epoch] } }

/-- A commit counts as progress; a timed event queue does not activate its consumers. -/
def markCommitted (id : ObjectId) : SimSystem :=
  { s with
    committedSources := if c.kindOf id = some .eventQueue then s.committedSources
      else s.committedSources ++ [id]
    lastCommitTick := Function.update s.lastCommitTick id (some s.epoch.time)
    lastProgressTick := s.epoch.time
    trail := { s.trail with history := s.trail.history ++ [.published id s.epoch] } }

/-- Publish the proposed events; a non-empty publication counts as progress. -/
def commitEvents : SimSystem :=
  if s.eventQueue.hasPendingCommit then
    { s with
      eventQueue := s.eventQueue.doXfer
      eventQueueLastCommitTick := some s.epoch.time
      lastProgressTick := s.epoch.time }.record (.eventsPublished s.epoch)
  else { s with eventQueue := s.eventQueue.doXfer }

def closeEpoch : SimSystem :=
  { s with
    executingEpoch := false
    activeProposalOwner := none
    commitParticipants := []
    trail := { s.trail with gathered := false } }

/-! ### The interface objects and the host call -/

def insertWork (cause : Cause) (id : ObjectId) (epoch : Epoch) : SimSystem :=
  { s with scheduledWork := insertSet WorkItem.key ⟨epoch, id⟩ s.scheduledWork }.record
    (.scheduled id epoch cause)

/-- `SimSystem::scheduleWork`; the cause is only recorded. -/
def scheduleWork (cause : Cause) (id : ObjectId) (epoch : Epoch) : SimSystem × Bool :=
  if s.terminated then (s, false)
  else if kMaxDeltasPerTick ≤ epoch.delta then (s.fail .scheduledWorkDelta, false)
  else if epoch < s.epoch then (s.fail .workBeforeCurrentEpoch, false)
  else if (c.lookup id).isNone then (s.fail .unknownWorkTarget, false)
  else if s.executingEpoch && decide (epoch = s.epoch) then
    if kMaxDeltasPerTick ≤ s.epoch.delta + 1 then (s.fail .continuationDelta, false)
    else (s.insertWork cause id s.epoch.nextDelta, true)
  else (s.insertWork cause id epoch, true)

/-- The object whose method is running; the host has none. -/
def poster : Option ObjectId :=
  if s.executingEpoch then s.activeProposalOwner <|> s.trail.xferDone.getLast? else none

def acceptEvent (event : Event) : SimSystem :=
  { s with
    nextEventSequence := s.nextEventSequence + 1
    eventQueue := s.eventQueue.proposeSchedule event
    trail := { s.trail with posts := s.trail.posts ++ [(s.poster, event)] } }.record
      (.accepted event)

/-- `SimSystem::scheduleEvent`. -/
def scheduleEvent (event : Event) : SimSystem × Bool :=
  if s.terminated then (s, false)
  else if kMaxDeltasPerTick ≤ event.readyTime.delta then (s.fail .scheduledEventDelta, false)
  else if event.readyTime < s.epoch then (s.fail .eventBeforeCurrentEpoch, false)
  else if (c.lookup event.targetId).isNone then (s.fail .unknownEventTarget, false)
  else if s.nextEventSequence = uint64Max then (s.fail .eventSequenceOverflow, false)
  else if s.eventQueue.isFull c.eventQueueCapacity then
    ({ s with nextEventSequence := s.nextEventSequence + 1 }.fail .eventQueueCapacityExceeded,
      false)
  else (s.acceptEvent { event with sequence := s.nextEventSequence }, true)

/-- `SimSystem::registerCommitParticipant`. -/
def registerCommitParticipant (id : ObjectId) : SimSystem × Bool :=
  if s.terminated || !s.executingEpoch || s.activeProposalOwner.isNone then (s, false)
  else if (c.lookup id).isNone then (s.fail .unknownCommitParticipant, false)
  else ({ s with commitParticipants := insertSet (fun i => i) id s.commitParticipants }, true)

/-- `SimSystem::proposeObservation`. -/
def proposeObservation (proposal : EventProposal) : SimSystem × Bool :=
  if s.terminated || !s.executingEpoch || s.activeProposalOwner.isNone then (s, false)
  else if s.activeProposalOwner ≠ some proposal.ownerId || (c.lookup proposal.ownerId).isNone then
    (s.fail .invalidObservationOwner, false)
  else
    let r := s.observations.propose proposal
    if r.2 then ({ s with observations := r.1 }, true)
    else ({ s with observations := r.1 }.fail (.invalidObservationProposal r.1.lastError), false)

end SimSystem

/-- What the public read-only methods of the system show. -/
structure View where
  currentEpoch : Epoch
  isTerminated : Bool
  terminationResult : TerminationResult
  nextEvent : Option Event
  noProgressReport : NoProgressReport
  observations : List CommittedEvent

def SimSystem.view (s : SimSystem) : View :=
  { currentEpoch := s.epoch
    isTerminated := s.terminated
    terminationResult := s.result
    nextEvent := s.eventQueue.nextEvent
    noProgressReport := s.noProgress
    observations := s.observations.committed }

/-- One method of an object: calls of the system's interface, then the new object states. -/
inductive Body (W : Type) where
  | done (w : W)
  | scheduleWork (id : ObjectId) (epoch : Epoch) (next : Bool → Body W)
  | scheduleEvent (event : Event) (next : Bool → Body W)
  | registerCommitParticipant (id : ObjectId) (next : Bool → Body W)
  | proposeObservation (proposal : EventProposal) (next : Bool → Body W)
  | view (next : View → Body W)

/-- A call is the host's own between steps and an object's while an epoch executes. -/
def SimSystem.caller (s : SimSystem) : Cause := if s.executingEpoch then .object else .host

/-- Run a method against the system. -/
def Body.exec {W : Type} (c : Config) : Body W → SimSystem → SimSystem × W
  | .done w, s => (s, w)
  | .scheduleWork id epoch next, s =>
    let r := s.scheduleWork c s.caller id epoch
    (next r.2).exec c r.1
  | .scheduleEvent event next, s =>
    let r := s.scheduleEvent c event
    (next r.2).exec c r.1
  | .registerCommitParticipant id next, s =>
    let r := s.registerCommitParticipant c id
    (next r.2).exec c r.1
  | .proposeObservation proposal next, s =>
    let r := s.proposeObservation c proposal
    (next r.2).exec c r.1
  | .view next, s => (next s.view).exec c s

/-- The virtual methods of the runtime objects. -/
structure Hooks (W : Type) where
  doWork : Ptr → Epoch → W → Body W := fun _ _ w => .done w
  doArbitrate : Ptr → Epoch → W → Body W := fun _ _ w => .done w
  doXfer : Ptr → Epoch → W → Body W := fun _ _ w => .done w
  hasPendingCommit : Ptr → W → Bool := fun _ _ => false
  runtimeFailureCode : Ptr → W → String := fun _ _ => ""
  validatePendingCommit : Ptr → W → Bool := fun p w => (runtimeFailureCode p w).isEmpty
  activateFrom : Ptr → ObjectId → W → Bool × W := fun _ _ w => (true, w)
  deliverEvent : Ptr → ℕ → ℕ → Epoch → W → Bool × W := fun _ _ _ _ w => (true, w)
  requestTraceEnd : Ptr → W → Bool × W := fun _ w => (false, w)
  runtimeState : Ptr → Epoch → W → RuntimeObjectState := fun p _ w =>
    { quiescent := !hasPendingCommit p w, pendingCommit := hasPendingCommit p w
      reason := if hasPendingCommit p w then "pending_commit" else "" }

/-- A configured system with its runtime objects. -/
structure Model (W : Type) where
  config : Config
  hooks : Hooks W

structure State (W : Type) where
  sys : SimSystem
  world : W

/-! ### Summaries and stops -/

section step

variable {W : Type} (m : Model W)

def onSys (f : SimSystem → SimSystem) : Exit (State W) Unit :=
  modify fun s => { s with sys := f s.sys }

def stopWith (f : SimSystem → SimSystem) : Exit (State W) Unit :=
  stop fun s => { s with sys := f s.sys }

def failWith (d : Diagnostic) : Exit (State W) Unit := stopWith (fun s => s.fail d)

/-- `if (terminated_) return false;` -/
def returnIfTerminated : Exit (State W) Unit := do
  if (← Exit.get).sys.terminated then stopWith id else pure ()

/-- Put an object on the schedule on behalf of the scheduler; a refusal ends the step. -/
def schedule (cause : Cause) (id : ObjectId) (epoch : Epoch) : Exit (State W) Unit := do
  let r := (← Exit.get).sys.scheduleWork m.config cause id epoch
  if r.2 then onSys (fun _ => r.1) else stopWith (fun _ => r.1)

def scheduleIf (accepts : Bool) (cause : Cause) (id : ObjectId) (epoch : Epoch) :
    Exit (State W) Unit :=
  if accepts then schedule m cause id epoch else pure ()

/-- The states the runtime objects report, in ascending ID. -/
def objectStates (s : State W) : List (Ptr × RuntimeObjectState) :=
  m.config.runtimeObjects.map (fun p => (p, m.hooks.runtimeState p s.sys.epoch s.world))

def blockedObject (i : ObjectInfo) (r : RuntimeObjectState) : BlockedObject :=
  { id := i.id, path := i.path, reason := r.reason, subscriptions := r.subscriptions
    dependencyChain := r.dependencyChain, correlationChain := r.correlationChain
    queueOccupancy := r.queueOccupancy, pendingOffers := r.pendingOffers
    activeReservations := r.activeReservations, protocolState := r.protocolState }

/-- The report `refreshRuntimeSummary` leaves in `noProgress`. -/
def noProgressOf (s : State W) : NoProgressReport :=
  let states := objectStates m s
  let owners := states.filter (fun e => e.2.traceOwner)
  let blocked := states.filter (fun e => !e.2.quiescent)
  { blockedObjects := blocked.map (fun e => blockedObject (m.config.info e.1) e.2)
    queueOccupancy := (states.map (fun e => e.2.queueOccupancy)).sum
    pendingOffers := (states.map (fun e => e.2.pendingOffers)).sum
    activeReservations := (states.map (fun e => e.2.activeReservations)).sum
    nextEvent := s.sys.eventQueue.nextEvent
    tracePosition := (owners.getLast?.map (fun e => e.2.tracePosition)).getD 0
    lastCommittedSequenceId := owners.getLast?.bind (fun e => e.2.traceLastCommittedSequenceId)
    summary := if blocked.isEmpty then ""
      else "unfinished runtime state has no scheduled wake or future event" }

/-- `SimSystem::refreshRuntimeSummary`. -/
def refreshed (s : State W) : SimSystem :=
  let owners := (objectStates m s).filter (fun e => e.2.traceOwner)
  let report := noProgressOf m s
  { s.sys with
    noProgress := report
    traceOwnerCount := owners.length
    traceEof := owners.all (fun e => e.2.traceEof)
    result := { s.sys.result with
      tracePosition := report.tracePosition
      traceLastCommittedSequenceId := report.lastCommittedSequenceId } }

def refreshRuntimeSummary : Exit (State W) Unit :=
  modify fun s => { s with sys := refreshed m s }

/-- `SimSystem::validateRuntimeIdentities`, at the first step after a registration. -/
def validateRuntimeIdentities : Exit (State W) Unit := do
  if (← Exit.get).sys.preflightValidated then pure ()
  else
    match m.config.identityConflict with
    | some conflict => failWith (.duplicateObjectIdentity conflict)
    | none => onSys (fun s => { s with preflightValidated := true })

/-- `SimSystem::stopAtTraceCap`. -/
def stopAtTraceCap : Exit (State W) Unit := do
  refreshRuntimeSummary m
  let s := (← Exit.get).sys
  if 1 < s.traceOwnerCount then failWith .multipleTraceOwners
  else if s.traceOwnerCount = 0 || s.traceEof ||
      decide (s.result.tracePosition < m.config.maxTraceRecords) then pure ()
  else stopWith (fun s => s.capped .maxTraceRecordsReached m.config.maxTraceRecords)

def stopAtMaxTicks : Exit (State W) Unit := do
  if m.config.maxTicks ≤ (← Exit.get).sys.epoch.time then
    stopWith (fun s => s.incomplete .maxTicksReached m.config.maxTicks)
  else pure ()

/-- Count one edge of a time domain, unless its cap is reached. -/
def countDomainCycle (domain : TimeDomainRuntime) : Exit (State W) Unit := do
  let s := (← Exit.get).sys
  if s.epoch.time < domain.phase || (s.epoch.time - domain.phase) % domain.period != 0 then pure ()
  else
    let cycles := (s.domainCycles.lookup domain.name).getD 0
    match m.config.maxDomainCycles.lookup domain.name with
    | some maximum =>
      if maximum ≤ cycles then
        stopWith (fun s => s.capped .maxDomainCyclesReached maximum)
      else onSys (fun s =>
        { s with domainCycles := assignKey domain.name (cycles + 1) s.domainCycles })
    | none => onSys (fun s =>
      { s with domainCycles := assignKey domain.name (cycles + 1) s.domainCycles })

def countDomainCycles : Exit (State W) Unit := do
  if (← Exit.get).sys.epoch.delta = 0 then
    forEach m.config.timeDomains (countDomainCycle m)
  else pure ()

def stopAtEventCap : Exit (State W) Unit := do
  if (← Exit.get).sys.committedEventCount < m.config.maxEvents then pure ()
  else stopWith (fun s => s.capped .maxEventsReached m.config.maxEvents)

/-! ### Event delivery -/

/-- Ask one consumer of an event queue and put it on the schedule when it accepts. -/
def activateConsumer (event : Event) (consumer : ObjectId) : Exit (State W) Unit := do
  match m.config.lookup consumer with
  | some p => do
      let r := m.hooks.activateFrom p event.targetId (← Exit.get).world
      modify fun s => { s with world := r.2 }
      scheduleIf m r.1 (.event event) consumer (← Exit.get).sys.epoch
  | none => schedule m (.event event) consumer (← Exit.get).sys.epoch

/-- The lambda `deliverReadyEvent`. -/
def deliverReadyEvent (event : Event) : Exit (State W) Unit := do
  match m.config.lookup event.targetId with
  | none => failWith .invalidEventNotification
  | some p => do
      let r := m.hooks.deliverEvent p event.eventKind event.payload event.readyTime
        (← Exit.get).world
      modify fun s => { s with world := r.2 }
      if !r.1 then failWith .invalidEventNotification
      else if (m.config.info p).kind != .eventQueue then
        schedule m (.event event) event.targetId (← Exit.get).sys.epoch
      else forEach (m.config.activation.targetsFor event.targetId) (activateConsumer m event)

/-- The two event loops of `step`.  A round removes one committed event and adds none, so the
number of committed events bounds the rounds. -/
def deliverRounds : ℕ → Exit (State W) Unit
  | 0 => pure ()
  | n + 1 => do
      let s := (← Exit.get).sys
      match s.eventQueue.nextEvent with
      | none => pure ()
      | some event =>
        if event.readyTime < s.epoch then failWith .staleEvent
        else if event.readyTime ≠ s.epoch then pure ()
        else do
          stopAtEventCap m
          onSys (fun s => s.takeEvent event)
          deliverReadyEvent m event
          onSys (fun s => s.countEvent event)
          deliverRounds n

def deliverEvents : Exit (State W) Unit := do
  deliverRounds m (← Exit.get).sys.eventQueue.committed.length

/-! ### Work, arbitration and Xfer -/

def setOwner (owner : Option ObjectId) : Exit (State W) Unit :=
  onSys (fun s => { s with activeProposalOwner := owner })

/-- The state after a method of the object at `p`. -/
def State.call (method : Ptr → Epoch → W → Body W) (p : Ptr) (s : State W) : State W :=
  let r := (method p s.sys.epoch s.world).exec m.config s.sys
  ⟨r.1, r.2⟩

/-- Run a method of the object behind an ID. -/
def callObject (method : Ptr → Epoch → W → Body W) (id : ObjectId) : Exit (State W) Unit :=
  match m.config.lookup id with
  | none => pure ()
  | some p => modify (State.call m method p)

def workOne (id : ObjectId) : Exit (State W) Unit := do
  onSys (fun s => s.startWork id)
  setOwner (some id)
  callObject m m.hooks.doWork id
  setOwner none
  returnIfTerminated

def arbitrateOne (id : ObjectId) : Exit (State W) Unit := do
  setOwner (some id)
  callObject m m.hooks.doArbitrate id
  setOwner none
  returnIfTerminated

def validateOne (id : ObjectId) : Exit (State W) Unit := do
  let w := (← Exit.get).world
  match m.config.lookup id with
  | none => pure ()
  | some p =>
    if m.hooks.validatePendingCommit p w then pure ()
    else failWith (.pendingRejected (m.hooks.runtimeFailureCode p w))

/-- The next Xfer of `id` would publish (`XferPhase::Probe`, `hasPendingCommit`). -/
def willCommit (s : State W) (id : ObjectId) : Bool :=
  (m.config.lookup id).any (fun p => m.hooks.hasPendingCommit p s.world)

def recordCommit (id : ObjectId) (committed : Bool) : Exit (State W) Unit :=
  if committed then onSys (fun s => s.markCommitted m.config id) else pure ()

/-- A failure code set by the object ends the run even after its commit. -/
def returnIfFailed (id : ObjectId) : Exit (State W) Unit := do
  let w := (← Exit.get).world
  match m.config.lookup id with
  | none => pure ()
  | some p =>
    if (m.hooks.runtimeFailureCode p w).isEmpty then pure ()
    else failWith (.committedFailure (m.hooks.runtimeFailureCode p w))

def publishObservations (id : ObjectId) (committed : Bool) : Exit (State W) Unit := do
  let s := (← Exit.get).sys
  if committed then
    let r := s.observations.commitOwner id s.epoch
    if r.2 then onSys (fun s => { s with observations := r.1 })
    else stopWith (fun s => { s with observations := r.1 }.fail
      (.invalidObservationCommit r.1.lastError))
  else onSys (fun s => { s with observations := s.observations.rejectOwner id })

/-- Run the Xfer of a participant. -/
def xferObject (id : ObjectId) : Exit (State W) Unit := do
  onSys (fun s => s.markXfer id)
  callObject m m.hooks.doXfer id

/-- One round of the probe and commit loop.  A dispatch row reports its own pending state at
Commit; a registered object counts as committed when the probe said so. -/
def commitOne (id : ObjectId) : Exit (State W) Unit := do
  let s ← Exit.get
  let probe := willCommit m s id
  if probe && s.sys.committedThisTick m.config id then failWith .multipleStatefulCommits
  else do
    let committed := if id < m.config.dispatch.length then willCommit m s id else probe
    xferObject m id
    if committed != probe then failWith .xferProbeMismatch
    else do
      recordCommit m id committed
      returnIfTerminated
      returnIfFailed m id
      publishObservations id committed

/-! ### Activation and shutdown -/

def requestTraceEndOne (p : Ptr) : Exit (State W) Unit := do
  let r := m.hooks.requestTraceEnd p (← Exit.get).world
  modify fun s => { s with world := r.2 }
  if r.1 then onSys (fun s =>
    { s with traceEndProcesses := s.traceEndProcesses ++ [(m.config.info p).id] })
  else pure ()

/-- Once the unique trace owner is at its end, mark the yielding processes for shutdown. -/
def requestTraceEnd : Exit (State W) Unit := do
  refreshRuntimeSummary m
  let s := (← Exit.get).sys
  if s.traceOwnerCount = 1 && s.traceEof then
    forEach m.config.runtimeObjects (requestTraceEndOne m)
  else pure ()

/-- The shutdown of the marked processes needs the next tick. -/
def stopAtTraceEnd : Exit (State W) Unit := do
  let s := (← Exit.get).sys
  if s.traceEndProcesses.isEmpty then pure ()
  else if s.epoch.time = uint64Max then failWith .traceEndOverflow
  else if m.config.maxTicks ≤ s.epoch.time + 1 then
    stopWith (fun s => s.incompleteAtMaxTicks m.config)
  else pure ()

/-- Ask one activation target of a committed source. -/
def activateOne (source target : ObjectId) : Exit (State W) Unit := do
  let s ← Exit.get
  let next : Epoch := ⟨s.sys.epoch.time + 1, 0⟩
  let cause : Cause := .activation source s.sys.epoch.time
  match m.config.lookup target with
  | some p => do
      let r := m.hooks.activateFrom p source s.world
      modify fun s => { s with world := r.2 }
      scheduleIf m r.1 cause target next
      onSys (fun s => s.record (.asked source target s.epoch r.1))
  | none => do
      schedule m cause target next
      onSys (fun s => s.record (.asked source target s.epoch true))

def activate : Exit (State W) Unit := do
  let s := (← Exit.get).sys
  if s.committedSources.isEmpty || m.config.activation.empty then pure ()
  else if s.epoch.time = uint64Max then failWith .activationOverflow
  else forEach s.committedSources fun source =>
    forEach (m.config.activation.targetsFor source) (activateOne m source)

def scheduleShutdown : Exit (State W) Unit := do
  let s := (← Exit.get).sys
  forEach s.traceEndProcesses fun id => schedule m .traceEnd id ⟨s.epoch.time + 1, 0⟩

/-! ### The next epoch -/

/-- The earliest scheduled work or committed event, and whether it is an event. -/
def nextEpoch (s : SimSystem) : Option (Epoch × Bool) :=
  match s.scheduledWork.head?, s.eventQueue.nextEvent with
  | none, none => none
  | some w, none => some (w.epoch, false)
  | none, some e => some (e.readyTime, true)
  | some w, some e => if e.readyTime ≤ w.epoch then some (e.readyTime, true)
      else some (w.epoch, false)

/-- The end of a run with nothing left to do, by the unfinished objects. -/
def classifyEnd : Exit (State W) Unit := do
  let s := (← Exit.get).sys
  if s.noProgress.blockedObjects.isEmpty then stopWith (fun s => s.complete)
  else
    match m.config.deadlockWindow with
    | none => failWith (.noProgress s.noProgress.summary)
    | some window =>
      if uint64Max - window < s.lastProgressTick then failWith .windowOverflow
      else if m.config.maxTicks ≤ s.lastProgressTick + window then
        stopWith (fun s => s.incompleteAtMaxTicks m.config)
      else stopWith (fun s => s.failAt (s.lastProgressTick + window)
        (.deadlockExhausted s.noProgress.summary))

def finishExhausted : Exit (State W) Unit := do
  stopAtTraceCap m
  classifyEnd m

/-- The deadlock window while work is pending: stop when the deadline comes first. -/
def stopAtDeadline (next : Epoch) (isEvent : Bool) : Exit (State W) Unit := do
  let s := (← Exit.get).sys
  match m.config.deadlockWindow with
  | none => pure ()
  | some window =>
    if isEvent then pure ()
    else if uint64Max - window < s.lastProgressTick then failWith .windowOverflow
    else if s.lastProgressTick + window ≤ next.time then
      stopWith (fun s => s.failAt (s.lastProgressTick + window) .deadlockPending)
    else pure ()

/-- Choose the next epoch, or end the run. -/
def selectNext : Exit (State W) Unit := do
  let s := (← Exit.get).sys
  match nextEpoch s with
  | none => finishExhausted m
  | some (next, isEvent) =>
    if next ≤ s.epoch then failWith .nonMonotonicEpoch
    else do
      stopAtDeadline m next isEvent
      if m.config.maxTicks ≤ next.time then
        stopWith (fun s => s.incompleteAtMaxTicks m.config)
      else onSys (fun s => { s with epoch := next })

/-! ### The step -/

/-- The checks before an epoch is opened. -/
def preflight : Exit (State W) Unit := do
  returnIfTerminated
  validateRuntimeIdentities m
  stopAtTraceCap m
  stopAtMaxTicks m
  countDomainCycles m
  stopAtEventCap m

/-- Work and arbitration of one epoch. -/
def propose : Exit (State W) Unit := do
  onSys (fun s => s.openEpoch)
  forEach (← Exit.get).sys.currentWork (workOne m)
  onSys (fun s => s.gatherParticipants)
  forEach (← Exit.get).sys.xferObjects (arbitrateOne m)

/-- The Xfer barrier: validate every participant, then commit them in ascending ID. -/
def xfer : Exit (State W) Unit := do
  forEach (← Exit.get).sys.xferObjects (validateOne m)
  forEach (← Exit.get).sys.xferObjects (commitOne m)
  onSys (fun s => s.commitEvents)

/-- The epoch up to the Xfer barrier. -/
def proposeEpoch : Exit (State W) Unit := do
  preflight m
  deliverEvents m
  propose m

/-- The epoch up to the shutdown marks after the barrier. -/
def commitEpoch : Exit (State W) Unit := do
  proposeEpoch m
  xfer m
  requestTraceEnd m

/-- What follows the barrier: activation, shutdown and causal continuations. -/
def continueEpoch : Exit (State W) Unit := do
  activate m
  scheduleShutdown m
  deliverEvents m

/-- Everything `step` does while its epoch executes. -/
def executeEpoch : Exit (State W) Unit := do
  commitEpoch m
  stopAtTraceEnd m
  continueEpoch m

/-- `SimSystem::step`. -/
def step : Exit (State W) Unit := do
  executeEpoch m
  onSys (fun s => s.closeEpoch)
  selectNext m

end step

/-! ### Host calls and runs -/

section run

variable {W : Type} (m : Model W)

/-- A constructed system before its first step. -/
def State.fresh (w : W) : State W :=
  { sys := { domainCycles := m.config.timeDomains.map (fun d => (d.name, 0)) }, world := w }

/-- The host calls the system between steps. -/
def hostCall (b : W → Body W) (s : State W) : State W :=
  let r := (b s.world).exec m.config s.sys
  ⟨r.1, r.2⟩

/-- The initial activation of `run`: every process and trace source. -/
def startRun (s : State W) : State W :=
  let starters := m.config.runtimeObjects.filter (fun p =>
    (m.config.info p).kind = .process || (m.config.info p).kind = .traceSource)
  let activate := fun (sys : SimSystem) (p : Ptr) =>
    (sys.scheduleWork m.config .host (m.config.info p).id ⟨0, 0⟩).1
  { s with sys := starters.foldl activate { s.sys with epoch := ⟨0, 0⟩ } }

/-- At most `n` steps, ending with the first one that returns false. -/
def runSteps : ℕ → State W → State W
  | 0, s => s
  | n + 1, s =>
    match step m s with
    | (some _, t) => runSteps n t
    | (none, t) => t

/-- `run` after its loop: the result carries the final state. -/
def finishRun (s : State W) : State W :=
  let t : State W := { s with sys := { s.sys with result := { s.sys.result with
    finalEpoch := s.sys.epoch
    committedEventCount := s.sys.committedEventCount
    domainCycles := s.sys.domainCycles } } }
  { t with sys := refreshed m t }

/-- `SimSystem::run` with a bound on the number of steps. -/
def run (bound : ℕ) (s : State W) : State W := finishRun m (runSteps m bound (startRun m s))

/-- What the host may do: the objects it constructs and the calls it makes between steps. -/
structure Host (W : Type) where
  initial : W → Prop := fun _ => True
  calls : (W → Body W) → Prop := fun _ => True

/-- The states a system passes through at step boundaries when every step is taken from a
state that satisfies `ok`: from a fresh system by host calls, by the start of `run` before the
first advance, and by steps. -/
inductive Runs (host : Host W) (ok : State W → Prop) : State W → Prop
  | fresh (w : W) (hw : host.initial w) : Runs host ok (State.fresh m w)
  | host {s : State W} (b : W → Body W) (hb : host.calls b) :
      Runs host ok s → Runs host ok (hostCall m b s)
  | start {s : State W} : Runs host ok s → s.sys.epoch = ⟨0, 0⟩ → Runs host ok (startRun m s)
  | step {s : State W} : Runs host ok s → ok s → Runs host ok (step m s).2

/-- The states of runs with an arbitrary host. -/
def Reaches (ok : State W → Prop) (s : State W) : Prop := Runs m {} ok s

/-- The states of arbitrary runs. -/
def Reachable (s : State W) : Prop := Reaches m (fun _ => True) s

end run

end AgenticCircuit.Gfsim
