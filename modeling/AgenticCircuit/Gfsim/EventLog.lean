import AgenticCircuit.Bindings.Canonical
import AgenticCircuit.Gfsim.Observation

/-! # The event log

`canonicalEvents` of `harness.cpp` writes the committed observations as one canonical JSON object a
line.  What the recorder publishes is well formed in every run (`Recorded.wellFormed`). -/

namespace AgenticCircuit.Gfsim

open Bindings Function List

/-! ### The writer -/

/-- An `llvm::Error` of the harness or of the canonical writer. -/
inductive EventLogError where
  | harness (message : String)
  | json (error : ScanError)

def harnessError {α : Type} (message : String) : Except EventLogError α :=
  .error (.harness ("ACRUN-PREFLIGHT-001: " ++ message))

def tracePhaseName : TraceEventPhase → String
  | .instant => "i"
  | .complete => "X"
  | .counter => "C"
  | .flowStart => "s"
  | .flowEnd => "f"

def observationValue : ObservationValue → JsonValue
  | .bool value => .boolean value
  | .signed value => .integer value
  | .unsigned value => .unsigned value
  | .text value => .string (utf8 value)

/-- A member that is there when the field is set. -/
def optionalMember {α : Type} (name : String) (encode : α → JsonValue) (field : Option α) :
    List (Bytes × JsonValue) :=
  field.toList.map fun value => (utf8 name, encode value)

/-- The arguments that the runtime adds to an event. -/
def runtimeArguments (event : CommittedEvent) : List (Bytes × JsonValue) :=
  [(utf8 "gfsim_epoch_time", .unsigned event.epoch.time),
    (utf8 "gfsim_epoch_delta", .unsigned event.epoch.delta),
    (utf8 "gfsim_object_id", .integer event.ownerId),
    (utf8 "gfsim_local_committed_index", .unsigned event.localCommittedIndex)] ++
  optionalMember "gfsim_root_sequence_id" .unsigned event.rootSequenceId

/-- The loop over the arguments of an event. -/
def addArguments : List (Bytes × JsonValue) → List ObservationArgument →
    Except EventLogError (List (Bytes × JsonValue))
  | arguments, [] => .ok arguments
  | arguments, argument :: rest =>
    if argument.name.startsWith "gfsim_" || arguments.any (·.1 == utf8 argument.name) then
      harnessError "event argument collides with runtime metadata"
    else addArguments (arguments ++ [(utf8 argument.name, observationValue argument.value)]) rest

/-- The object of an event with its arguments. -/
def encodedEvent (event : CommittedEvent) (arguments : List (Bytes × JsonValue)) : JsonValue :=
  .object ([(utf8 "name", .string (utf8 event.name)),
    (utf8 "cat", .string (utf8 event.category)),
    (utf8 "ph", .string (utf8 (tracePhaseName event.phase))),
    (utf8 "ts", .unsigned (event.epoch.time * kMaxDeltasPerTick + event.epoch.delta)),
    (utf8 "pid", .integer 0),
    (utf8 "tid", .integer event.ownerId),
    (utf8 "args", .object arguments)] ++
    (if event.phase = .instant then [(utf8 "s", .string (utf8 "t"))] else []) ++
    optionalMember "dur" .unsigned event.duration ++
    optionalMember "id" .unsigned event.flowId ++
    (if event.phase = .flowEnd then [(utf8 "bp", .string (utf8 "e"))] else []))

section log

variable (library : JsonLibrary)

/-- The line of an event, without its end. -/
def eventLine (event : CommittedEvent) : Except EventLogError Bytes := do
  let arguments ← addArguments (runtimeArguments event) event.arguments
  match canonicalizeJson library {} (encodedEvent event arguments) with
  | .error error => .error (.json error)
  | .ok line => .ok line

/-- The loop of `canonicalEvents`, with the event before. -/
def canonicalEventsAfter : Option CommittedEvent → List CommittedEvent → Except EventLogError Bytes
  | _, [] => .ok []
  | previous, event :: events => do
      if event.ownerId = kInvalidObjectId || kMaxDeltasPerTick ≤ event.epoch.delta ||
          previous.any (fun last => !last.lessEvent event) then
        harnessError "events are not in canonical committed order"
      else if (uint64Max - event.epoch.delta) / kMaxDeltasPerTick < event.epoch.time then
        harnessError "event presentation timestamp overflowed"
      else
        let line ← eventLine library event
        let rest ← canonicalEventsAfter (some event) events
        pure (line ++ '\n'.toUInt8 :: rest)

def canonicalEvents (events : List CommittedEvent) : Except EventLogError Bytes :=
  canonicalEventsAfter library none events

end log

/-! ### What the recorder publishes -/

/-- What `propose` asks of an observation. -/
structure WellFormed (phase : TraceEventPhase) (category name : String)
    (duration flowId : Option ℕ) (arguments : List ObservationArgument) : Prop where
  category : validName category = true
  name : validName name = true
  arguments : ObservationRecorder.argumentsOk none arguments = true
  flowId : flowId.isSome = ObservationRecorder.isFlow phase
  duration : duration.isSome = decide (phase = .complete)

def EventProposal.WellFormed (p : EventProposal) : Prop :=
  Gfsim.WellFormed p.phase p.category p.name p.duration p.flowId p.arguments

def CommittedEvent.WellFormed (e : CommittedEvent) : Prop :=
  Gfsim.WellFormed e.phase e.category e.name e.duration e.flowId e.arguments

namespace ObservationRecorder

/-- The recorder after any calls. -/
inductive Recorded : ObservationRecorder → Prop
  | fresh : Recorded {}
  | propose {r : ObservationRecorder} (proposal : EventProposal) (h : Recorded r) :
      Recorded (r.propose proposal).1
  | commitOwner {r : ObservationRecorder} (owner : ObjectId) (epoch : Epoch) (h : Recorded r) :
      Recorded (r.commitOwner owner epoch).1
  | rejectOwner {r : ObservationRecorder} (owner : ObjectId) (h : Recorded r) :
      Recorded (r.rejectOwner owner)

/-- Every proposal and every event of the recorder is well formed. -/
structure Holds (r : ObservationRecorder) : Prop where
  pending : ∀ owner, ∀ p ∈ r.pending owner, p.WellFormed
  committed : ∀ e ∈ r.committed, e.WellFormed

variable {d e : CommittedEvent} {log : List CommittedEvent} {r : ObservationRecorder}

/-- A proposal that passes the checks is well formed; no other one is kept. -/
theorem propose_cases (r : ObservationRecorder) (proposal : EventProposal) :
    (∃ message, r.propose proposal = ({ r with lastError := message }, false)) ∨
    (proposal.WellFormed ∧ r.propose proposal = ({ r with
      lastError := ""
      pending := update r.pending proposal.ownerId
        (r.pending proposal.ownerId ++ [proposal]) }, true)) := by
  unfold propose
  split_ifs with howner harguments hflow hcomplete hduration
  · exact .inl ⟨_, rfl⟩
  · exact .inl ⟨_, rfl⟩
  · exact .inl ⟨_, rfl⟩
  · exact .inl ⟨_, rfl⟩
  · exact .inl ⟨_, rfl⟩
  · refine .inr ⟨?_, rfl⟩
    simp only [Bool.or_eq_true, Bool.not_eq_true', not_or, Bool.not_eq_false] at howner
    constructor
    · exact howner.1.2
    · exact howner.2
    · simpa using harguments
    · simpa using (by simpa using hflow : isFlow proposal.phase = proposal.flowId.isSome).symm
    · by_cases hphase : proposal.phase = .complete
      · simpa [hphase, Option.isSome_iff_ne_none] using hcomplete
      · simpa [hphase] using hduration

theorem mem_stamp {owner : ObjectId} {epoch : Epoch} :
    ∀ {next : ℕ} {proposals : List EventProposal}, (∀ p ∈ proposals, p.WellFormed) →
      e ∈ stamp owner epoch next proposals → e.WellFormed
  | _, [], _, he => nomatch he
  | next, p :: proposals, hall, he => by
    rw [forall_mem_cons] at hall
    rw [stamp, mem_cons] at he
    rcases he with rfl | he
    · exact hall.1
    · exact mem_stamp hall.2 he

theorem mem_insertLower : d ∈ insertLower e log ↔ d = e ∨ d ∈ log := by
  induction log with
  | nil => simp [insertLower]
  | cons first log ih =>
    rw [insertLower]
    split_ifs
    · rw [mem_cons, ih, mem_cons]
      tauto
    · rw [mem_cons]

theorem mem_foldl_insertLower {additions : List CommittedEvent} :
    d ∈ additions.foldl (fun log e => insertLower e log) log ↔ d ∈ additions ∨ d ∈ log := by
  induction additions generalizing log with
  | nil => simp
  | cons e additions ih =>
    rw [foldl_cons, ih, mem_insertLower, mem_cons]
    tauto

theorem Holds.propose (h : r.Holds) (proposal : EventProposal) : (r.propose proposal).1.Holds := by
  rcases propose_cases r proposal with ⟨message, heq⟩ | ⟨hwell, heq⟩
  · rw [heq]
    exact ⟨h.pending, h.committed⟩
  · rw [heq]
    refine ⟨fun owner p hp => ?_, h.committed⟩
    simp only [update_apply] at hp
    split_ifs at hp with howner
    · rcases mem_append.1 hp with hp | hp
      · exact h.pending _ p hp
      · rwa [mem_singleton.1 hp]
    · exact h.pending owner p hp

theorem Holds.rejectOwner (h : r.Holds) (owner : ObjectId) : (r.rejectOwner owner).Holds := by
  refine ⟨fun owner' p hp => ?_, h.committed⟩
  simp only [ObservationRecorder.rejectOwner, update_apply] at hp
  split_ifs at hp
  · cases hp
  · exact h.pending owner' p hp

/-- A commit fails, has nothing to publish, or publishes what its owner proposed. -/
theorem commitOwner_cases (r : ObservationRecorder) (owner : ObjectId) (epoch : Epoch) :
    (∃ message, r.commitOwner owner epoch = ({ r with lastError := message }, false)) ∨
    (r.pending owner = [] ∧ r.commitOwner owner epoch = ({ r with lastError := "" }, true)) ∨
    ∃ flows, stepFlows (r.pending owner) r.activeFlows = .ok flows ∧
      r.commitOwner owner epoch = ({
        pending := update r.pending owner []
        nextIndices := update r.nextIndices owner (r.nextIndices owner +
          (stamp owner epoch (r.nextIndices owner) (r.pending owner)).length)
        activeFlows := flows
        committed := (stamp owner epoch (r.nextIndices owner) (r.pending owner)).foldl
          (fun log e => insertLower e log) r.committed
        lastCommitEpoch := some epoch
        lastError := "" }, true) := by
  unfold commitOwner
  dsimp only
  split_ifs with howner htime hempty hindex
  · exact .inl ⟨_, rfl⟩
  · exact .inl ⟨_, rfl⟩
  · exact .inr (.inl ⟨List.isEmpty_iff.mp hempty, rfl⟩)
  · exact .inl ⟨_, rfl⟩
  · split
    · exact .inl ⟨_, rfl⟩
    · next flows hflows => exact .inr (.inr ⟨flows, hflows, rfl⟩)

theorem Holds.commitOwner (h : r.Holds) (owner : ObjectId) (epoch : Epoch) :
    (r.commitOwner owner epoch).1.Holds := by
  obtain ⟨message, heq⟩ | ⟨-, heq⟩ | ⟨flows, -, heq⟩ := commitOwner_cases r owner epoch
  · rw [heq]
    exact ⟨h.pending, h.committed⟩
  · rw [heq]
    exact ⟨h.pending, h.committed⟩
  · rw [heq]
    refine ⟨(h.rejectOwner owner).pending, fun e he => ?_⟩
    rcases mem_foldl_insertLower.1 he with he | he
    · exact mem_stamp (h.pending owner) he
    · exact h.committed e he

theorem Recorded.holds (h : Recorded r) : r.Holds := by
  induction h with
  | fresh => exact ⟨fun _ => nofun, nofun⟩
  | propose proposal _ ih => exact ih.propose proposal
  | commitOwner owner epoch _ ih => exact ih.commitOwner owner epoch
  | rejectOwner owner _ ih => exact ih.rejectOwner owner

theorem Recorded.wellFormed (h : Recorded r) : ∀ e ∈ r.committed, e.WellFormed :=
  h.holds.committed

end ObservationRecorder

end AgenticCircuit.Gfsim
