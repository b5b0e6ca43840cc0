import AgenticCircuit.Gfsim.Components
import AgenticCircuit.Gfsim.Stepping
import AgenticCircuit.Gfsim.Stagewise

/-! # Which generated models step as they run

`stepTick` schedules the processes of a model, `run` its processes and its trace sources.  A
model without trace sources starts alike under both drivers, and its result shows no trace
(`Traceless`), so both drivers end alike.  A model with several trace sources is rejected by
the first step of either driver.  With exactly one trace source the drivers part: `stepTick`
never wakes the source.

* **`Generated`** is a generated model of a given mix of objects, with arbitrary methods.
* **`step_traceless`**: no step shows a trace in a model without trace sources. -/

namespace AgenticCircuit.Gfsim

open List hiding beq_eq_decide
open State (fresh)
open Relation (ReflTransGen)

/-! ### Results without a trace -/

/-- The result shows no trace. -/
def Traceless (s : SimSystem) : Prop :=
  s.result.tracePosition = 0 ∧ s.result.traceLastCommittedSequenceId = none

section stages

variable {W : Type} {m : Model W}

/-- Nothing of a trace has been seen. -/
def Tally.Untraced (t : Tally) : Prop :=
  t.tracePosition = 0 ∧ t.traceLastCommittedSequenceId = none

section unowned

variable (howner : ∀ p ∈ m.config.runtimeObjects, ∀ epoch w,
  (m.hooks.runtimeState p epoch w).traceOwner = false)
include howner

/-- A refresh finds no trace where no object owns one. -/
theorem untraced_refresh : Unseen Tally.Untraced (refreshRuntimeSummary m) := by
  refine Exit.carries_modify fun s _ => ?_
  have hnone : (objectStates m s).filter (fun e => e.2.traceOwner) = [] := by
    rw [filter_eq_nil_iff]
    intro e he
    obtain ⟨p, hp, rfl⟩ := mem_map.mp he
    simp [howner p hp]
  constructor
  · simp [SimSystem.tally, refreshed, noProgressOf, hnone]
  · simp [SimSystem.tally, refreshed, noProgressOf, hnone]

theorem step_traceless {s : State W} (hs : Traceless s.sys) : Traceless (step m s).2.sys := by
  have hkeeps : m.Keeps (fun t _ => t.Untraced) fun t _ => t.Untraced :=
    Model.keeps_tally fun _ ht => ht
  have hrefresh := untraced_refresh howner
  have hstep : Unseen Tally.Untraced (step m) := by
    rw [step_eq]
    exact Exit.carries_bind (kept_preflight hkeeps hrefresh fun _ _ _ _ ht => ht) fun _ =>
      kept_afterPreflight hkeeps hrefresh (fun _ _ _ ht => ht) fun _ _ _ _ _ ht _ => ht
  exact Exit.Carries.always hstep hs

theorem Drives.traceless {s t : State W} (h : Drives m s t) (hs : Traceless s.sys) :
    Traceless t.sys := by
  induction h with
  | @last s t h =>
    have ht := step_traceless howner hs
    rw [h] at ht
    exact ht
  | @next s r t h _ ih =>
    have hr := step_traceless howner hs
    rw [h] at hr
    exact ih hr

end unowned

end stages

/-! ### Generated models -/

/-- A generated model without host ports: row `i` of its dispatch table is the object of ID
`i`, these are all its objects, and an object owns a trace exactly when it is a trace source.
Its methods, caps, time domains and activation edges are arbitrary. -/
structure Generated {W : Type} (kinds : List ObjectKind) (m : Model W) : Prop where
  dispatch : m.config.dispatch = List.range kinds.length
  runtimeObjects : m.config.runtimeObjects = List.range kinds.length
  id : ∀ p < kinds.length, (m.config.info p).id = p
  kind : ∀ p < kinds.length, (m.config.info p).kind = kinds.getD p .system
  identities : m.config.identityConflict = none
  owner : ∀ p < kinds.length, ∀ epoch w,
    (m.hooks.runtimeState p epoch w).traceOwner = decide (kinds.getD p .system = .traceSource)

section generated

variable {W : Type} {m : Model W} {kinds : List ObjectKind}

theorem startAll_eq (ids : List ObjectId) (s : SimSystem) : ∃ work trail,
    s.startAll ids = { s with scheduledWork := work, trail := trail } := by
  induction ids generalizing s with
  | nil => exact ⟨s.scheduledWork, s.trail, rfl⟩
  | cons id ids ih =>
    obtain ⟨work, trail, h⟩ := ih (s.insertWork .host id ⟨0, 0⟩)
    exact ⟨work, trail, h.trans rfl⟩

theorem getD_ne_traceSource (hnone : kinds.count .traceSource = 0) {p : ℕ}
    (hp : p < kinds.length) : kinds.getD p .system ≠ .traceSource := by
  intro heq
  refine count_eq_zero.mp hnone ?_
  rw [← heq, getD_eq_getElem?_getD, getElem?_eq_getElem hp]
  exact getElem_mem hp

namespace Generated

variable (hgen : Generated kinds m)
include hgen

theorem lookup_isSome {p : Ptr} (hp : p < kinds.length) :
    (m.config.lookup (m.config.info p).id).isSome = true := by
  rw [hgen.id p hp]
  simp [Config.lookup, hgen.dispatch, hp]

theorem lookup_processIds : ∀ id ∈ processIds m, (m.config.lookup id).isSome = true := by
  intro id hid
  obtain ⟨p, hp, rfl⟩ := mem_map.mp hid
  have hrow := (mem_filter.mp hp).1
  rw [hgen.dispatch, mem_range] at hrow
  exact hgen.lookup_isSome hrow

theorem lookup_starterIds : ∀ id ∈ starterIds m, (m.config.lookup id).isSome = true := by
  intro id hid
  obtain ⟨p, hp, rfl⟩ := mem_map.mp hid
  have hrow := (mem_filter.mp hp).1
  rw [hgen.runtimeObjects, mem_range] at hrow
  exact hgen.lookup_isSome hrow

theorem owners_length (s : State W) :
    ((objectStates m s).filter fun e => e.2.traceOwner).length = kinds.count .traceSource := by
  have hkinds : kinds = (List.range kinds.length).map fun p => kinds.getD p .system := by
    refine ext_getElem (by simp) fun i hi _ => ?_
    simp [hi]
  conv_rhs => rw [hkinds]
  rw [objectStates, hgen.runtimeObjects, filter_map, length_map, count_eq_countP,
    countP_map, countP_eq_length_filter]
  refine congrArg List.length (filter_congr fun p hp => ?_)
  rw [mem_range] at hp
  simp [hgen.owner p hp, beq_eq_decide]

theorem starterIds_eq (hnone : kinds.count .traceSource = 0) : starterIds m = processIds m := by
  unfold starterIds processIds
  rw [hgen.runtimeObjects, hgen.dispatch]
  refine congrArg (List.map _) (filter_congr fun p hp => ?_)
  rw [mem_range] at hp
  rw [hgen.kind p hp, decide_eq_false (getD_ne_traceSource hnone hp), Bool.or_false]

theorem unowned (hnone : kinds.count .traceSource = 0) : ∀ p ∈ m.config.runtimeObjects,
    ∀ epoch w, (m.hooks.runtimeState p epoch w).traceOwner = false := by
  intro p hp epoch w
  rw [hgen.runtimeObjects, mem_range] at hp
  rw [hgen.owner p hp]
  exact decide_eq_false (getD_ne_traceSource hnone hp)

theorem stepsAsRun_without (hnone : kinds.count .traceSource = 0) (w : W) : StepsAsRun m w := by
  have hsame : ∀ t, Drives m ⟨(fresh m w).sys.startAll (processIds m), w⟩ t →
      (finishRun m t).outcome = t.outcome := by
    intro t hdrives
    have hsynced := hdrives.synced (atBoundary_startAll w _)
    have hstart : Traceless ((fresh m w).sys.startAll (processIds m)) := by
      obtain ⟨work, trail, h⟩ := startAll_eq (processIds m) (fresh m w).sys
      rw [h]
      exact ⟨rfl, rfl⟩
    have ht := hdrives.traceless (hgen.unowned hnone) hstart
    have hzero : (objectStates m t).filter (fun e => e.2.traceOwner) = [] := by
      rw [← length_eq_zero_iff, hgen.owners_length, hnone]
    refine outcome_finishRun hsynced ?_ ?_
    · simp [noProgressOf, hzero, ht.1]
    · simp [noProgressOf, hzero, ht.2]
  intro out
  rw [stepsTo_iff hgen.lookup_processIds, runsTo_iff hgen.lookup_starterIds,
    hgen.starterIds_eq hnone]
  constructor
  · rintro ⟨t, hdrives, rfl⟩
    exact ⟨t, hdrives, hsame t hdrives⟩
  · rintro ⟨t, hdrives, rfl⟩
    exact ⟨t, hdrives, (hsame t hdrives).symm⟩

/-- The state in which the first step rejects a second trace source. -/
def rejected (_ : Generated kinds m) (ids : List ObjectId) (w : W) : State W :=
  ⟨(refreshed m ⟨{ (State.fresh m w).sys.startAll ids with preflightValidated := true }, w⟩).fail
    .multipleTraceOwners, w⟩

theorem step_rejected (hmany : 1 < kinds.count .traceSource) (ids : List ObjectId) (w : W) :
    step m ⟨(fresh m w).sys.startAll ids, w⟩ = (none, hgen.rejected ids w) := by
  obtain ⟨work, trail, hstart⟩ := startAll_eq ids (fresh m w).sys
  have hvalid : validateRuntimeIdentities m ⟨(fresh m w).sys.startAll ids, w⟩ = (some (),
      ⟨{ (fresh m w).sys.startAll ids with preflightValidated := true }, w⟩) := by
    unfold validateRuntimeIdentities
    rw [Exit.get_bind, hgen.identities, hstart]
    rfl
  have hcap : stopAtTraceCap m
      ⟨{ (fresh m w).sys.startAll ids with preflightValidated := true }, w⟩ =
      (none, hgen.rejected ids w) := by
    have hcount : (refreshed m ⟨{ (fresh m w).sys.startAll ids with
        preflightValidated := true }, w⟩).traceOwnerCount = kinds.count .traceSource :=
      hgen.owners_length _
    have hends := stopAtTraceCap_ends (m := m)
      (s := ⟨{ (fresh m w).sys.startAll ids with preflightValidated := true }, w⟩)
      (Φ := fun o t => (o, t) = (none, hgen.rejected ids w)) (fun _ => rfl) ?_ ?_
    · exact hends
    · intro hone
      omega
    · intro hgo
      rcases hgo with hzero | ⟨hone, _⟩
      · omega
      · omega
  have hpreflight : preflight m ⟨(fresh m w).sys.startAll ids, w⟩ =
      (none, hgen.rejected ids w) := by
    refine (Exit.bind_of_eq_some (a := ()) (r := ⟨(fresh m w).sys.startAll ids, w⟩) ?_).trans
      ((Exit.bind_of_eq_some hvalid).trans (Exit.bind_of_eq_none hcap))
    rw [hstart]
    rfl
  exact Exit.bind_of_eq_none (Exit.bind_of_eq_none (Exit.bind_of_eq_none
    (Exit.bind_of_eq_none hpreflight)))

theorem outcome_rejected (ids ids' : List ObjectId) (w : W) :
    (finishRun m (hgen.rejected ids w)).outcome = (hgen.rejected ids' w).outcome := by
  obtain ⟨work, trail, h⟩ := startAll_eq ids (fresh m w).sys
  obtain ⟨work', trail', h'⟩ := startAll_eq ids' (fresh m w).sys
  unfold rejected
  rw [h, h']
  rfl

theorem stepsAsRun_several (hmany : 1 < kinds.count .traceSource) (w : W) : StepsAsRun m w := by
  intro out
  rw [stepsTo_iff hgen.lookup_processIds, runsTo_iff hgen.lookup_starterIds]
  have hlast (ids : List ObjectId) : Drives m ⟨(fresh m w).sys.startAll ids, w⟩
      (hgen.rejected ids w) := .last (hgen.step_rejected hmany ids w)
  constructor
  · rintro ⟨t, hdrives, rfl⟩
    refine ⟨_, hlast _, ?_⟩
    rw [hdrives.unique (hlast _)]
    exact hgen.outcome_rejected _ _ w
  · rintro ⟨t, hdrives, rfl⟩
    refine ⟨_, hlast _, ?_⟩
    rw [hdrives.unique (hlast _)]
    exact (hgen.outcome_rejected _ _ w).symm

end Generated

/-- A generated model that has no trace source, or more than one, steps as it runs. -/
theorem stepTick_agrees_with_run {W : Type} {m : Model W} {kinds : List ObjectKind}
    (hgen : Generated kinds m) (hsources : kinds.count .traceSource ≠ 1) (w : W) :
    StepsAsRun m w := by
  rcases Nat.lt_or_gt_of_ne hsources with hless | hmore
  · exact hgen.stepsAsRun_without (by omega) w
  · exact hgen.stepsAsRun_several hmore w

/-- One process that counts its activations. -/
theorem stepTick_agrees_with_run_process :
    StepsAsRun ⟨Config.ofKinds [.process], { doWork := fun _ _ w => pure (w + 1) }⟩ 0 := by
  refine @stepTick_agrees_with_run ℕ _ [.process] ?_ (by decide) 0
  exact {
    dispatch := rfl
    runtimeObjects := rfl
    id := fun _ _ => rfl
    kind := fun _ _ => rfl
    identities := rfl
    owner := fun p hp _ _ => by
      have hzero : p = 0 := by simpa using hp
      rw [hzero]
      rfl }

end generated

/-! ### The methods of a trace source -/

/-- A trace source with its pending wake for the issue time of the next record. -/
structure TracePlayer (α : Type) where
  source : TraceSource α
  issueWakeScheduled : Bool := false

namespace TracePlayer

variable {α : Type}

def kIssueEventKind : ℕ := 0x54524345

/-- Offer the next record once its issue time has come and its dependencies are complete.  A
record of the future asks for one event at its issue time. -/
def doWork (id : ObjectId) (decoder : PtoTraceRecord → Option α) (epoch : Epoch)
    (p : TracePlayer α) : Body (TracePlayer α) :=
  let t := p.source
  if t.endOfTrace || t.committedOffer.isSome || t.offerProposal.isSome || t.acceptProposal then
    pure p
  else
    match t.records[t.nextRecordIndex]? with
    | none => pure p
    | some record =>
      match record.issueTime.filter (epoch.time < ·) with
      | some time =>
        if p.issueWakeScheduled then pure p
        else
          .scheduleEvent ⟨⟨time, 0⟩, id, kIssueEventKind, record.sequenceId, 0⟩ fun accepted =>
            if accepted then pure { p with issueWakeScheduled := true }
            else pure { p with source :=
              { t with runtimeFailureCode := "trace_issue_wake_failed" } }
      | none =>
        if !(t.openDependencies record).isEmpty then pure { p with issueWakeScheduled := false }
        else
          match decoder record with
          | none => pure ⟨{ t with runtimeFailureCode := "trace_decode_failed" }, false⟩
          | some offer =>
            pure ⟨{ t with
              offerProposal := some offer
              proposedSequenceId := some record.sequenceId }, false⟩

/-- The observation of an offer at its position in the trace. -/
def observation (id : ObjectId) (name : String) (sequenceId position : ℕ) : EventProposal where
  ownerId := id
  category := "transaction"
  name := name
  rootSequenceId := some sequenceId
  arguments := [⟨"trace_position", .unsigned position⟩]

def doArbitrate (id : ObjectId) (p : TracePlayer α) : Body (TracePlayer α) :=
  let t := p.source
  let accepted : Option EventProposal := if !t.acceptProposal then none
    else t.committedSequenceId.map fun s => observation id "accepted" s (t.nextRecordIndex + 1)
  let offered : Option EventProposal := if t.offerProposal.isNone then none
    else t.proposedSequenceId.map fun s => observation id "offered" s t.nextRecordIndex
  match accepted, offered with
  | none, none => pure p
  | some a, none => .proposeObservation a fun _ => pure p
  | none, some o => .proposeObservation o fun _ => pure p
  | some a, some o => .proposeObservation a fun _ => .proposeObservation o fun _ => pure p

/-- A generated model of one trace source. -/
def model (decoder : PtoTraceRecord → Option α) : Model (TracePlayer α) where
  config := Config.ofKinds [.traceSource]
  hooks := {
    doWork := fun p epoch => doWork p decoder epoch
    doArbitrate := fun p _ => doArbitrate p
    doXfer := fun _ _ w => pure { w with source := w.source.doXfer }
    hasPendingCommit := fun _ w => w.source.hasPendingCommit
    runtimeFailureCode := fun _ w => w.source.runtimeFailureCode
    runtimeState := fun _ epoch w => w.source.runtimeState epoch }

theorem model_generated (decoder : PtoTraceRecord → Option α) :
    Generated [.traceSource] (model decoder) where
  dispatch := rfl
  runtimeObjects := rfl
  id _ _ := rfl
  kind _ _ := rfl
  identities := rfl
  owner p hp epoch w := by
    have hzero : p = 0 := by simpa using hp
    have howner : (w.source.runtimeState epoch).traceOwner = true := by
      unfold TraceSource.runtimeState
      dsimp only
      split
      · rfl
      split
      · rfl
      split
      · rfl
      split <;> rfl
    rw [hzero]
    exact howner

end TracePlayer

/-- A run ends in at most one way. -/
theorem RunsTo.unique {W : Type} {m : Model W} {kinds : List ObjectKind} {w : W}
    {out out' : Outcome W} (hgen : Generated kinds m) (h : RunsTo m w out)
    (h' : RunsTo m w out') : out = out' := by
  obtain ⟨t, hdrives, rfl⟩ := (runsTo_iff hgen.lookup_starterIds out).mp h
  obtain ⟨t', hdrives', rfl⟩ := (runsTo_iff hgen.lookup_starterIds out').mp h'
  rw [hdrives.unique hdrives']

/-- A trace of one record is never offered to a model that is stepped. -/
theorem stepTick_misses_trace :
    Generated [.traceSource] (TracePlayer.model fun _ => some ()) ∧
      ¬ StepsAsRun (TracePlayer.model fun _ => some ())
        ⟨TraceSource.construct [⟨7, none, []⟩], false⟩ := by
  let m : Model (TracePlayer Unit) := TracePlayer.model fun _ => some ()
  let w : TracePlayer Unit := ⟨TraceSource.construct [⟨7, none, []⟩], false⟩
  have hgen : Generated [.traceSource] m := TracePlayer.model_generated _
  have hfirst : (stepTicks m 1 1 ⟨State.fresh m w, false⟩).map
      (fun x => x.state.world.source.committedOffer) = some none := by decide +kernel
  have hoffers : (run m 1 (State.fresh m w)).world.source.committedOffer = some () := by
    decide +kernel
  have hends : (runSteps m 1 (startRun m (State.fresh m w))).sys.terminated = true := by
    decide +kernel
  refine ⟨hgen, fun hsame => ?_⟩
  obtain ⟨x, hx, hnone⟩ := Option.map_eq_some_iff.mp hfirst
  have hruns : RunsTo m w x.state.outcome := (hsame _).mp ⟨1, 1, x, hx, rfl⟩
  have heq := hruns.unique hgen ⟨1, hends, rfl⟩
  have hworld : x.state.world = (run m 1 (State.fresh m w)).world := congrArg Outcome.world heq
  rw [hworld, hoffers] at hnone
  cases hnone

end AgenticCircuit.Gfsim
