import AgenticCircuit.Gfsim.System

/-! # The moves of a step

`step` is a long program over a large record.  This module says once what it can do, as a
relation between states, and every invariant of the scheduler is then a case analysis over
that relation.

* **`Call`** are the effects of one call of the system's interface; `Body.exec_calls` says that
  a method of an object is a path of calls.
* **`Move`** adds the scheduler's own updates, each with the facts that hold where it is made.
* **`Trans`** are the moves together with the methods of the objects.
* **`Halt`** are the early returns of `step` and **`Selected`** the outcomes of choosing the
  next epoch.

`Control` is the part of the system that locates the current step: calls leave it alone. -/

namespace AgenticCircuit.Gfsim

open SimSystem Or List

open Relation (ReflTransGen)
variable {c : Config} {s t : SimSystem}

/-! ### Control -/

/-- Where the system stands in its current step. -/
structure Control where
  epoch : Epoch
  terminated : Bool
  executingEpoch : Bool
  currentWork : List ObjectId
  xferObjects : List ObjectId
  committedSources : List ObjectId
  traceEndProcesses : List ObjectId
  activeProposalOwner : Option ObjectId
  lastCommitTick : ObjectId → Option ℕ
  inFlight : Option Event
  workDone : List ObjectId
  gathered : Bool
  xferDone : List ObjectId

def SimSystem.control (s : SimSystem) : Control :=
  { epoch := s.epoch
    terminated := s.terminated
    executingEpoch := s.executingEpoch
    currentWork := s.currentWork
    xferObjects := s.xferObjects
    committedSources := s.committedSources
    traceEndProcesses := s.traceEndProcesses
    activeProposalOwner := s.activeProposalOwner
    lastCommitTick := s.lastCommitTick
    inFlight := s.trail.inFlight
    workDone := s.trail.workDone
    gathered := s.trail.gathered
    xferDone := s.trail.xferDone }

/-! ### Calls -/

/-- The diagnostics a call of the interface can raise. -/
def Diagnostic.ofCall : Diagnostic → Bool
  | .invalidObservationOwner | .invalidObservationProposal _ | .unknownCommitParticipant
  | .scheduledWorkDelta | .workBeforeCurrentEpoch | .unknownWorkTarget | .continuationDelta
  | .scheduledEventDelta | .eventBeforeCurrentEpoch | .unknownEventTarget
  | .eventSequenceOverflow | .eventQueueCapacityExceeded => true
  | _ => false

/-- What the recorded cause of a scheduled Work means in the state that schedules it. -/
def Cause.Justified (c : Config) (s : SimSystem) (id : ObjectId) (epoch : Epoch) :
    Cause → Prop
  | .host => s.executingEpoch = false
  | .object => s.executingEpoch = true
  | .event due => s.trail.inFlight = some due ∧
      (epoch = s.epoch ∨ (s.executingEpoch = true ∧ epoch = s.epoch.nextDelta))
  | .activation source tick => s.executingEpoch = true ∧ tick = s.epoch.time ∧
      source ∈ s.committedSources ∧ id ∈ c.activation.targetsFor source ∧
      epoch = ⟨tick + 1, 0⟩
  | .traceEnd => id ∈ s.traceEndProcesses ∧ epoch = ⟨s.epoch.time + 1, 0⟩

/-- The effect of one call of the system's interface on a live system. -/
inductive Call (c : Config) : SimSystem → SimSystem → Prop
  | schedule {s : SimSystem} {cause : Cause} {id : ObjectId} {epoch : Epoch}
      (live : s.terminated = false) (hle : s.epoch ≤ epoch)
      (hlt : s.executingEpoch = true → s.epoch < epoch)
      (hdelta : epoch.delta < kMaxDeltasPerTick) (htarget : (c.lookup id).isSome)
      (hcause : cause.Justified c s id epoch) : Call c s (s.insertWork cause id epoch)
  | accept {s : SimSystem} {event : Event} (live : s.terminated = false)
      (hle : s.epoch ≤ event.readyTime) (hdelta : event.readyTime.delta < kMaxDeltasPerTick)
      (htarget : (c.lookup event.targetId).isSome)
      (hsequence : event.sequence = s.nextEventSequence) : Call c s (s.acceptEvent event)
  | skipSequence {s : SimSystem} (live : s.terminated = false) :
      Call c s { s with nextEventSequence := s.nextEventSequence + 1 }
  | register {s : SimSystem} {id : ObjectId} (live : s.terminated = false)
      (executing : s.executingEpoch = true) (howner : s.activeProposalOwner.isSome)
      (htarget : (c.lookup id).isSome) :
      Call c s { s with commitParticipants := insertSet (fun i => i) id s.commitParticipants }
  | observe {s : SimSystem} (observations : ObservationRecorder) (live : s.terminated = false) :
      Call c s { s with observations := observations }
  | fail {s : SimSystem} {d : Diagnostic} (live : s.terminated = false)
      (hd : d.ofCall = true) : Call c s (s.fail d)

section calls

variable {c : Config} {s t : SimSystem}

theorem Call.live (h : Call c s t) : s.terminated = false := by
  cases h <;> assumption

theorem Call.control_eq (h : Call c s t) : t.control =
    { s.control with terminated := t.terminated, executingEpoch := t.executingEpoch } := by
  cases h <;> rfl

theorem Call.executing_eq (h : Call c s t) (ht : t.terminated = false) :
    t.executingEpoch = s.executingEpoch := by
  cases h with
  | fail live hd => cases ht
  | _ => rfl

theorem Call.xferDone_prefix (h : Call c s t) : t.trail.xferDone <+: s.trail.xferDone := by
  cases h <;> exact prefix_rfl

theorem not_call_of_terminated (hs : s.terminated = true) : ¬ Call c s t := by
  intro h
  rw [h.live] at hs
  cases hs

theorem control_eq_of_calls (h : ReflTransGen (Call c) s t) : t.control =
    { s.control with terminated := t.terminated, executingEpoch := t.executingEpoch } := by
  induction h with
  | refl => rfl
  | tail _ hstep ih => rw [hstep.control_eq, ih]

theorem control_eq_of_calls_live (h : ReflTransGen (Call c) s t) (ht : t.terminated = false) :
    t.control = s.control := by
  induction h with
  | refl => rfl
  | tail _ hstep ih =>
    rw [hstep.control_eq, ← ih hstep.live, ht, hstep.executing_eq ht, ← hstep.live]
    rfl

theorem eq_of_calls_of_terminated (h : ReflTransGen (Call c) s t) (hs : s.terminated = true) :
    t = s := by
  rcases Relation.ReflTransGen.cases_head h with h | ⟨r, hr, _⟩
  · exact h.symm
  · exact absurd hr (not_call_of_terminated hs)

end calls

/-! ### The interface as calls -/

namespace SimSystem

variable {c : Config} {s : SimSystem}

/-- What `scheduleWork` does: it ends the run, or it puts the object on the schedule at the
requested epoch or, for the executing epoch, at the next delta. -/
theorem scheduleWork_cases (cause : Cause) (id : ObjectId) (epoch : Epoch) :
    ((s.scheduleWork c cause id epoch).2 = false ∧
      ((s.terminated = true ∧ (s.scheduleWork c cause id epoch).1 = s) ∨
        (s.terminated = false ∧ ∃ d : Diagnostic, d.ofCall = true ∧
          (s.scheduleWork c cause id epoch).1 = s.fail d))) ∨
    ((s.scheduleWork c cause id epoch).2 = true ∧ s.terminated = false ∧
      ∃ e : Epoch, s.epoch ≤ e ∧ (s.executingEpoch = true → s.epoch < e) ∧
        e.delta < kMaxDeltasPerTick ∧ (c.lookup id).isSome ∧
        (e = epoch ∨ (s.executingEpoch = true ∧ epoch = s.epoch ∧ e = s.epoch.nextDelta)) ∧
        (s.scheduleWork c cause id epoch).1 = s.insertWork cause id e) := by
  unfold scheduleWork
  split
  · rename_i hterm
    exact inl ⟨rfl, inl ⟨hterm, rfl⟩⟩
  rename_i hterm
  have live : s.terminated = false := by simpa using hterm
  split
  · exact inl ⟨rfl, inr ⟨live, _, rfl, rfl⟩⟩
  rename_i hdelta
  split
  · exact inl ⟨rfl, inr ⟨live, _, rfl, rfl⟩⟩
  rename_i hle
  split
  · exact inl ⟨rfl, inr ⟨live, _, rfl, rfl⟩⟩
  rename_i htarget
  have htarget : (c.lookup id).isSome := by
    simpa [Option.isSome_iff_ne_none] using htarget
  have hle : s.epoch ≤ epoch := not_lt.mp hle
  split
  · rename_i hcur
    obtain ⟨hexec, heq⟩ : s.executingEpoch = true ∧ epoch = s.epoch := by simpa using hcur
    split
    · exact inl ⟨rfl, inr ⟨live, _, rfl, rfl⟩⟩
    · rename_i hnext
      refine inr ⟨rfl, live, s.epoch.nextDelta, le_of_lt s.epoch.lt_nextDelta,
        fun _ => s.epoch.lt_nextDelta, not_le.mp hnext, htarget, inr ⟨hexec, heq, rfl⟩, rfl⟩
  · rename_i hcur
    refine inr ⟨rfl, live, epoch, hle, fun hexec => lt_of_le_of_ne hle ?_, not_le.mp hdelta,
      htarget, inl rfl, rfl⟩
    rintro rfl
    simp [hexec] at hcur

/-- A call of `scheduleWork` whose cause is justified at the requested epoch, or at the next
delta when the requested epoch is executing. -/
theorem scheduleWork_calls {cause : Cause} {id : ObjectId} {epoch : Epoch}
    (hcause : s.terminated = false → ∀ e, (e = epoch ∨ (s.executingEpoch = true ∧
      epoch = s.epoch ∧ e = s.epoch.nextDelta)) → cause.Justified c s id e) :
    ReflTransGen (Call c) s (s.scheduleWork c cause id epoch).1 := by
  rcases scheduleWork_cases (c := c) (s := s) cause id epoch with
    ⟨_, ⟨_, h⟩ | ⟨live, d, hd, h⟩⟩ | ⟨_, live, e, hle, hlt, hdelta, htarget, he, h⟩
  · rw [h]
  · rw [h]
    exact .single (.fail live hd)
  · rw [h]
    exact .single (.schedule live hle hlt hdelta htarget (hcause live e he))

theorem scheduleEvent_calls (event : Event) :
    ReflTransGen (Call c) s (s.scheduleEvent c event).1 := by
  unfold scheduleEvent
  split
  · exact .refl
  rename_i hterm
  have live : s.terminated = false := by simpa using hterm
  split
  · exact .single (.fail live rfl)
  rename_i hdelta
  split
  · exact .single (.fail live rfl)
  rename_i hle
  split
  · exact .single (.fail live rfl)
  rename_i htarget
  split
  · exact .single (.fail live rfl)
  split
  · refine .tail (.single (.skipSequence live)) (.fail ?_ rfl)
    exact live
  · refine .single (.accept live (not_lt.mp hle) (not_le.mp hdelta) ?_ rfl)
    simpa [Option.isSome_iff_ne_none] using htarget

theorem registerCommitParticipant_calls (id : ObjectId) :
    ReflTransGen (Call c) s (s.registerCommitParticipant c id).1 := by
  unfold registerCommitParticipant
  split
  · exact .refl
  rename_i hopen
  obtain ⟨live, executing, howner⟩ :
      s.terminated = false ∧ s.executingEpoch = true ∧ s.activeProposalOwner.isSome := by
    simpa [Option.isSome_iff_ne_none, and_assoc] using hopen
  split
  · exact .single (.fail live rfl)
  · rename_i htarget
    refine .single (.register live executing howner ?_)
    simpa [Option.isSome_iff_ne_none] using htarget

theorem proposeObservation_calls (proposal : EventProposal) :
    ReflTransGen (Call c) s (s.proposeObservation c proposal).1 := by
  unfold proposeObservation
  split
  · exact .refl
  rename_i hopen
  have live : s.terminated = false := by
    cases hterm : s.terminated with
    | false => rfl
    | true => simp [hterm] at hopen
  split
  · exact .single (.fail live rfl)
  · dsimp only
    split
    · exact .single (.observe _ live)
    · refine .tail (.single (.observe _ live)) (.fail ?_ rfl)
      exact live

end SimSystem

theorem Body.exec_calls {W : Type} (c : Config) (b : Body W) :
    ∀ s : SimSystem, ReflTransGen (Call c) s (b.exec c s).1 := by
  induction b with
  | done w => exact fun _ => .refl
  | scheduleWork id epoch next ih =>
    intro s
    refine .trans (scheduleWork_calls fun _ e _ => ?_) (ih _ _)
    unfold caller
    split
    · assumption
    · rename_i hexec
      exact (Bool.not_eq_true _).mp hexec
  | scheduleEvent event next ih =>
    exact fun s => (scheduleEvent_calls event).trans (ih _ _)
  | registerCommitParticipant id next ih =>
    exact fun s => (registerCommitParticipant_calls id).trans (ih _ _)
  | proposeObservation proposal next ih =>
    exact fun s => (proposeObservation_calls proposal).trans (ih _ _)
  | view next ih => exact fun s => ih _ s

/-! ### Moves -/

/-- No committed event at the front of the queue is due at the current epoch. -/
def NoneDue (s : SimSystem) : Prop :=
  ∀ event, s.eventQueue.nextEvent = some event → event.readyTime ≠ s.epoch

/-- One update of the system in a step, with what holds where it is made. -/
inductive Move (c : Config) : SimSystem → SimSystem → Prop
  | call {s t : SimSystem} (h : Call c s t) : Move c s t
  | note {s : SimSystem} (result : TerminationResult) (noProgress : NoProgressReport)
      (traceOwnerCount : ℕ) (traceEof preflightValidated : Bool)
      (domainCycles : List (String × ℕ)) (activeProposalOwner : Option ObjectId)
      (observations : ObservationRecorder) (live : s.terminated = false)
      (hdiagnostic : result.diagnostic = s.result.diagnostic)
      (hclass : result.classification = s.result.classification)
      (hfinal : result.finalEpoch = s.result.finalEpoch) :
      Move c s { s with
        result := result, noProgress := noProgress, traceOwnerCount := traceOwnerCount
        traceEof := traceEof, preflightValidated := preflightValidated
        domainCycles := domainCycles, activeProposalOwner := activeProposalOwner
        observations := observations }
  | mark {s : SimSystem} (processes : List ObjectId) (live : s.terminated = false)
      (executing : s.executingEpoch = true) :
      Move c s { s with traceEndProcesses := processes }
  | take {s : SimSystem} {event : Event} {rest : List Event} (live : s.terminated = false)
      (hcommitted : s.eventQueue.committed = event :: rest)
      (hready : event.readyTime = s.epoch) (hcap : s.committedEventCount < c.maxEvents)
      (hfree : s.trail.inFlight = none) : Move c s (s.takeEvent event)
  | count {s : SimSystem} {event : Event} (live : s.terminated = false)
      (hflight : s.trail.inFlight = some event) : Move c s (s.countEvent event)
  | openEpoch {s : SimSystem} (live : s.terminated = false)
      (hclosed : s.executingEpoch = false) (hfree : s.trail.inFlight = none)
      (htime : s.epoch.time < c.maxTicks) (hnone : NoneDue s) : Move c s s.openEpoch
  | startWork {s : SimSystem} {id : ObjectId} {rest : List ObjectId}
      (live : s.terminated = false) (executing : s.executingEpoch = true)
      (hwork : s.currentWork = s.trail.workDone ++ id :: rest) : Move c s (s.startWork id)
  | gather {s : SimSystem} (live : s.terminated = false) (executing : s.executingEpoch = true)
      (hwork : s.currentWork = s.trail.workDone) (hopen : s.trail.gathered = false)
      (hdone : s.trail.xferDone = []) : Move c s s.gatherParticipants
  | markXfer {s : SimSystem} {id : ObjectId} {rest : List ObjectId}
      (live : s.terminated = false) (executing : s.executingEpoch = true)
      (gathered : s.trail.gathered = true)
      (hxfer : s.xferObjects = s.trail.xferDone ++ id :: rest) : Move c s (s.markXfer id)
  | publish {s : SimSystem} {id : ObjectId} {done : List ObjectId}
      (live : s.terminated = false) (executing : s.executingEpoch = true)
      (gathered : s.trail.gathered = true) (hdone : s.trail.xferDone = done ++ [id])
      (hfirst : s.committedThisTick c id = false) : Move c s (s.markCommitted c id)
  | commitEvents {s : SimSystem} (live : s.terminated = false)
      (executing : s.executingEpoch = true) (gathered : s.trail.gathered = true)
      (hxfer : s.xferObjects = s.trail.xferDone) : Move c s s.commitEvents
  | asked {s : SimSystem} {source target : ObjectId} {accepts : Bool}
      (live : s.terminated = false) (executing : s.executingEpoch = true)
      (hsource : source ∈ s.committedSources)
      (htarget : target ∈ c.activation.targetsFor source)
      (haccepts : accepts = true → ⟨⟨s.epoch.time + 1, 0⟩, target⟩ ∈ s.scheduledWork) :
      Move c s (s.record (.asked source target s.epoch accepts))
  | close {s : SimSystem} (live : s.terminated = false) (executing : s.executingEpoch = true)
      (hfree : s.trail.inFlight = none) (hwork : s.currentWork = s.trail.workDone)
      (gathered : s.trail.gathered = true) (hxfer : s.xferObjects = s.trail.xferDone)
      (hasked : ∀ source ∈ s.committedSources, ∀ target ∈ c.activation.targetsFor source,
        ∃ accepts, .asked source target s.epoch accepts ∈ s.trail.history)
      (hproposals : s.eventQueue.pushProposals = []) : Move c s s.closeEpoch

theorem Move.live (h : Move c s t) : s.terminated = false := by
  cases h with
  | call h => exact h.live
  | _ => assumption

theorem moves_of_calls (h : ReflTransGen (Call c) s t) : ReflTransGen (Move c) s t :=
  Relation.ReflTransGen.mono (fun _ _ h => Move.call h) _ _ h

theorem Move.epoch_eq (h : Move c s t) : t.epoch = s.epoch := by
  cases h with
  | call h => cases h <;> rfl
  | commitEvents =>
    unfold SimSystem.commitEvents
    split <;> rfl
  | _ => rfl

/-- What holds in the state in which an occurrence is recorded. -/
def Occurrence.Justified (c : Config) (s : SimSystem) : Occurrence → Prop
  | .accepted due => s.epoch ≤ due.readyTime ∧ due.sequence = s.nextEventSequence
  | .scheduled id e cause => s.epoch ≤ e ∧ cause.Justified c s id e
  | .delivered due e => e = s.epoch ∧ s.trail.inFlight = some due
  | .worked id e => e = s.epoch ∧ s.executingEpoch = true ∧ id ∈ s.currentWork
  | .xferred _ e => e = s.epoch ∧ s.executingEpoch = true
  | .published id e =>
    e = s.epoch ∧ s.executingEpoch = true ∧ s.committedThisTick c id = false
  | .eventsPublished e => e = s.epoch
  | .asked source target e accepts => e = s.epoch ∧
      (accepts = true → ⟨⟨s.epoch.time + 1, 0⟩, target⟩ ∈ s.scheduledWork) ∧
      source ∈ s.committedSources

/-- The past is never rewritten, and what is added is justified where it is added. -/
theorem Move.history_append (h : Move c s t) :
    ∃ os, t.trail.history = s.trail.history ++ os ∧ ∀ o ∈ os, o.Justified c s := by
  have hone {o : Occurrence} (ho : o.Justified c s) : ∀ o' ∈ [o], o'.Justified c s := by
    intro o' ho'
    rw [mem_singleton.mp ho']
    exact ho
  have hnone : s.trail.history = s.trail.history ++ [] := (append_nil _).symm
  cases h with
  | call h =>
    cases h with
    | schedule live hle hlt hdelta htarget hcause => exact ⟨_, rfl, hone ⟨hle, hcause⟩⟩
    | accept live hle hdelta htarget hsequence => exact ⟨_, rfl, hone ⟨hle, hsequence⟩⟩
    | _ => exact ⟨[], hnone, nofun⟩
  | commitEvents =>
    unfold SimSystem.commitEvents
    split
    · exact ⟨_, rfl, hone rfl⟩
    · exact ⟨[], hnone, nofun⟩
  | count live hflight => exact ⟨_, rfl, hone ⟨rfl, hflight⟩⟩
  | startWork live executing hwork =>
    refine ⟨_, rfl, hone ⟨rfl, executing, ?_⟩⟩
    rw [hwork]
    exact mem_append_right _ mem_cons_self
  | markXfer live executing => exact ⟨_, rfl, hone ⟨rfl, executing⟩⟩
  | publish live executing _ _ hfirst => exact ⟨_, rfl, hone ⟨rfl, executing, hfirst⟩⟩
  | asked live executing hsource _ haccepts => exact ⟨_, rfl, hone ⟨rfl, haccepts, hsource⟩⟩
  | _ => exact ⟨[], hnone, nofun⟩

theorem Move.result_cases (h : Move c s t) :
    (t.result.diagnostic = s.result.diagnostic ∧ t.result.classification = s.result.classification ∧
      t.result.finalEpoch = s.result.finalEpoch ∧ t.terminated = s.terminated) ∨
    ∃ d : Diagnostic, d.ofCall = true ∧ t = s.fail d := by
  cases h with
  | call h =>
    cases h with
    | @fail d live hd => exact inr ⟨d, hd, rfl⟩
    | _ => exact inl ⟨rfl, rfl, rfl, rfl⟩
  | note _ _ _ _ _ _ _ _ _ hdiagnostic hclass hfinal =>
    exact inl ⟨hdiagnostic, hclass, hfinal, rfl⟩
  | commitEvents =>
    unfold SimSystem.commitEvents
    split <;> exact inl ⟨rfl, rfl, rfl, rfl⟩
  | _ => exact inl ⟨rfl, rfl, rfl, rfl⟩

theorem history_prefix_of_moves
    (h : ReflTransGen (Move c) s t) : s.trail.history <+: t.trail.history := by
  induction h with
  | refl => exact prefix_rfl
  | tail _ hstep ih =>
    obtain ⟨os, hos, _⟩ := hstep.history_append
    exact ih.trans ⟨os, hos.symm⟩

theorem epoch_eq_of_moves (h : ReflTransGen (Move c) s t) : t.epoch = s.epoch := by
  induction h with
  | refl => rfl
  | tail _ hstep ih => rw [hstep.epoch_eq, ih]

theorem epoch_eq_of_exec {W : Type} (c : Config) (b : Body W) (s : SimSystem) :
    (b.exec c s).1.epoch = s.epoch :=
  epoch_eq_of_moves (moves_of_calls (Body.exec_calls c b s))

/-! ### Moves and methods -/

section trans

variable {W : Type} (m : Model W)

/-- The scheduler's own moves mark no Xfer and post no event while an epoch executes. -/
structure OwnMove (s t : SimSystem) : Prop where
  xferDone : t.trail.xferDone <+: s.trail.xferDone
  posts : s.executingEpoch = true → t.trail.posts = s.trail.posts

/-- One update of the system or one method of an object.  The Xfer of a participant and its
entry in the history are one step. -/
inductive Trans : State W → State W → Prop
  | move {s : State W} {t : SimSystem} (h : Move m.config s.sys t)
      (hown : OwnMove s.sys t) : Trans s { s with sys := t }
  | work {s : State W} {id : ObjectId} {p : Ptr} (live : s.sys.terminated = false)
      (executing : s.sys.executingEpoch = true) (hopen : s.sys.trail.gathered = false)
      (hxfer : s.sys.trail.xferDone = []) (howner : s.sys.activeProposalOwner = some id)
      (hwork : id ∈ s.sys.currentWork) (hp : m.config.lookup id = some p) :
      Trans s (s.call m m.hooks.doWork p)
  | arbitrate {s : State W} {id : ObjectId} {p : Ptr} (live : s.sys.terminated = false)
      (executing : s.sys.executingEpoch = true) (gathered : s.sys.trail.gathered = true)
      (hxfer : s.sys.trail.xferDone = []) (howner : s.sys.activeProposalOwner = some id)
      (hid : id ∈ s.sys.xferObjects) (hp : m.config.lookup id = some p) :
      Trans s (s.call m m.hooks.doArbitrate p)
  | xfer {s : State W} {id : ObjectId} {rest : List ObjectId} {p : Ptr}
      (live : s.sys.terminated = false) (executing : s.sys.executingEpoch = true)
      (gathered : s.sys.trail.gathered = true) (howner : s.sys.activeProposalOwner = none)
      (hxfer : s.sys.xferObjects = s.sys.trail.xferDone ++ id :: rest)
      (hfirst : m.hooks.hasPendingCommit p s.world = true →
        s.sys.committedThisTick m.config id = false)
      (hp : m.config.lookup id = some p) :
      Trans s (State.call m m.hooks.doXfer p { s with sys := s.sys.markXfer id })
  | skipXfer {s : State W} {id : ObjectId} {rest : List ObjectId}
      (live : s.sys.terminated = false) (executing : s.sys.executingEpoch = true)
      (gathered : s.sys.trail.gathered = true)
      (hxfer : s.sys.xferObjects = s.sys.trail.xferDone ++ id :: rest)
      (hp : m.config.lookup id = none) : Trans s { s with sys := s.sys.markXfer id }
  | deliver {s : State W} {event : Event} {p : Ptr}
      (hflight : s.sys.trail.inFlight = some event)
      (hp : m.config.lookup event.targetId = some p) : Trans s { s with world :=
        (m.hooks.deliverEvent p event.eventKind event.payload event.readyTime s.world).2 }
  | activate {s : State W} (p : Ptr) (source : ObjectId) :
      Trans s { s with world := (m.hooks.activateFrom p source s.world).2 }
  | traceEnd {s : State W} (p : Ptr) :
      Trans s { s with world := (m.hooks.requestTraceEnd p s.world).2 }

variable {m} {s t : State W}

theorem Trans.moves (h : Trans m s t) : ReflTransGen (Move m.config) s.sys t.sys := by
  cases h with
  | move h => exact .single h
  | work | arbitrate => exact moves_of_calls (Body.exec_calls m.config _ s.sys)
  | xfer live executing gathered _ hxfer =>
    exact .head (.markXfer live executing gathered hxfer)
      (moves_of_calls (Body.exec_calls m.config _ _))
  | skipXfer live executing gathered hxfer =>
    exact .single (.markXfer live executing gathered hxfer)
  | deliver | activate | traceEnd => exact .refl

theorem moves_of_trans (h : ReflTransGen (Trans m) s t) :
    ReflTransGen (Move m.config) s.sys t.sys := by
  induction h with
  | refl => exact .refl
  | tail _ hstep ih => exact ih.trans hstep.moves

end trans

/-! ### Early returns -/

/-- The diagnostics with which a step fails before it chooses the next epoch. -/
def Diagnostic.ofStep : Diagnostic → Bool
  | .duplicateObjectIdentity _ | .multipleTraceOwners | .invalidEventNotification
  | .pendingRejected _ | .multipleStatefulCommits | .xferProbeMismatch | .committedFailure _
  | .invalidObservationCommit _ | .traceEndOverflow | .activationOverflow => true
  | _ => false

/-- The caps on trace records, domain cycles and events. -/
def Diagnostic.ofCap : Diagnostic → Bool
  | .maxTraceRecordsReached | .maxDomainCyclesReached | .maxEventsReached => true
  | _ => false

/-- The early returns of a step.  A call in Work, Arbitrate or Xfer may have ended the run: the
step returns after it has cleared the active owner, and in Xfer after it has recorded the
commit of the object. -/
inductive Halt (c : Config) : SimSystem → SimSystem → Prop
  | returned {s : SimSystem} (owner : Option ObjectId) (h : s.terminated = true) :
      Halt c s { s with activeProposalOwner := owner }
  | returnedXfer {s : SimSystem} {id : ObjectId} {done : List ObjectId} (committed : Bool)
      (h : s.terminated = true) (gathered : s.trail.gathered = true)
      (hdone : s.trail.xferDone = done ++ [id])
      (hfirst : committed = true → s.committedThisTick c id = false) :
      Halt c s (if committed then s.markCommitted c id else s)
  | failed {s : SimSystem} {d : Diagnostic} (live : s.terminated = false)
      (hd : d.ofStep = true) : Halt c s (s.fail d)
  | stale {s : SimSystem} {event : Event} (live : s.terminated = false)
      (hnext : s.eventQueue.nextEvent = some event) (hlt : event.readyTime < s.epoch) :
      Halt c s (s.fail .staleEvent)
  | capped {s : SimSystem} {d : Diagnostic} {cap : ℕ} (live : s.terminated = false)
      (hfree : s.trail.inFlight = none) (hd : d.ofCap = true) : Halt c s (s.capped d cap)
  | maxTicks {s : SimSystem} (live : s.terminated = false) (hfree : s.trail.inFlight = none)
      (htime : c.maxTicks ≤ s.epoch.time) :
      Halt c s (s.incomplete .maxTicksReached c.maxTicks)

theorem Halt.epoch_eq (h : Halt c s t) : t.epoch = s.epoch := by
  cases h with
  | returnedXfer committed => cases committed <;> rfl
  | _ => rfl

/-- An early return adds nothing to the past, or the commit of one object. -/
theorem Halt.history_append (h : Halt c s t) :
    ∃ os, t.trail.history = s.trail.history ++ os ∧ (os = [] ∨
      ∃ id, s.committedThisTick c id = false ∧ os = [.published id s.epoch]) := by
  cases h with
  | @returnedXfer id _ committed _ _ _ hfirst =>
    cases committed with
    | false => exact ⟨[], (append_nil _).symm, inl rfl⟩
    | true => exact ⟨_, rfl, inr ⟨id, hfirst rfl, rfl⟩⟩
  | _ => exact ⟨[], (append_nil _).symm, inl rfl⟩

/-- The event in delivery has just been refused by its target. -/
def Refused {W : Type} (m : Model W) (s : State W) : Prop :=
  ∃ event, s.sys.trail.inFlight = some event ∧ ∀ p, m.config.lookup event.targetId = some p →
    ∃ w, m.hooks.deliverEvent p event.eventKind event.payload event.readyTime w = (false, s.world)

/-- An early return of a live or ended system.  The objects are as they were, and a failed
notification is the refusal of the event in delivery. -/
structure Halts {W : Type} (m : Model W) (s t : State W) : Prop where
  halt : Halt m.config s.sys t.sys
  world : t.world = s.world
  refused : t.sys.result.diagnostic = some .invalidEventNotification →
    s.sys.result.diagnostic = some .invalidEventNotification ∨ Refused m s

end AgenticCircuit.Gfsim
