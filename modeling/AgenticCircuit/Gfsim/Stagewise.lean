import AgenticCircuit.Gfsim.Body
import AgenticCircuit.Gfsim.Run

/-! # Invariants, stage by stage

Some invariants are about parts of the system that few stages of a step write: the position and
the last sequence ID of the trace, which a refresh of the summary writes, the cycles of the time
domains with their cap, which the checks before an epoch count, and the marks of the Xfer
barrier.  `Tally` are these.  Others are about the objects alone.

`Model.Keeps` says what the methods of the objects have to do for an invariant of both, and
`Kept I J x` that the stage `x` keeps `I` when it goes on and leaves `J` when it returns early.
An object that sets a failure code in its Xfer ends the run in the same round of the commit
loop, so `I` has to survive an Xfer only when the object reports no failure afterwards. -/

namespace AgenticCircuit.Gfsim

open Exit

open Relation (ReflTransGen)

/-! ### The tally -/

def Diagnostic.ofDomainCap : Diagnostic → Bool
  | .maxDomainCyclesReached => true
  | _ => false

/-- How far the Xfer barrier has come. -/
structure Marks where
  gathered : Bool
  xferObjects : List ObjectId
  xferDone : List ObjectId

/-- The position of the trace, the cycles of the time domains, whether their cap has ended the
run, and the marks of the barrier. -/
structure Tally where
  tracePosition : ℕ
  traceLastCommittedSequenceId : Option ℕ
  domainCycles : List (String × ℕ)
  atDomainCap : Bool
  marks : Marks

def SimSystem.tally (s : SimSystem) : Tally :=
  { tracePosition := s.result.tracePosition
    traceLastCommittedSequenceId := s.result.traceLastCommittedSequenceId
    domainCycles := s.domainCycles
    atDomainCap := s.result.diagnostic.any Diagnostic.ofDomainCap
    marks := ⟨s.trail.gathered, s.xferObjects, s.trail.xferDone⟩ }

/-! ### Around the counting -/

section parts

variable {W : Type} {m : Model W}

/-- What a step does after its commit loop. -/
def afterCommits (m : Model W) : Exit (State W) Unit := do
  onSys (fun s => s.commitEvents)
  requestTraceEnd m
  stopAtTraceEnd m
  continueEpoch m
  onSys (fun s => s.closeEpoch)
  selectNext m

/-- What a step does after the Work of its epoch. -/
def afterWork (m : Model W) : Exit (State W) Unit := do
  onSys (fun s => s.gatherParticipants)
  forEach (← Exit.get).sys.xferObjects (arbitrateOne m)
  forEach (← Exit.get).sys.xferObjects (validateOne m)
  forEach (← Exit.get).sys.xferObjects (commitOne m)
  afterCommits m

/-- What a step does once its epoch may open. -/
def afterPreflight (m : Model W) : Exit (State W) Unit := do
  deliverEvents m
  onSys (fun s => s.openEpoch)
  forEach (← Exit.get).sys.currentWork (workOne m)
  afterWork m

theorem step_eq : step m = (do preflight m; afterPreflight m) := by
  simp only [step, executeEpoch, commitEpoch, proposeEpoch, propose, xfer, afterPreflight, afterWork,
    afterCommits, bind_assoc]

end parts

/-! ### Stages -/

section stages

variable {W : Type} {m : Model W} {I J : Tally → W → Prop}

/-- `I` holds of the tally and the objects. -/
def At (I : Tally → W → Prop) (s : State W) : Prop := I s.sys.tally s.world

/-- The stage keeps `I` when it goes on and leaves `J` when it returns. -/
abbrev Kept (I J : Tally → W → Prop) (x : Exit (State W) Unit) : Prop :=
  Carries (At I) (At I) (At J) x

/-- The stage keeps `Q` of the tally, whichever way it ends. -/
abbrev Unseen (Q : Tally → Prop) : Exit (State W) Unit → Prop :=
  Kept (fun t _ => Q t) fun t _ => Q t

/-- The methods of the objects but Work keep `I`, an Xfer at least when it leaves no failure code,
and a failure of the system keeps `I`. -/
structure Model.Keeps (m : Model W) (I J : Tally → W → Prop) : Prop where
  halt : ∀ t w, I t w → J t w
  fail : ∀ t w, I t w → I { t with atDomainCap := false } w
  failed : ∀ t w, J t w → J { t with atDomainCap := false } w
  doArbitrate : ∀ p epoch t w w', I t w → (m.hooks.doArbitrate p epoch w).Leaf w' → I t w'
  doXfer : ∀ p epoch t w w', I t w → (m.hooks.doXfer p epoch w).Leaf w' →
    J t w' ∧ ((m.hooks.runtimeFailureCode p w').isEmpty = true → I t w')
  activateFrom : ∀ p source t w, I t w → I t (m.hooks.activateFrom p source w).2
  deliverEvent : ∀ p kind payload epoch t w, I t w →
    I t (m.hooks.deliverEvent p kind payload epoch w).2
  requestTraceEnd : ∀ p t w, I t w → I t (m.hooks.requestTraceEnd p w).2

/-- What is about the tally alone does not depend on the methods. -/
theorem Model.keeps_tally {Q : Tally → Prop} (hQ : ∀ t, Q t → Q { t with atDomainCap := false }) :
    m.Keeps (fun t _ => Q t) (fun t _ => Q t) where
  halt _ _ ht := ht
  fail t _ ht := hQ t ht
  failed t _ ht := hQ t ht
  doArbitrate _ _ _ _ _ ht _ := ht
  doXfer _ _ _ _ _ ht _ := ⟨ht, fun _ => ht⟩
  activateFrom _ _ _ _ ht := ht
  deliverEvent _ _ _ _ _ _ ht := ht
  requestTraceEnd _ _ _ ht := ht

/-! ### Primitives -/

section tally

variable {Q : Tally → Prop} (hQ : ∀ t, Q t → Q { t with atDomainCap := false })
include hQ

variable {s t : SimSystem} {d : Diagnostic} {c : Config} {cause : Cause} {id : ObjectId}
  {epoch : Epoch}

theorem tally_fail (hd : d.ofDomainCap = false) (hs : Q s.tally) : Q (s.fail d).tally := by
  have htally : (s.fail d).tally = { s.tally with atDomainCap := false } := by
    rw [← hd]
    rfl
  rw [htally]
  exact hQ _ hs

theorem tally_call (h : Call c s t) (hs : Q s.tally) : Q t.tally := by
  cases h with
  | @fail d live hd => exact tally_fail hQ (by cases d <;> first | rfl | cases hd) hs
  | _ => exact hs

theorem tally_calls (h : ReflTransGen (Call c) s t) (hs : Q s.tally) : Q t.tally := by
  induction h with
  | refl => exact hs
  | tail _ hcall ih => exact tally_call hQ hcall ih

theorem tally_scheduleWork (hs : Q s.tally) : Q (s.scheduleWork c cause id epoch).1.tally := by
  rcases SimSystem.scheduleWork_cases (c := c) (s := s) cause id epoch with
    ⟨_, ⟨_, h⟩ | ⟨_, d, hd, h⟩⟩ | ⟨_, _, e, _, _, _, _, _, h⟩
  · rw [h]
    exact hs
  · rw [h]
    exact tally_fail hQ (by cases d <;> first | rfl | cases hd) hs
  · rw [h]
    exact hs

end tally

variable {f : SimSystem → SimSystem} {d : Diagnostic} {cause : Cause} {id : ObjectId}
  {epoch : Epoch} {event : Event}

theorem kept_onSys (h : ∀ s w, I s.tally w → I (f s).tally w) : Kept I J (onSys f) :=
  carries_modify fun s hs => h s.sys s.world hs

theorem kept_setOwner {owner : Option ObjectId} : Kept I J (setOwner owner) :=
  kept_onSys fun _ _ hs => hs

theorem kept_commitEvents : Kept I J (onSys (fun s => s.commitEvents)) := by
  refine kept_onSys fun s _ hs => ?_
  unfold SimSystem.commitEvents
  split
  · exact hs
  · exact hs

variable (hm : m.Keeps I J)
include hm

theorem kept_stopWith (h : ∀ s : SimSystem, (f s).tally = s.tally ∨
      (f s).tally = { s.tally with atDomainCap := false }) : Kept I J (stopWith f) := by
  refine carries_stop fun s hs => ?_
  unfold At
  rcases h s.sys with h | h
  · rw [h]
    exact hm.halt _ _ hs
  · rw [h]
    exact hm.halt _ _ (hm.fail _ _ hs)

theorem kept_failWith (hd : d.ofDomainCap = false) : Kept I J (failWith d) :=
  carries_stop fun s hs => hm.halt _ _ (tally_fail (fun t => hm.fail t s.world) hd hs)

theorem kept_returnIfTerminated : Kept I J returnIfTerminated :=
  carries_get_bind fun _ _ => carries_ite (kept_stopWith hm fun _ => .inl rfl) carries_pure

theorem kept_schedule : Kept I J (schedule m cause id epoch) := by
  intro s hs
  have hr : I (s.sys.scheduleWork m.config cause id epoch).1.tally s.world :=
    tally_scheduleWork (fun t => hm.fail t s.world) hs
  refine ends_get_bind ?_
  dsimp only
  split
  · exact ends_modify hr
  · exact ends_stop (hm.halt _ _ hr)

theorem kept_scheduleIf {accepts : Bool} : Kept I J (scheduleIf m accepts cause id epoch) :=
  carries_ite (kept_schedule hm) carries_pure

theorem kept_callObject {method : Ptr → Epoch → W → Body W}
    (h : ∀ p epoch t w w', I t w → (method p epoch w).Leaf w' → I t w') :
    Kept I J (callObject m method id) := by
  unfold callObject
  split
  · exact carries_pure
  · exact carries_modify fun s hs => h _ s.sys.epoch _ s.world _
      (tally_calls (fun t => hm.fail t s.world) (Body.exec_calls _ _ _) hs)
      (Body.exec_leaf _ _ _)

/-! ### Before the epoch -/

theorem kept_validateRuntimeIdentities : Kept I J (validateRuntimeIdentities m) := by
  refine carries_get_bind fun _ _ => carries_ite carries_pure ?_
  split
  · exact kept_failWith hm rfl
  · exact kept_onSys fun _ _ hs => hs

theorem kept_stopAtEventCap : Kept I J (stopAtEventCap m) :=
  carries_get_bind fun _ _ => carries_ite carries_pure (kept_stopWith hm fun _ => .inr rfl)

/-- The counting of the cycles changes the cycles and may reach their cap. -/
theorem kept_countDomainCycles (hcount : ∀ t w cycles capped, I t w →
      I { t with domainCycles := cycles, atDomainCap := capped } w) :
    Kept I J (countDomainCycles m) := by
  refine carries_get_bind fun _ _ =>
    carries_ite (carries_forEach (fun domain => ?_) _) carries_pure
  refine carries_get_bind fun s _ => carries_ite carries_pure ?_
  split
  · exact carries_ite (carries_stop fun _ hs => hm.halt _ _ (hcount _ _ _ _ hs))
      (kept_onSys fun s _ hs => hcount _ _ _ s.tally.atDomainCap hs)
  · exact kept_onSys fun s _ hs => hcount _ _ _ s.tally.atDomainCap hs

/-! ### Delivery -/

theorem kept_activateConsumer {consumer : ObjectId} :
    Kept I J (activateConsumer m event consumer) := by
  unfold activateConsumer
  split
  · rename_i p _
    refine fun s hs => ends_get_bind (ends_bind (ends_modify (ends_get_bind ?_)))
    exact kept_scheduleIf hm _ (hm.activateFrom p event.targetId _ _ hs)
  · exact carries_get_bind fun _ _ => kept_schedule hm

theorem kept_deliverReadyEvent : Kept I J (deliverReadyEvent m event) := by
  unfold deliverReadyEvent
  split
  · exact kept_failWith hm rfl
  rename_i p _
  refine fun s hs => ends_get_bind (ends_bind (ends_modify ?_))
  have hafter (accepts : Bool) : Kept I J (if !accepts then failWith .invalidEventNotification
      else if (m.config.info p).kind != .eventQueue then do
        schedule m (.event event) event.targetId (← Exit.get).sys.epoch
      else forEach (m.config.activation.targetsFor event.targetId) (activateConsumer m event)) :=
    carries_ite (kept_failWith hm rfl) (carries_ite
      (carries_get_bind fun _ _ => kept_schedule hm)
      (carries_forEach (fun _ => kept_activateConsumer hm) _))
  exact hafter _ _ (hm.deliverEvent p event.eventKind event.payload event.readyTime _ _ hs)

theorem kept_deliverRounds : ∀ n : ℕ, Kept I J (deliverRounds m n)
  | 0 => carries_pure
  | n + 1 => by
    refine carries_get_bind fun s _ => ?_
    dsimp only
    split
    · exact carries_pure
    refine carries_ite (kept_failWith hm rfl) (carries_ite carries_pure ?_)
    refine carries_bind (kept_stopAtEventCap hm) fun _ => ?_
    refine carries_bind (kept_onSys fun _ _ hs => hs) fun _ => ?_
    refine carries_bind (kept_deliverReadyEvent hm) fun _ => ?_
    exact carries_bind (kept_onSys fun _ _ hs => hs) fun _ => kept_deliverRounds n

theorem kept_deliverEvents : Kept I J (deliverEvents m) :=
  carries_get_bind fun _ _ => kept_deliverRounds hm _

/-! ### Work, arbitration and Xfer -/

theorem kept_workOne (hwork : ∀ p epoch t w w', I t w → (m.hooks.doWork p epoch w).Leaf w' →
    I t w') : Kept I J (workOne m id) :=
  carries_bind (kept_onSys fun _ _ hs => hs) fun _ => carries_bind kept_setOwner fun _ =>
    carries_bind (kept_callObject hm hwork) fun _ =>
      carries_bind kept_setOwner fun _ => kept_returnIfTerminated hm

theorem kept_arbitrateOne : Kept I J (arbitrateOne m id) :=
  carries_bind kept_setOwner fun _ => carries_bind (kept_callObject hm hm.doArbitrate) fun _ =>
    carries_bind kept_setOwner fun _ => kept_returnIfTerminated hm

theorem kept_validateOne : Kept I J (validateOne m id) := by
  refine carries_get_bind fun s _ => ?_
  dsimp only
  split
  · exact carries_pure
  · exact carries_ite carries_pure (kept_failWith hm rfl)

theorem kept_publishObservations {committed : Bool} : Kept I J (publishObservations id committed) := by
  refine carries_get_bind fun s _ => carries_ite (carries_ite ?_ ?_) ?_
  · exact kept_onSys fun _ _ hs => hs
  · exact kept_stopWith hm fun _ => .inr rfl
  · exact kept_onSys fun _ _ hs => hs

/-- After the Xfer of the object behind `id`: `I` holds if the object reports no failure. -/
def Unless (m : Model W) (I J : Tally → W → Prop) (id : ObjectId) (t : Tally) (w : W) : Prop :=
  J t w ∧ ((∀ p, m.config.lookup id = some p →
    (m.hooks.runtimeFailureCode p w).isEmpty = true) → I t w)

omit hm in
theorem carries_returnIfFailed (hm : m.Keeps I J) :
    Carries (At (Unless m I J id)) (At I) (At J) (returnIfFailed m id) := by
  refine fun s hs => ends_get_bind ?_
  dsimp only
  split
  · rename_i hnone
    refine ends_pure (hs.2 fun p hp => ?_)
    cases hnone.symm.trans hp
  rename_i p hp
  split
  · rename_i hcode
    refine ends_pure (hs.2 fun p' hp' => ?_)
    cases hp.symm.trans hp'
    exact hcode
  · exact ends_stop (tally_fail (fun t => hm.failed t s.world) rfl hs.1)

section marking

variable (hmarks : ∀ t w k, I t w → I { t with marks := k } w)
include hmarks

theorem carries_xferObject :
    Carries (At I) (At (Unless m I J id)) (At J) (xferObject m id) := by
  refine carries_bind (Q := At I) (kept_onSys fun _ _ hs => hmarks _ _ _ hs) fun _ => ?_
  unfold callObject
  split
  · exact fun s hs => ends_pure ⟨hm.halt _ _ hs, fun _ => hs⟩
  · rename_i p hp
    refine carries_modify fun s hs => ?_
    obtain ⟨hhalted, hgoes⟩ := hm.doXfer p s.sys.epoch _ s.world _
      (tally_calls (fun t => hm.fail t s.world) (Body.exec_calls m.config _ s.sys) hs)
      (Body.exec_leaf m.config _ s.sys)
    exact ⟨hhalted, fun hcode => hgoes (hcode p hp)⟩

theorem kept_commitOne : Kept I J (commitOne m id) := by
  refine carries_get_bind fun s _ => carries_ite (kept_failWith hm rfl) ?_
  dsimp only
  rw [ite_self, bne_self_eq_false]
  have hrecord : Carries (At (Unless m I J id)) (At (Unless m I J id)) (At J)
      (recordCommit m id (willCommit m s id)) :=
    carries_ite (carries_modify fun _ hs => hs) carries_pure
  have hreturn : Carries (At (Unless m I J id)) (At (Unless m I J id)) (At J) returnIfTerminated :=
    carries_get_bind fun _ _ => carries_ite (carries_stop fun _ hs => hs.1) carries_pure
  refine carries_bind (carries_xferObject hm hmarks) fun _ => ?_
  refine carries_bind hrecord fun _ => carries_bind hreturn fun _ => ?_
  exact carries_bind (carries_returnIfFailed hm) fun _ => kept_publishObservations hm

end marking

/-! ### Activation and shutdown -/

theorem kept_activateOne {source target : ObjectId} : Kept I J (activateOne m source target) := by
  refine fun s hs => ends_get_bind ?_
  dsimp only
  split
  · rename_i p _
    have hafter (accepts : Bool) : Kept I J (do
        scheduleIf m accepts (.activation source s.sys.epoch.time) target ⟨s.sys.epoch.time + 1, 0⟩
        onSys (fun t => t.record (.asked source target t.epoch accepts))) :=
      carries_bind (kept_scheduleIf hm) fun _ => kept_onSys fun _ _ hs => hs
    exact ends_bind (ends_modify (hafter (m.hooks.activateFrom p source s.world).1 _
      (hm.activateFrom p source _ _ hs)))
  · have hafter : Kept I J (do
        schedule m (.activation source s.sys.epoch.time) target ⟨s.sys.epoch.time + 1, 0⟩
        onSys (fun t => t.record (.asked source target t.epoch true))) :=
      carries_bind (kept_schedule hm) fun _ => kept_onSys fun _ _ hs => hs
    exact hafter s hs

theorem kept_activate : Kept I J (activate m) := by
  refine carries_get_bind fun s _ => carries_ite carries_pure
    (carries_ite (kept_failWith hm rfl) ?_)
  exact carries_forEach (fun _ => carries_forEach (fun _ => kept_activateOne hm) _) _

theorem kept_continueEpoch : Kept I J (continueEpoch m) :=
  carries_bind (kept_activate hm) fun _ => carries_bind (carries_get_bind fun _ _ =>
    carries_forEach (fun _ => kept_schedule hm) _) fun _ => kept_deliverEvents hm

theorem kept_stopAtTraceEnd : Kept I J (stopAtTraceEnd m) :=
  carries_get_bind fun _ _ => carries_ite carries_pure (carries_ite (kept_failWith hm rfl)
    (carries_ite (kept_stopWith hm fun _ => .inr rfl) carries_pure))

/-! ### The next epoch -/

theorem kept_classifyEnd : Kept I J (classifyEnd m) := by
  refine carries_get_bind fun s _ => carries_ite (kept_stopWith hm fun _ => .inl rfl) ?_
  split
  · exact kept_failWith hm rfl
  · exact carries_ite (kept_failWith hm rfl)
      (carries_ite (kept_stopWith hm fun _ => .inr rfl) (kept_stopWith hm fun _ => .inr rfl))

theorem kept_stopAtDeadline {next : Epoch} {isEvent : Bool} :
    Kept I J (stopAtDeadline m next isEvent) := by
  refine carries_get_bind fun s _ => ?_
  split
  · exact carries_pure
  · exact carries_ite carries_pure (carries_ite (kept_failWith hm rfl)
      (carries_ite (kept_stopWith hm fun _ => .inr rfl) carries_pure))

/-! ### With a refresh of the summary -/

variable (hrefresh : Kept I J (refreshRuntimeSummary m))
include hrefresh

theorem kept_stopAtTraceCap : Kept I J (stopAtTraceCap m) :=
  carries_bind hrefresh fun _ => carries_get_bind fun _ _ =>
    carries_ite (kept_failWith hm rfl)
      (carries_ite carries_pure (kept_stopWith hm fun _ => .inr rfl))

theorem kept_checks : Kept I J (checks m) :=
  carries_bind (kept_returnIfTerminated hm) fun _ =>
    carries_bind (kept_validateRuntimeIdentities hm) fun _ =>
      carries_bind (kept_stopAtTraceCap hm hrefresh) fun _ => carries_get_bind fun _ _ =>
        carries_ite (kept_stopWith hm fun _ => .inr rfl) carries_pure

theorem kept_preflight (hcount : ∀ t w cycles capped, I t w →
      I { t with domainCycles := cycles, atDomainCap := capped } w) : Kept I J (preflight m) := by
  rw [preflight_eq]
  exact carries_bind (kept_checks hm hrefresh) fun _ =>
    carries_bind (kept_countDomainCycles hm hcount) fun _ => kept_stopAtEventCap hm

theorem kept_requestTraceEnd : Kept I J (requestTraceEnd m) := by
  refine carries_bind hrefresh fun _ => carries_get_bind fun _ _ =>
    carries_ite (carries_forEach (fun p => ?_) _) carries_pure
  have hafter (yields : Bool) : Kept I J (if yields then onSys (fun s =>
      { s with traceEndProcesses := s.traceEndProcesses ++ [(m.config.info p).id] })
      else pure ()) :=
    carries_ite (kept_onSys fun _ _ hs => hs) carries_pure
  exact fun s hs =>
    ends_get_bind (ends_bind (ends_modify (hafter _ _ (hm.requestTraceEnd p _ _ hs))))

theorem kept_selectNext : Kept I J (selectNext m) := by
  refine carries_get_bind fun s _ => ?_
  dsimp only
  split
  · exact carries_bind (kept_stopAtTraceCap hm hrefresh) fun _ => kept_classifyEnd hm
  · exact carries_ite (kept_failWith hm rfl) <| carries_bind (kept_stopAtDeadline hm)
      fun _ => carries_ite (kept_stopWith hm fun _ => .inr rfl) (kept_onSys fun _ _ hs => hs)

theorem kept_afterCommits (hclose : ∀ t w, I t w →
      I { t with marks := { t.marks with gathered := false } } w) : Kept I J (afterCommits m) := by
  refine carries_bind kept_commitEvents fun _ => ?_
  refine carries_bind (kept_requestTraceEnd hm hrefresh) fun _ => ?_
  refine carries_bind (kept_stopAtTraceEnd hm) fun _ => ?_
  refine carries_bind (kept_continueEpoch hm) fun _ => ?_
  exact carries_bind (kept_onSys fun _ _ hs => hclose _ _ hs) fun _ => kept_selectNext hm hrefresh

section marking

variable (hmarks : ∀ t w k, I t w → I { t with marks := k } w)
include hmarks

theorem kept_afterWork : Kept I J (afterWork m) := by
  refine carries_bind (kept_onSys fun _ _ hs => hmarks _ _ _ hs) fun _ =>
    carries_get_bind fun _ _ => ?_
  refine carries_bind (carries_forEach (fun _ => kept_arbitrateOne hm) _) fun _ =>
    carries_get_bind fun _ _ => ?_
  refine carries_bind (carries_forEach (fun _ => kept_validateOne hm) _) fun _ =>
    carries_get_bind fun _ _ => ?_
  exact carries_bind (carries_forEach (fun _ => kept_commitOne hm hmarks) _) fun _ =>
    kept_afterCommits hm hrefresh fun _ _ ht => hmarks _ _ _ ht

variable (hwork : ∀ p epoch t w w', I t w → (m.hooks.doWork p epoch w).Leaf w' → I t w')
include hwork

theorem kept_executeEpoch (hcount : ∀ t w cycles capped, I t w →
      I { t with domainCycles := cycles, atDomainCap := capped } w) : Kept I J (executeEpoch m) := by
  have hpropose : Kept I J (propose m) := by
    refine carries_bind (kept_onSys fun _ _ hs => hmarks _ _ _ hs) fun _ =>
      carries_get_bind fun _ _ =>
        carries_bind (carries_forEach (fun _ => kept_workOne hm hwork) _) ?_
    exact fun _ => carries_bind (kept_onSys fun _ _ hs => hmarks _ _ _ hs) fun _ =>
      carries_get_bind fun _ _ => carries_forEach (fun _ => kept_arbitrateOne hm) _
  have hxfer : Kept I J (xfer m) :=
    carries_get_bind fun _ _ => carries_bind (carries_forEach (fun _ => kept_validateOne hm) _)
      fun _ => carries_get_bind fun _ _ =>
        carries_bind (carries_forEach (fun _ => kept_commitOne hm hmarks) _) fun _ =>
          kept_commitEvents
  refine carries_bind ?_ fun _ => carries_bind (kept_stopAtTraceEnd hm) fun _ =>
    kept_continueEpoch hm
  refine carries_bind ?_ fun _ => carries_bind hxfer fun _ => kept_requestTraceEnd hm hrefresh
  exact carries_bind (kept_preflight hm hrefresh hcount) fun _ =>
    carries_bind (kept_deliverEvents hm) fun _ => hpropose

theorem kept_afterPreflight : Kept I J (afterPreflight m) := by
  refine carries_bind (kept_deliverEvents hm) fun _ => ?_
  refine carries_bind (kept_onSys fun _ _ hs => hmarks _ _ _ hs) fun _ =>
    carries_get_bind fun _ _ => ?_
  exact carries_bind (carries_forEach (fun _ => kept_workOne hm hwork) _) fun _ =>
    kept_afterWork hm hrefresh hmarks

end marking

end stages

/-! ### Runs -/

section run

variable {W : Type} {m : Model W} {P : W → Prop} {host : Host W} {ok : State W → Prop} {s : State W}

theorem Runs.atBoundary (h : Runs m host ok s) (live : s.sys.terminated = false) :
    AtBoundary s.sys := by
  have hs := Runs.invariant (I := fun _ => True) (J := fun _ => True) ?_ ?_ ?_ ?_ ?_ ?_ ?_ ?_ h
  · exact (hs.2 live).2
  all_goals intros
  all_goals first | trivial | exact ⟨fun _ => trivial, fun _ => trivial⟩

variable (hm : m.Keeps (fun _ => P) fun _ _ => True)
  (hwork : ∀ p epoch w w', P w → (m.hooks.doWork p epoch w).Leaf w' → P w')
include hm hwork

/-- An invariant of the objects up to the round of the commit loop that ends the run. -/
theorem kept_objects : Kept (fun _ => P) (fun _ _ => True) (executeEpoch m) :=
  kept_executeEpoch hm (carries_modify fun _ hs => hs) (fun _ _ _ hs => hs)
    (fun p epoch _ => hwork p epoch) fun _ _ _ _ hs => hs

theorem Runs.objects_invariant (hfresh : ∀ w, host.initial w → P w)
    (hhost : ∀ b w w', host.calls b → P w → (b w).Leaf w' → P w') (h : Runs m host ok s)
    (live : s.sys.terminated = false) : P s.world := by
  induction h with
  | fresh w hw => exact hfresh w hw
  | @host s b hb hrun ih =>
    have hcalls : ReflTransGen (Call m.config) s.sys (hostCall m b s).sys :=
      Body.exec_calls _ _ _
    cases hterm : s.sys.terminated with
    | true =>
      rw [eq_of_calls_of_terminated hcalls hterm, hterm] at live
      cases live
    | false => exact hhost b s.world _ hb (ih hterm) (Body.exec_leaf _ _ _)
  | @start s hrun hepoch ih =>
    cases hterm : s.sys.terminated with
    | true =>
      have hcalls := startRun_calls (m := m) hepoch fun hlive => (hrun.atBoundary hlive).closed
      rw [eq_of_calls_of_terminated hcalls hterm, hterm] at live
      cases live
    | false => exact ih hterm
  | @step s hrun hok ih =>
    cases hterm : s.sys.terminated with
    | true =>
      rw [step_of_terminated hterm, hterm] at live
      cases live
    | false =>
      have hboundary := hrun.atBoundary hterm
      rcases hstep : Gfsim.step m s with ⟨_ | _, t⟩
      · have hended := step_none_terminated hboundary hstep
        rw [hstep] at live
        cases hended.symm.trans live
      · obtain ⟨r, q, next, _, hexecute, _, _, _, _, _, _, _, rfl⟩ := step_some hboundary hstep
        exact (kept_objects hm hwork s (ih hterm)).of_eq hexecute

end run

end AgenticCircuit.Gfsim
