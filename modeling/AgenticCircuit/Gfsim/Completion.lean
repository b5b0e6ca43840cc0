import AgenticCircuit.Gfsim.Components
import AgenticCircuit.Gfsim.Stagewise

/-! # Completed runs

A run that has nothing left to do is `completed` when every runtime object is quiescent, and
failed otherwise.  This module compares the verdict with what the objects hold
(`Component.Finished`).

* **The world** is one component for each pointer, and a rest of any type.  Processes have the
  methods of `ProcessRuntime`; the methods of all other objects and the generated code of the
  processes are arbitrary (`Behaviour`), except that the points of a process are private.
* **`Runs.unfailed`**: while a run goes on, no process has committed a failure: the commit loop ends
  the run in that round.
* **Verdict.**  What a host egress reports is the opposite of what it holds, so a system with
  egresses is misjudged exactly when they decide (`Misjudged`, `completed_iff_finished`). -/

namespace AgenticCircuit.Gfsim

open Body ProcessRuntime

open Relation (ReflTransGen)

/-! ### The world -/

structure ObjectWorld (R α : Type) where
  parts : Ptr → Component α
  rest : R

open ObjectWorld

def Component.asProcess {α : Type} : Component α → Option ProcessRuntime
  | process r => some r
  | _ => none

namespace ObjectWorld

variable {R α : Type} (w : ObjectWorld R α)

def set (p : Ptr) (part : Component α) : ObjectWorld R α :=
  { w with parts := Function.update w.parts p part }

variable {part : Component α} {p : Ptr}

@[simp] theorem set_parts_self : (w.set p part).parts p = part :=
  Function.update_self ..

@[simp] theorem set_parts_of_ne {p' : Ptr} (h : p' ≠ p) :
    (w.set p part).parts p' = w.parts p' := Function.update_of_ne h ..

/-- The point proposed by the Work of the process at `p`. -/
def propose (p : Ptr) (point : Option ProcessPoint) : ObjectWorld R α :=
  match point, (w.parts p).asProcess with
  | some point, some r => w.set p (.process (r.propose point))
  | _, _ => w

/-- Processes are woken and failure codes are set on them; other components change freely. -/
def Uses (w w' : ObjectWorld R α) : Prop :=
  ∀ p, Option.Rel (ReflTransGen Use) (w.parts p).asProcess (w'.parts p).asProcess

/-- No process has committed a failure. -/
def Unfailed : Prop := ∀ p r, (w.parts p).asProcess = some r → r.committed.status ≠ .failed

variable {w}

theorem Uses.refl (w : ObjectWorld R α) : Uses w w := by
  intro p
  cases (w.parts p).asProcess with
  | none => exact .none
  | some r => exact .some .refl

theorem Uses.trans {w w' w'' : ObjectWorld R α} (h : Uses w w') (h' : Uses w' w'') :
    Uses w w'' := by
  intro p
  have hp := h p
  have hp' := h' p
  cases hw : (w.parts p).asProcess <;> cases hw' : (w'.parts p).asProcess <;>
    cases hw'' : (w''.parts p).asProcess <;> rw [hw, hw'] at hp <;> rw [hw', hw''] at hp' <;>
    cases hp <;> cases hp'
  · exact .none
  · rename_i h h'
    exact .some (h.trans h')

theorem uses_set (hold : (w.parts p).asProcess = none) (hnew : part.asProcess = none) :
    Uses w (w.set p part) := by
  intro p'
  rcases eq_or_ne p' p with rfl | hne
  · rw [hold, set_parts_self, hnew]
    exact .none
  · rw [set_parts_of_ne w hne]
    exact Uses.refl w p'

theorem Uses.unfailed {w' : ObjectWorld R α} (h : Uses w w') (hw : w.Unfailed) : w'.Unfailed := by
  intro p r' hr' hfailed
  have hp := h p
  rw [hr'] at hp
  cases hr : (w.parts p).asProcess with
  | none =>
    rw [hr] at hp
    cases hp
  | some r =>
    rw [hr] at hp
    cases hp with
    | some huses => exact hw p r hr (spares_of_uses huses hfailed)

theorem Unfailed.set {r : ProcessRuntime} (hw : w.Unfailed) (hr : r.committed.status ≠ .failed) :
    (w.set p (.process r)).Unfailed := by
  intro p' r' hr'
  rcases eq_or_ne p' p with rfl | hne
  · rw [set_parts_self] at hr'
    cases hr'
    exact hr
  · rw [set_parts_of_ne w hne] at hr'
    exact hw p' r' hr'

theorem Unfailed.propose {point : Option ProcessPoint} (hw : w.Unfailed) :
    (w.propose p point).Unfailed := by
  unfold ObjectWorld.propose
  split
  · rename_i hr
    have hstatus := hw p _ hr
    exact hw.set hstatus
  · exact hw

end ObjectWorld

/-! ### Systems of components -/

/-- The methods of the objects that are not processes, and the generated code of processes. -/
structure Behaviour (R α : Type) where
  executeProcessStep :
    Ptr → Epoch → ℕ → ObjectWorld R α → Body (ProcessStep × ObjectWorld R α)
  doWork : Ptr → Epoch → ObjectWorld R α → Body (ObjectWorld R α) := fun _ _ w => .done w
  doArbitrate : Ptr → Epoch → ObjectWorld R α → Body (ObjectWorld R α) := fun _ _ w => .done w
  /-- For a process, what the generated `doXfer` does after `ProcessRuntime::doXfer`. -/
  doXfer : Ptr → Epoch → ObjectWorld R α → Body (ObjectWorld R α) := fun _ _ w => .done w
  activateFrom : Ptr → ObjectId → ObjectWorld R α → Bool × ObjectWorld R α :=
    fun _ _ w => (true, w)
  deliverEvent : Ptr → ℕ → ℕ → Epoch → ObjectWorld R α → Bool × ObjectWorld R α :=
    fun _ _ _ _ w => (true, w)
  uses_executeProcessStep : ∀ p epoch pc (w : ObjectWorld R α) step w',
    (executeProcessStep p epoch pc w).Leaf (step, w') → w.Uses w'
  uses_doWork : ∀ p epoch (w w' : ObjectWorld R α), (doWork p epoch w).Leaf w' → w.Uses w'
  uses_doArbitrate : ∀ p epoch (w w' : ObjectWorld R α),
    (doArbitrate p epoch w).Leaf w' → w.Uses w'
  uses_doXfer : ∀ p epoch (w w' : ObjectWorld R α), (doXfer p epoch w).Leaf w' → w.Uses w'
  uses_activateFrom : ∀ p source (w : ObjectWorld R α), w.Uses (activateFrom p source w).2
  uses_deliverEvent : ∀ p kind payload epoch (w : ObjectWorld R α),
    w.Uses (deliverEvent p kind payload epoch w).2

section model

variable {R α : Type} [PacketTraits α]

/-- The system of the components under a configuration. -/
def componentModel (c : Config) (b : Behaviour R α) : Model (ObjectWorld R α) where
  config := c
  hooks :=
    { doWork := fun p epoch w =>
        match (w.parts p).asProcess with
        | some r => do
            let (point, w) ← r.doWork (b.executeProcessStep p epoch) w
            return w.propose p point
        | none => b.doWork p epoch w
      doArbitrate := fun p epoch w =>
        match (w.parts p).asProcess with
        | some _ => .done w
        | none => b.doArbitrate p epoch w
      doXfer := fun p epoch w =>
        match (w.parts p).asProcess with
        | some r => b.doXfer p epoch (w.set p (.process r.doXfer))
        | none => b.doXfer p epoch w
      hasPendingCommit := fun p w => (w.parts p).hasPendingCommit
      runtimeFailureCode := fun p w => (w.parts p).runtimeFailureCode
      activateFrom := fun p source w =>
        match (w.parts p).asProcess with
        | some r => ((r.activateFrom source).1, w.set p (.process (r.activateFrom source).2))
        | none => b.activateFrom p source w
      deliverEvent := fun p kind payload epoch w =>
        match (w.parts p).asProcess with
        | some _ => (true, w)
        | none => b.deliverEvent p kind payload epoch w
      requestTraceEnd := fun p w =>
        match (w.parts p).asProcess with
        | some r => (r.requestTraceEnd.1, w.set p (.process r.requestTraceEnd.2))
        | none => (false, w)
      runtimeState := fun p epoch w => (w.parts p).runtimeState w.parts epoch }

/-- A host that starts from processes that have not failed and has no way into their points. -/
def componentHost (R α : Type) : Host (ObjectWorld R α) where
  initial w := w.Unfailed
  calls b := ∀ w w', (b w).Leaf w' → w.Uses w'

/-! ### No process has failed -/

variable {c : Config} {b : Behaviour R α}

variable {w : ObjectWorld R α} {p : Ptr} {ok : State (ObjectWorld R α) → Prop}
    {r s : State (ObjectWorld R α)} {epoch : Epoch}

omit [PacketTraits α] in
theorem unfailed_of_uses_set {w' : ObjectWorld R α} {r : ProcessRuntime} (hw : w.Unfailed)
    (huses : (w.set p (.process r)).Uses w')
    (hcode : (w'.parts p).runtimeFailureCode.isEmpty = true) : w'.Unfailed := by
  intro p' r' hr' hfailed
  rcases eq_or_ne p' p with rfl | hne
  · cases hpart : w'.parts p' with
    | process q =>
      rw [hpart] at hr' hcode
      cases hr'
      exact r'.reported hfailed (String.isEmpty_iff.mp hcode)
    | _ =>
      rw [hpart] at hr'
      cases hr'
  · have hp := huses p'
    rw [set_parts_of_ne w hne, hr'] at hp
    cases hr : (w.parts p').asProcess with
    | none =>
      rw [hr] at hp
      cases hp
    | some q =>
      rw [hr] at hp
      cases hp with
      | some hq => exact hw p' q hr (spares_of_uses hq hfailed)

theorem componentModel_doWork {p : Ptr} {epoch : Epoch} {w w' : ObjectWorld R α} (hw : w.Unfailed)
    (hleaf : ((componentModel c b).hooks.doWork p epoch w).Leaf w') : w'.Unfailed := by
  dsimp only [componentModel] at hleaf
  split at hleaf
  · rename_i r _
    obtain ⟨⟨point, u⟩, hwork, hleaf⟩ := (leaf_bind _).mp hleaf
    cases leaf_pure.mp hleaf
    have huses : w.Uses u := doWork_leaf Uses.refl
      (fun _ _ _ => Uses.trans) (b.uses_executeProcessStep p epoch) hwork
    exact (huses.unfailed hw).propose
  · exact (b.uses_doWork p epoch w w' hleaf).unfailed hw

theorem componentModel_keeps : (componentModel c b).Keeps (fun _ => Unfailed) fun _ _ => True where
  halt _ _ _ := trivial
  fail _ _ hw := hw
  failed _ _ _ := trivial
  doArbitrate p epoch _ w w' hw hleaf := by
    dsimp only [componentModel] at hleaf
    split at hleaf
    · cases leaf_done.mp hleaf
      exact hw
    · exact (b.uses_doArbitrate p epoch w w' hleaf).unfailed hw
  doXfer p epoch _ w w' hw hleaf := by
    refine ⟨trivial, fun hcode => ?_⟩
    dsimp only [componentModel] at hleaf hcode
    split at hleaf
    · exact unfailed_of_uses_set hw (b.uses_doXfer p epoch _ w' hleaf) hcode
    · exact (b.uses_doXfer p epoch w w' hleaf).unfailed hw
  activateFrom p source _ w hw := by
    dsimp only [componentModel]
    split
    · rename_i r hr
      exact hw.set fun hfailed => hw p r hr (spares_activateFrom source hfailed)
    · exact (b.uses_activateFrom p source w).unfailed hw
  deliverEvent p kind payload epoch _ w hw := by
    dsimp only [componentModel]
    split
    · exact hw
    · exact (b.uses_deliverEvent p kind payload epoch w).unfailed hw
  requestTraceEnd p _ w hw := by
    dsimp only [componentModel]
    split
    · rename_i r hr
      exact hw.set fun hfailed => hw p r hr (spares_requestTraceEnd hfailed)
    · exact hw

/-- The state after an epoch of a run holds no failed process. -/
theorem Runs.unfailed (h : Runs (componentModel c b) (componentHost R α) ok s)
    (live : s.sys.terminated = false)
    (hexecute : executeEpoch (componentModel c b) s = (some (), r)) : r.world.Unfailed := by
  have hwork (p epoch) (w w' : ObjectWorld R α) (hw : w.Unfailed)
      (hleaf : ((componentModel c b).hooks.doWork p epoch w).Leaf w') : w'.Unfailed :=
    componentModel_doWork hw hleaf
  have hs : s.world.Unfailed := h.objects_invariant componentModel_keeps hwork (fun _ hw => hw)
    (fun _ w w' hcalls hw hleaf => (hcalls w w' hleaf).unfailed hw) live
  exact (kept_objects componentModel_keeps hwork s hs).of_eq hexecute

/-! ### The verdict -/

/-- The step from `s` executes an epoch, which leaves `r` with nothing to do; the run then ends
neither by a cap nor by a failure that is not about unfinished objects. -/
structure EndsExhausted {W : Type} (m : Model W) (s r : State W) : Prop where
  live : s.sys.terminated = false
  executes : executeEpoch m s = (some (), r)
  exhausted : nextEpoch r.sys = none
  noCap : (step m s).2.sys.result.classification ≠ .incomplete
  noFailure : ∀ d ∈ (step m s).2.sys.result.diagnostic,
    d ≠ .multipleTraceOwners ∧ d ≠ .windowOverflow

/-- The code of a run that ends with unfinished objects. -/
def Config.stuckCode (c : Config) : String :=
  if c.deadlockWindow.isNone then "no_progress" else "deadlock_window_reached"

/-- How an exhausted run ends, by what the objects report. -/
theorem EndsExhausted.verdict {W : Type} {m : Model W} {s r : State W} (h : EndsExhausted m s r) :
    ((∀ p ∈ m.config.runtimeObjects,
        (m.hooks.runtimeState p r.sys.epoch r.world).quiescent = true) ∧
      (step m s).2.sys.result.classification = .completed) ∨
    ((∃ p ∈ m.config.runtimeObjects,
        (m.hooks.runtimeState p r.sys.epoch r.world).quiescent = false) ∧
      (step m s).2.sys.result.classification = .failed ∧
      (step m s).2.sys.result.diagnostic.map Diagnostic.code = some m.config.stuckCode) := by
  have hend := step_exhausted h.executes h.exhausted
  have hnoCap := h.noCap
  have hnoFailure := h.noFailure
  have hblocked : (refreshed m ⟨r.sys.closeEpoch, r.world⟩).noProgress.blockedObjects = [] ↔
      ∀ p ∈ m.config.runtimeObjects,
        (m.hooks.runtimeState p r.sys.epoch r.world).quiescent = true := by
    simp [refreshed, noProgressOf, objectStates, SimSystem.closeEpoch]
  have hstuck (hne : (refreshed m ⟨r.sys.closeEpoch, r.world⟩).noProgress.blockedObjects ≠ []) :
      ∃ p ∈ m.config.runtimeObjects,
        (m.hooks.runtimeState p r.sys.epoch r.world).quiescent = false := by
    rw [ne_eq, hblocked] at hne
    push Not at hne
    obtain ⟨p, hp, hq⟩ := hne
    exact ⟨p, hp, Bool.not_eq_true _ ▸ hq⟩
  generalize (step m s).2.sys = t at hnoCap hnoFailure hend ⊢
  cases hend with
  | traceOwners => exact absurd rfl (hnoFailure _ rfl).1
  | traceCap => exact absurd rfl hnoCap
  | classified _ hclass =>
    cases hclass with
    | completed hempty => exact Or.inl ⟨hblocked.mp hempty, rfl⟩
    | noProgress hne hwindow | deadline hne hwindow =>
      refine Or.inr ⟨hstuck hne, rfl, ?_⟩
      rw [Config.stuckCode, hwindow]
      rfl
    | overflow => exact absurd rfl (hnoFailure _ rfl).2
    | maxTicks => exact absurd rfl hnoCap

/-- No runtime object holds unfinished state. -/
def AllFinished (c : Config) (w : ObjectWorld R α) : Prop :=
  ∀ p ∈ c.runtimeObjects, (w.parts p).Finished w.parts

/-- The run is completed exactly when everything is finished, and stuck otherwise. -/
def RightVerdict (c : Config) (w : ObjectWorld R α) (result : TerminationResult) : Prop :=
  (result.classification = .completed ↔ AllFinished c w) ∧
    (¬ AllFinished c w → result.classification = .failed ∧
      result.diagnostic.map Diagnostic.code = some c.stuckCode)

/-- All depends on the host egresses: everything else has finished, none of them has proposed a
pop, and their mailboxes are all empty or all occupied. -/
def Misjudged (c : Config) (w : ObjectWorld R α) : Prop :=
  (∃ p ∈ c.runtimeObjects, (w.parts p).isEgress = true) ∧
  (∀ p ∈ c.runtimeObjects, (w.parts p).isEgress = false → (w.parts p).Finished w.parts) ∧
  ((∀ p ∈ c.runtimeObjects, ∀ h, w.parts p = .hostEgress h →
      h.mailbox = none ∧ h.proposed = false) ∨
    (∀ p ∈ c.runtimeObjects, ∀ h, w.parts p = .hostEgress h →
      h.mailbox.isSome = true ∧ h.proposed = false))

/-- A system without egresses reports what it holds; with egresses, a mailbox counts the wrong
way round. -/
theorem quiescent_iff_of_egress (hw : w.Unfailed) :
    ((w.parts p).runtimeState w.parts epoch).quiescent = true ↔
      ((w.parts p).isEgress = false → (w.parts p).Finished w.parts) ∧
      ∀ h, w.parts p = .hostEgress h → h.mailbox.isSome = true ∧ h.proposed = false := by
  cases hegress : (w.parts p).isEgress with
  | false =>
    have hfailed : (w.parts p).hasFailed = false := by
      cases hpart : w.parts p with
      | process r => exact decide_eq_false (hw p r (by rw [hpart]; rfl))
      | _ => rfl
    rw [Component.quiescent_iff w.parts hegress hfailed]
    refine ⟨fun hfin => ⟨fun _ => hfin, fun h hpart => ?_⟩, fun h => h.1 rfl⟩
    rw [hpart] at hegress
    cases hegress
  | true =>
    cases hpart : w.parts p with
    | hostEgress h =>
      simp only [Component.runtimeState, HostEgress.quiescent_iff, Component.hostEgress.injEq]
      exact ⟨fun hq => ⟨by simp, fun _ heq => heq ▸ hq⟩, fun hq => hq.2 h rfl⟩
    | _ =>
      rw [hpart] at hegress
      cases hegress

/-- Every object but the egresses has finished. -/
def OthersFinished (c : Config) (w : ObjectWorld R α) : Prop :=
  ∀ p ∈ c.runtimeObjects, (w.parts p).isEgress = false → (w.parts p).Finished w.parts

theorem allFinished_iff : AllFinished c w ↔ OthersFinished c w ∧
    ∀ p ∈ c.runtimeObjects, ∀ h, w.parts p = .hostEgress h →
      h.mailbox = none ∧ h.proposed = false := by
  constructor
  · refine fun hall => ⟨fun p hp _ => hall p hp, fun p hp h hpart => ?_⟩
    have hfin := hall p hp
    rw [hpart] at hfin
    exact hfin
  · rintro ⟨hothers, hempty⟩ p hp
    cases hegress : (w.parts p).isEgress with
    | false => exact hothers p hp hegress
    | true =>
      cases hpart : w.parts p with
      | hostEgress h => exact hempty p hp h hpart
      | _ =>
        rw [hpart] at hegress
        cases hegress

/-- Every object reports itself quiescent. -/
def AllQuiescent (c : Config) (epoch : Epoch) (w : ObjectWorld R α) : Prop :=
  ∀ p ∈ c.runtimeObjects, ((w.parts p).runtimeState w.parts epoch).quiescent = true

theorem allQuiescent_iff (hw : w.Unfailed) : AllQuiescent c epoch w ↔ OthersFinished c w ∧
      ∀ p ∈ c.runtimeObjects, ∀ h, w.parts p = .hostEgress h →
        h.mailbox.isSome = true ∧ h.proposed = false := by
  simp only [AllQuiescent, quiescent_iff_of_egress hw]
  exact ⟨fun h => ⟨fun p hp => (h p hp).1, fun p hp => (h p hp).2⟩,
    fun h p hp => ⟨h.1 p hp, h.2 p hp⟩⟩

/-- The reports and the contents agree unless the egresses decide. -/
theorem allQuiescent_iff_allFinished (hw : w.Unfailed) (epoch : Epoch) :
    (AllQuiescent c epoch w ↔ AllFinished c w) ↔ ¬ Misjudged c w := by
  rw [allQuiescent_iff hw, allFinished_iff]
  have hclash (p : Ptr) (h : HostEgress α) (hp : p ∈ c.runtimeObjects)
      (hpart : w.parts p = .hostEgress h)
      (hempty : ∀ p ∈ c.runtimeObjects, ∀ h, w.parts p = .hostEgress h →
        h.mailbox = none ∧ h.proposed = false)
      (hfull : ∀ p ∈ c.runtimeObjects, ∀ h, w.parts p = .hostEgress h →
        h.mailbox.isSome = true ∧ h.proposed = false) : False := by
    have hsome := (hfull p hp h hpart).1
    rw [(hempty p hp h hpart).1] at hsome
    cases hsome
  constructor
  · rintro hagree ⟨⟨p, hp, hegress⟩, hothers, hboxes⟩
    cases hpart : w.parts p with
    | hostEgress h =>
      rcases hboxes with hempty | hfull
      · exact hclash p h hp hpart hempty (hagree.mpr ⟨hothers, hempty⟩).2
      · exact hclash p h hp hpart (hagree.mp ⟨hothers, hfull⟩).2 hfull
    | _ =>
      rw [hpart] at hegress
      cases hegress
  · intro hright
    by_cases hsome : ∃ p ∈ c.runtimeObjects, (w.parts p).isEgress = true
    · exact ⟨fun h => absurd ⟨hsome, h.1, Or.inr h.2⟩ hright,
        fun h => absurd ⟨hsome, h.1, Or.inl h.2⟩ hright⟩
    · have hnone (p : Ptr) (hp : p ∈ c.runtimeObjects) (h : HostEgress α)
          (hpart : w.parts p = .hostEgress h) : False :=
        hsome ⟨p, hp, by rw [hpart]; rfl⟩
      exact ⟨fun h => ⟨h.1, fun p hp q hq => (hnone p hp q hq).elim⟩,
        fun h => ⟨h.1, fun p hp q hq => (hnone p hp q hq).elim⟩⟩

/-- The verdict on an exhausted run is right unless the host egresses decide. -/
theorem completed_iff_finished (hrun : Runs (componentModel c b) (componentHost R α) ok s)
    (hend : EndsExhausted (componentModel c b) s r) :
    RightVerdict c r.world (step (componentModel c b) s).2.sys.result ↔
      ¬ Misjudged c r.world := by
  have hunfailed := hrun.unfailed hend.live hend.executes
  rw [← allQuiescent_iff_allFinished hunfailed r.sys.epoch]
  rcases hend.verdict with ⟨hquiet, hcompleted⟩ | ⟨⟨p, hp, hbusy⟩, hfailed, hcode⟩
  · have hquiet : AllQuiescent c r.sys.epoch r.world := hquiet
    constructor
    · exact fun hright => ⟨fun _ => hright.1.mp hcompleted, fun _ => hquiet⟩
    · exact fun hagree => ⟨⟨fun _ => hagree.mp hquiet, fun _ => hcompleted⟩,
        fun hopen => absurd (hagree.mp hquiet) hopen⟩
  · have hbusy : ¬ AllQuiescent c r.sys.epoch r.world := by
      intro hquiet
      have hp := hquiet p hp
      exact Bool.false_ne_true (hbusy.symm.trans hp)
    have hopen : (step (componentModel c b) s).2.sys.result.classification ≠ .completed := by
      rw [hfailed]
      nofun
    constructor
    · exact fun hright => ⟨fun hquiet => absurd hquiet hbusy,
        fun hfin => absurd (hright.1.mpr hfin) hopen⟩
    · intro hagree
      exact ⟨⟨fun hcompleted => absurd hcompleted hopen, fun hfin => absurd (hagree.mpr hfin) hbusy⟩,
        fun _ => ⟨hfailed, hcode⟩⟩

end model

/-! ### Host bridges and queues -/

section bridges

variable {R α : Type} [PacketTraits α] (w : ObjectWorld R α)

/-- `HostIngress::doWork`. -/
def ObjectWorld.workIngress (p : Ptr) (h : HostIngress α) : Body (ObjectWorld R α) :=
  match h.mailbox, (w.parts h.destination).asQueue with
  | some value, some q =>
    if h.proposed then .done w
    else do
      let r ← q.proposePush value
      return (w.set h.destination (.queue r.1)).set p (.hostIngress { h with proposed := r.2 })
  | _, _ => .done w

/-- `HostEgress::doWork`. -/
def ObjectWorld.workEgress (p : Ptr) (h : HostEgress α) : Body (ObjectWorld R α) :=
  match (w.parts h.source).asQueue with
  | some q =>
    if h.mailbox.isSome || h.proposed then .done w
    else do
      let r ← q.proposePop
      let popped := w.set h.source (.queue r.1)
      match r.2 with
      | some value =>
        let h := { h with proposedValue := some value, proposed := true }
        return popped.set p (.hostEgress h)
      | none => return popped
  | none => .done w

end bridges

section bridgeModel

variable {R α : Type} [PacketTraits α]

variable {part : Component α} {w w' : ObjectWorld R α} {p : Ptr}

omit [PacketTraits α] in
theorem asProcess_of_asQueue {q : SimQueue α} (h : part.asQueue = some q) :
    part.asProcess = none := by
  cases part with
  | process => cases h
  | _ => rfl

omit [PacketTraits α] in
theorem uses_set_set {p' : Ptr} {part' : Component α} (hp : (w.parts p).asProcess = none)
    (hp' : (w.parts p').asProcess = none) (hpart : part.asProcess = none)
    (hpart' : part'.asProcess = none) : w.Uses ((w.set p part).set p' part') := by
  refine (uses_set hp hpart).trans (uses_set ?_ hpart')
  rcases eq_or_ne p' p with rfl | hne
  · rw [set_parts_self, hpart]
  · rw [set_parts_of_ne w hne, hp']

theorem uses_workIngress {h : HostIngress α} (hp : w.parts p = .hostIngress h)
    (hleaf : (w.workIngress p h).Leaf w') : w.Uses w' := by
  unfold workIngress at hleaf
  split at hleaf
  · rename_i hq
    split at hleaf
    · cases leaf_done.mp hleaf
      exact .refl w
    · obtain ⟨r, _, hleaf⟩ := (leaf_bind _).mp hleaf
      cases leaf_pure.mp hleaf
      exact uses_set_set (asProcess_of_asQueue hq) (by rw [hp]; rfl) rfl rfl
  · cases leaf_done.mp hleaf
    exact .refl w

omit [PacketTraits α] in
theorem uses_workEgress {h : HostEgress α} (hp : w.parts p = .hostEgress h)
    (hleaf : (w.workEgress p h).Leaf w') : w.Uses w' := by
  unfold workEgress at hleaf
  split at hleaf
  · rename_i hq
    split at hleaf
    · cases leaf_done.mp hleaf
      exact .refl w
    obtain ⟨r, _, hleaf⟩ := (leaf_bind _).mp hleaf
    dsimp only at hleaf
    split at hleaf
    · cases leaf_pure.mp hleaf
      exact uses_set_set (asProcess_of_asQueue hq) (by rw [hp]; rfl) rfl rfl
    · cases leaf_pure.mp hleaf
      exact uses_set (asProcess_of_asQueue hq) rfl
  · cases leaf_done.mp hleaf
    exact .refl w

/-- Queues and host bridges around processes whose generated code keeps to `Uses`. -/
def bridgeBehaviour
    (execute : Ptr → Epoch → ℕ → ObjectWorld R α → Body (ProcessStep × ObjectWorld R α))
    (huses : ∀ p epoch pc (w : ObjectWorld R α) step w',
      (execute p epoch pc w).Leaf (step, w') → w.Uses w') : Behaviour R α where
  executeProcessStep := execute
  doWork p _ w :=
    match w.parts p with
    | .hostIngress h => w.workIngress p h
    | .hostEgress h => w.workEgress p h
    | _ => .done w
  doArbitrate p _ w :=
    match w.parts p with
    | .queue q => do
        let q ← q.doArbitrate
        return w.set p (.queue q)
    | _ => .done w
  doXfer p epoch w :=
    match w.parts p with
    | .queue q => .done (w.set p (.queue (q.doXfer epoch)))
    | .hostIngress h => .done (w.set p (.hostIngress (h.doXfer epoch)))
    | .hostEgress h => .done (w.set p (.hostEgress (h.doXfer epoch)))
    | _ => .done w
  uses_executeProcessStep := huses
  uses_doWork p epoch w w' hleaf := by
    split at hleaf
    · rename_i h hp
      exact uses_workIngress hp hleaf
    · rename_i h hp
      exact uses_workEgress hp hleaf
    · cases leaf_done.mp hleaf
      exact .refl w
  uses_doArbitrate p epoch w w' hleaf := by
    split at hleaf
    · rename_i q hp
      obtain ⟨q', _, hleaf⟩ := (leaf_bind _).mp hleaf
      cases leaf_pure.mp hleaf
      exact uses_set (by rw [hp]; rfl) rfl
    · cases leaf_done.mp hleaf
      exact .refl w
  uses_doXfer p epoch w w' hleaf := by
    split at hleaf
    · rename_i hp
      cases leaf_done.mp hleaf
      exact uses_set (by rw [hp]; rfl) rfl
    · rename_i hp
      cases leaf_done.mp hleaf
      exact uses_set (by rw [hp]; rfl) rfl
    · rename_i hp
      cases leaf_done.mp hleaf
      exact uses_set (by rw [hp]; rfl) rfl
    · cases leaf_done.mp hleaf
      exact .refl w
  uses_activateFrom _ _ w := .refl w
  uses_deliverEvent _ _ _ _ w := .refl w

end bridgeModel

/-! ### Runs with an egress -/

/-- What an egress retains for the host. -/
def Component.egressMailbox {α : Type} : Component α → Option α
  | hostEgress h => h.mailbox
  | _ => none

theorem AllFinished.egressMailbox {R α : Type} [PacketTraits α] {c : Config}
    {w : ObjectWorld R α} (h : AllFinished c w) {p : Ptr} (hp : p ∈ c.runtimeObjects) :
    (w.parts p).egressMailbox = none := by
  have hfin := h p hp
  revert hfin
  cases w.parts p with
  | hostEgress => exact fun hfin => hfin.1
  | _ => exact fun _ => rfl

/-- The process at 0 pushes an entry to the queue at 1, or nothing, and terminates. -/
def producer (pushes : Bool) : Behaviour Unit ℕ :=
  let execute := fun (w : ObjectWorld Unit ℕ) =>
    match pushes, (w.parts 1).asQueue with
    | true, some q => do
        let r ← q.proposePush 7
        return (ProcessStep.terminate, w.set 1 (.queue r.1))
    | _, _ => .done (ProcessStep.terminate, w)
  bridgeBehaviour (fun _ _ _ w => execute w) (by
    intro _ _ _ w _ w' hleaf
    dsimp only [execute] at hleaf
    split at hleaf
    · rename_i hq
      obtain ⟨r, _, hleaf⟩ := (leaf_bind _).mp hleaf
      cases leaf_pure.mp hleaf
      exact uses_set (asProcess_of_asQueue hq) rfl
    · cases leaf_done.mp hleaf
      exact .refl w)

/-- A commit of the queue activates the bridge at 2. -/
def bridgeConfig : Config :=
  { Config.ofKinds [.process, .queue, .compute] with
    activation := { offsets := [0, 0, 1, 1], targets := [2] } }

def bridgeModel (pushes : Bool) : Model (ObjectWorld Unit ℕ) :=
  componentModel bridgeConfig (producer pushes)

def bridgeWorld (bridge : Component ℕ) : ObjectWorld Unit ℕ where
  parts
    | 0 => .process (.construct 0 0 16)
    | 1 => .queue { id := 1, entryCapacity := 4, system := some 0 }
    | 2 => bridge
    | _ => .module
  rest := ()

/-- The state after the start of `run` and `n` steps. -/
def bridgeAt (bridge : Component ℕ) (pushes : Bool) : ℕ → State (ObjectWorld Unit ℕ)
  | 0 => startRun (bridgeModel pushes) (State.fresh (bridgeModel pushes) (bridgeWorld bridge))
  | n + 1 => (step (bridgeModel pushes) (bridgeAt bridge pushes n)).2

/-- The state after the epoch of step `n`, before its verdict. -/
def bridgeEpoch (bridge : Component ℕ) (pushes : Bool) (n : ℕ) : State (ObjectWorld Unit ℕ) :=
  (executeEpoch (bridgeModel pushes) (bridgeAt bridge pushes n)).2

theorem bridgeAt_runs {bridge : Component ℕ} (hbridge : bridge.asProcess = none)
    (pushes : Bool) : ∀ n, Runs (bridgeModel pushes) (componentHost Unit ℕ) (fun _ => True)
      (bridgeAt bridge pushes n)
  | 0 => by
    refine .start (.fresh _ fun p r hr => ?_) rfl
    match p, hr with
    | 0, rfl => nofun
    | 2, hr =>
      have hnone : bridge.asProcess = some r := hr
      rw [hbridge] at hnone
      cases hnone
    | 1, hr | p + 3, hr => cases hr
  | n + 1 => .step (bridgeAt_runs hbridge pushes n) trivial

/-- With an ingress in the place of the egress the run completes. -/
theorem completed_iff_finished_ingress :
    RightVerdict bridgeConfig (bridgeEpoch (.hostIngress { destination := 1 }) false 0).world
      (bridgeAt (.hostIngress { destination := 1 }) false 1).sys.result := by
  refine (completed_iff_finished (bridgeAt_runs rfl false 0) ?_).mpr ?_
  · exact ⟨by decide, Prod.ext (by decide) rfl, by decide, by decide, by decide⟩
  · rintro ⟨⟨p, hp, hegress⟩, _⟩
    revert p
    decide

/-- An idle egress fails a run in which everything has finished, and an occupied egress is taken
for finished. -/
theorem egress_turns_verdict :
    (EndsExhausted (bridgeModel false) (bridgeAt (.hostEgress { source := 1 }) false 0)
        (bridgeEpoch (.hostEgress { source := 1 }) false 0) ∧
      AllFinished bridgeConfig (bridgeEpoch (.hostEgress { source := 1 }) false 0).world ∧
      (bridgeAt (.hostEgress { source := 1 }) false 1).sys.result.classification = .failed ∧
      ¬ RightVerdict bridgeConfig (bridgeEpoch (.hostEgress { source := 1 }) false 0).world
        (bridgeAt (.hostEgress { source := 1 }) false 1).sys.result) ∧
    (EndsExhausted (bridgeModel true) (bridgeAt (.hostEgress { source := 1 }) true 2)
        (bridgeEpoch (.hostEgress { source := 1 }) true 2) ∧
      ¬ AllFinished bridgeConfig (bridgeEpoch (.hostEgress { source := 1 }) true 2).world ∧
      (bridgeAt (.hostEgress { source := 1 }) true 3).sys.result.classification = .completed) := by
  have hobjects : bridgeConfig.runtimeObjects = [0, 1, 2] := by decide
  have hidle : AllFinished bridgeConfig
      (bridgeEpoch (.hostEgress { source := 1 }) false 0).world := by
    intro p hp
    rw [hobjects] at hp
    simp only [List.mem_cons, List.not_mem_nil, or_false] at hp
    rcases hp with rfl | rfl | rfl
    · exact ⟨by decide, by decide⟩
    · exact ⟨by decide, by decide, by decide⟩
    · exact ⟨by decide, by decide⟩
  have hoccupied : ((bridgeEpoch (.hostEgress { source := 1 }) true 2).world.parts
      2).egressMailbox ≠ none := by decide +kernel
  have hfailed :
      (bridgeAt (.hostEgress { source := 1 }) false 1).sys.result.classification = .failed := by
    decide
  refine ⟨⟨?_, hidle, hfailed, fun hright => ?_⟩, ?_, fun hall => ?_, by decide +kernel⟩
  · exact ⟨by decide, Prod.ext (by decide) rfl, by decide, by decide, by decide⟩
  · cases hfailed.symm.trans (hright.1.mpr hidle)
  · exact ⟨by decide +kernel, Prod.ext (by decide +kernel) rfl, by decide +kernel,
      by decide +kernel, by decide +kernel⟩
  · exact hoccupied (hall.egressMailbox (by decide))

end AgenticCircuit.Gfsim
