import AgenticCircuit.Dialect.StructuredOnce
import Mathlib.Data.List.GetD

/-! # Ports of the queues and arbitrated transfers

The check of a module that in one commit epoch no queue is popped twice or pushed twice by
`ac.try_transfer`, and the runs it is about.

* **Check.** Every operation on a queue is recorded as a use of one of its ports; two uses of one
  port conflict unless none of them is a transfer, or both are transfers enabled by two grants of
  one arbiter whose candidates share a resource (`verifyQueuePorts`).
* **Arbiters.** `greedyGrants` is the combinational network of `lowerArbiters`, `roundRobinGrants`
  the generated helper.  An arbiter stands directly in the body of its process, so its grants are
  chosen when the body begins and stay until it begins again.
* **Runs.** Between two commits a process takes at most one activation, from where it is to its next
  suspension. -/

namespace AgenticCircuit.Dialect

open List Bool

/-! ### Arbiters -/

inductive Policy where
  | greedyFixedPriority
  | roundRobin
deriving DecidableEq

/-- An `ac.arbitrate` operation, by the resources of its candidates. -/
structure Arbiter where
  policy : Policy
  candidateResources : List (List String)
deriving DecidableEq

/-- The network of the greedy arbiter: a candidate is granted when no earlier grant occupies
one of its resources. -/
def greedyGrants (occupied : String → Bool) : List (Bool × List String) → List Bool
  | [] => []
  | (request, resources) :: rest =>
    let grant := request && !resources.any occupied
    grant :: greedyGrants
      (fun resource => occupied resource || (resources.contains resource && grant)) rest

/-- The winner of the round-robin helper: the first request from `start` on. -/
def roundRobinWinner (requests : List Bool) (start : ℕ) : Option ℕ :=
  ((List.range requests.length).map fun offset =>
    (start + offset) % 2 ^ 32 % requests.length).find? fun candidate =>
      requests.getD candidate false

/-- The grants of the round-robin helper. -/
def roundRobinGrants (requests : List Bool) (state : ℕ) : List Bool :=
  let start := state % 2 ^ 32 % requests.length
  (List.range requests.length).map fun candidate =>
    roundRobinWinner requests start == some candidate

/-- The grants an arbiter may give. -/
def Arbiter.Grants (arbiter : Arbiter) (grants : List Bool) : Prop :=
  ∃ requests : List Bool, requests.length = arbiter.candidateResources.length ∧
    match arbiter.policy with
    | .greedyFixedPriority =>
      grants = greedyGrants (fun _ => false) (requests.zip arbiter.candidateResources)
    | .roundRobin => ∃ state, grants = roundRobinGrants requests state

/-- Two candidates share a resource. -/
def Arbiter.shares (arbiter : Arbiter) (left right : ℕ) : Bool :=
  (arbiter.candidateResources.getD right []).any
    (arbiter.candidateResources.getD left []).contains

/-! ### Operations and processes -/

/-- The `i1` operand that enables a transfer. -/
inductive Enable where
  | constant (value : Bool)
  | grant (arbiter index : ℕ)
  | computed
deriving DecidableEq

/-- An `ac.try_transfer`; operations are told apart by `id`. -/
structure Transfer where
  id : ℕ
  source : String
  destination : String
  enable : Enable
deriving DecidableEq

/-- Operations as the port check sees them. -/
inductive PortOperation where
  | tryTransfer (transfer : Transfer)
  | trySend (queue : String)
  | tryRecv (queue : String)
  | suspension
  | yieldSim
  | other
deriving DecidableEq

instance : ProcessOperation PortOperation where
  isSuspension
    | .suspension | .yieldSim => true
    | .tryTransfer _ | .trySend _ | .tryRecv _ | .other => false
  isYieldSim
    | .yieldSim => true
    | _ => false
  isSuspension_of_isYieldSim a h := by
    cases a with
    | yieldSim => rfl
    | _ => cases h

def isTransfer : PortOperation → Bool
  | .tryTransfer _ => true
  | _ => false

/-- A process: its arbiters, in order, and its body.  No operation occurs twice. -/
structure PortProcess where
  arbiters : List Arbiter
  body : Block PortOperation
  distinct : (operations isTransfer body).Nodup

structure PortModule where
  processes : List PortProcess

/-! ### The check -/

/-- A recorded use of a port of a queue. -/
structure PortUse where
  process : ℕ
  queue : String
  pop : Bool
  transfer : Option Transfer
deriving DecidableEq

/-- The uses one operation is recorded with. -/
def operationUses (process : ℕ) : PortOperation → List PortUse
  | .tryTransfer transfer =>
    [⟨process, transfer.source, true, some transfer⟩,
      ⟨process, transfer.destination, false, some transfer⟩]
  | .trySend queue => [⟨process, queue, false, none⟩]
  | .tryRecv queue => [⟨process, queue, true, none⟩]
  | .suspension | .yieldSim | .other => []

/-- The uses of a process, in the order of the walk. -/
def processUses (process : ℕ) (body : Block PortOperation) : List PortUse :=
  (operations (fun _ => true) body).flatMap (operationUses process)

variable (m : PortModule)

namespace PortModule

/-- All uses of the module. -/
def uses : List PortUse :=
  (m.processes.zipIdx.map fun entry => processUses entry.2 entry.1.body).flatten

/-- Two transfers that one arbiter never enables together. -/
def mutuallyExclusive (left right : PortUse) (l r : Transfer) : Bool :=
  match l.enable, r.enable with
  | .grant leftArbiter leftIndex, .grant rightArbiter rightIndex =>
    left.process = right.process && leftArbiter = rightArbiter && leftIndex ≠ rightIndex &&
      match (m.processes[left.process]?).bind (·.arbiters[leftArbiter]?) with
      | some arbiter => arbiter.shares leftIndex rightIndex
      | none => false
  | _, _ => false

/-- A new use does not conflict with a prior one. -/
def compatible (prior use : PortUse) : Bool :=
  prior.queue ≠ use.queue || prior.pop ≠ use.pop ||
    match use.transfer, prior.transfer with
    | none, none => true
    | some transfer, some other => m.mutuallyExclusive use prior transfer other
    | _, _ => false

/-- `recordPortUse` for one use after the other. -/
def recordPortUses : List PortUse → List PortUse → Bool
  | _, [] => true
  | priorUses, use :: rest =>
    priorUses.all (m.compatible · use) && recordPortUses (priorUses ++ [use]) rest

/-- One grant directly enables at most one transfer. -/
def grantsDistinct : Bool :=
  ((m.uses.filter (·.pop)).filterMap fun use =>
    match use.transfer with
    | some ⟨_, _, _, .grant arbiter index⟩ => some (use.process, arbiter, index)
    | _ => none).Nodup

def verifyQueuePorts : Bool := m.grantsDistinct && m.recordPortUses [] m.uses

/-- The module verifier, as far as ports and control flow are concerned. -/
def verify : Bool := m.processes.all (fun process => verifyProcess process.body) &&
  m.verifyQueuePorts

/-! ### Runs -/

end PortModule

/-- A process between two steps: where it is, and the grants of its arbiters in the present
run of the body. -/
structure PortState where
  config : Config PortOperation
  grants : ℕ → List Bool

/-- The values the enable of a transfer may have. -/
def Enable.Allows (grants : ℕ → List Bool) : Enable → Bool → Prop
  | .constant value, enabled => enabled = value
  | .grant arbiter index, enabled => enabled = (grants arbiter).getD index false
  | .computed, _ => True

/-- An operation is executed with the given enable; only transfers have one. -/
def PortOperation.Allows (grants : ℕ → List Bool) : PortOperation → Bool → Prop
  | .tryTransfer transfer, enabled => transfer.enable.Allows grants enabled
  | _, enabled => enabled = true

/-- A step of a process, with the operation it executes.  When the body begins anew, so do the
grants. -/
inductive PortStep (process : PortProcess) :
    PortState → Option (PortOperation × Bool) → PortState → Prop
  | execute {c c' operation grants enabled} : Step c (.execute operation) c' →
      operation.Allows grants enabled →
        PortStep process ⟨c, grants⟩ (some (operation, enabled)) ⟨c', grants⟩
  | silent {c c' label grants} : Step c label c' → (∀ operation, label ≠ .execute operation) →
      c ≠ [.process process.body] → PortStep process ⟨c, grants⟩ none ⟨c', grants⟩
  | restart {grants grants'} :
      (∀ (index : ℕ) (arbiter : Arbiter), process.arbiters[index]? = some arbiter →
        arbiter.Grants (grants' index)) →
        PortStep process ⟨[.process process.body], grants⟩ none
          ⟨[.block process.body, .process process.body], grants'⟩

/-- The work of a process between two commits: steps up to and including the first
suspension. -/
inductive Works (process : PortProcess) :
    PortState → List (PortOperation × Bool) → PortState → Prop
  | idle (state) : Works process state [] state
  | step {state event state' events state''} : PortStep process state event state' →
      (∀ executed ∈ event, isSuspension executed.1 = false) →
      Works process state' events state'' → Works process state (event.toList ++ events) state''
  | suspend {state executed state'} : PortStep process state (some executed) state' →
      isSuspension executed.1 = true → Works process state [executed] state'

namespace PortModule

/-- One epoch: every process works once. -/
def Epoch (states : ℕ → PortState) (events : ℕ → List (PortOperation × Bool))
    (states' : ℕ → PortState) : Prop :=
  ∀ (index : ℕ) (process : PortProcess), m.processes[index]? = some process →
    Works process (states index) (events index) (states' index)

/-- The states a module reaches between two epochs. -/
inductive Runs : (ℕ → PortState) → Prop
  | start {states} : (∀ (index : ℕ) (process : PortProcess), m.processes[index]? = some process →
      (states index).config = [.process process.body]) → Runs states
  | epoch {states events states'} : Runs states → m.Epoch states events states' → Runs states'

/-- The port of a queue an executed transfer uses: `pop` of its source, else push of its
destination. -/
def Transfer.port (pop : Bool) (transfer : Transfer) : String :=
  if pop then transfer.source else transfer.destination

/-- The transfer an event stands for, if it is an enabled one that uses the given port. -/
def enabledTransfer (index : ℕ) (queue : String) (pop : Bool) :
    PortOperation × Bool → Option (ℕ × Transfer)
  | (.tryTransfer transfer, true) =>
    if Transfer.port pop transfer = queue then some (index, transfer) else none
  | _ => none

/-- The enabled transfers of an epoch that use one port, with their processes. -/
def enabledTransfers (events : ℕ → List (PortOperation × Bool)) (queue : String) (pop : Bool) :
    List (ℕ × Transfer) :=
  (List.range m.processes.length).flatMap fun index =>
    (events index).filterMap (enabledTransfer index queue pop)

/-- Some transfer of the module uses the port. -/
def HasTransfer (queue : String) (pop : Bool) : Prop :=
  ∃ process ∈ m.processes, ∃ transfer,
    .tryTransfer transfer ∈ operations isTransfer process.body ∧
      Transfer.port pop transfer = queue

/-- The plain operation on a port: `ac.try_recv` pops, `ac.try_send` pushes. -/
def plainOperation (queue : String) (pop : Bool) : PortOperation :=
  if pop then .tryRecv queue else .trySend queue

/-- In one epoch every port is used by at most one enabled transfer, and a port that some
transfer uses by no plain operation. -/
def PortsExclusive (events : ℕ → List (PortOperation × Bool)) : Prop :=
  ∀ queue pop, (m.enabledTransfers events queue pop).length ≤ 1 ∧
    (m.HasTransfer queue pop → ∀ index < m.processes.length,
      ∀ executed ∈ events index, executed.1 ≠ plainOperation queue pop)

end PortModule

/-! ### Exclusive grants -/

variable {candidates : List (Bool × List String)}

theorem greedyGrants_free :
    ∀ {occupied : String → Bool} {index : ℕ} {request : Bool} {resources : List String},
      candidates[index]? = some (request, resources) →
      (greedyGrants occupied candidates).getD index false = true →
        ∀ resource ∈ resources, occupied resource = false := by
  induction candidates with
  | nil => simp
  | cons candidate rest ih =>
    obtain ⟨request', resources'⟩ := candidate
    intro occupied index request resources hat hgrant resource hresource
    cases index with
    | zero =>
      obtain ⟨rfl, rfl⟩ : request' = request ∧ resources' = resources := by simpa using hat
      simp only [greedyGrants, getD_cons_zero, and_eq_true, not_eq_true', any_eq_false] at hgrant
      exact eq_false_iff.mpr (hgrant.2 resource hresource)
    | succ index =>
      have hfree := ih (by simpa using hat) (by simpa [greedyGrants] using hgrant)
        resource hresource
      exact (or_eq_false_iff.mp hfree).1

/-- Two granted candidates share no resource. -/
theorem greedyGrants_disjoint :
    ∀ {occupied : String → Bool} {i j : ℕ} {left right : Bool × List String},
      i < j → candidates[i]? = some left → candidates[j]? = some right →
      (greedyGrants occupied candidates).getD i false = true →
      (greedyGrants occupied candidates).getD j false = true →
        ∀ resource ∈ right.2, resource ∉ left.2 := by
  induction candidates with
  | nil => simp
  | cons candidate rest ih =>
    intro occupied i j left right hlt hi hj hgi hgj resource hright hleft
    obtain ⟨j, rfl⟩ : ∃ k, j = k + 1 := ⟨j - 1, by omega⟩
    rw [getElem?_cons_succ] at hj
    cases i with
    | zero =>
      obtain rfl : candidate = left := by simpa using hi
      rw [greedyGrants, getD_cons_zero] at hgi
      -- the first grant has occupied the resource before the second candidate is looked at
      have hfree := greedyGrants_free hj hgj resource hright
      rw [hgi] at hfree
      simp [hleft] at hfree
    | succ i =>
      rw [getElem?_cons_succ] at hi
      exact ih (by omega) hi hj hgi hgj resource hright hleft

theorem roundRobinGrants_eq_true {requests : List Bool} {state index : ℕ}
    (h : (roundRobinGrants requests state).getD index false = true) :
    roundRobinWinner requests (state % 2 ^ 32 % requests.length) = some index := by
  rcases Nat.lt_or_ge index requests.length with hlt | hge
  · simpa [roundRobinGrants, hlt] using h
  · simp [roundRobinGrants, hge] at h

theorem Arbiter.Grants.exclusive {arbiter : Arbiter} {grants : List Bool}
    (h : arbiter.Grants grants) {i j : ℕ} (hne : i ≠ j) (hshares : arbiter.shares i j = true)
    (hi : grants.getD i false = true) (hj : grants.getD j false = true) : False := by
  obtain ⟨requests, hlength, hpolicy⟩ := h
  cases hkind : arbiter.policy with
  | roundRobin =>
    rw [hkind] at hpolicy
    obtain ⟨state, rfl⟩ := hpolicy
    have hwinner := (roundRobinGrants_eq_true hi).symm.trans (roundRobinGrants_eq_true hj)
    exact hne (Option.some.inj hwinner)
  | greedyFixedPriority =>
    rw [hkind] at hpolicy
    subst hpolicy
    obtain ⟨resource, hright, hleft⟩ := any_eq_true.mp hshares
    rw [contains_iff_mem] at hleft
    -- both candidates exist, since both have a resource
    have hcandidate : ∀ {k : ℕ}, resource ∈ arbiter.candidateResources.getD k [] →
        ∃ request resources, (requests.zip arbiter.candidateResources)[k]?
          = some (request, resources) ∧ resource ∈ resources := by
      intro k hk
      rcases Nat.lt_or_ge k arbiter.candidateResources.length with hlt | hge
      · rw [getD_eq_getElem _ _ hlt] at hk
        refine ⟨requests[k], arbiter.candidateResources[k], ?_, hk⟩
        rw [getElem?_zip_eq_some]
        exact ⟨getElem?_eq_getElem (by omega), getElem?_eq_getElem hlt⟩
      · rw [getD_eq_default _ _ hge] at hk
        cases hk
    obtain ⟨_, _, hatleft, hmemleft⟩ := hcandidate hleft
    obtain ⟨_, _, hatright, hmemright⟩ := hcandidate hright
    rcases Nat.lt_or_gt_of_ne hne with hlt | hgt
    · exact greedyGrants_disjoint hlt hatleft hatright hi hj resource hmemright hmemleft
    · exact greedyGrants_disjoint hgt hatright hatleft hj hi resource hmemleft hmemright

/-! ### The work of one process -/

namespace PortProcess

variable (process : PortProcess)

/-- The grants of a run of the body. -/
def ValidGrants (grants : ℕ → List Bool) : Prop :=
  ∀ (index : ℕ) (arbiter : Arbiter), process.arbiters[index]? = some arbiter →
    arbiter.Grants (grants index)

/-- States of a process: its configuration is reachable, and inside the body the grants are
those of the present run. -/
structure Good (state : PortState) : Prop where
  reachable : Reachable process.body state.config
  grants : state.config = [.process process.body] ∨ process.ValidGrants state.grants

end PortProcess

variable {process : PortProcess} {state state' state'' : PortState}
  {event : Option (PortOperation × Bool)} {events : List (PortOperation × Bool)}

theorem Works.quiet {state state' : PortState} (h : PortStep process state none state')
    (hrest : Works process state' events state'') : Works process state events state'' :=
  .step h nofun hrest

theorem Works.operation {operation : PortOperation} {rest : Block PortOperation}
    {s : Config PortOperation} {grants : ℕ → List Bool} {enabled : Bool}
    (hallows : operation.Allows grants enabled) (hsilent : isSuspension operation = false)
    (hrest : Works process ⟨.block rest :: s, grants⟩ events state'') :
    Works process ⟨.block (.op operation rest) :: s, grants⟩ ((operation, enabled) :: events)
      state'' := by
  refine Works.step (.execute (.execute _ _ _) hallows) ?_ hrest
  rintro _ ⟨⟩
  exact hsilent

theorem PortStep.exists_step (h : PortStep process state event state') :
    ∃ label, Step state.config label state'.config ∧
      executed isTransfer label = (event.toList.map Prod.fst).filter isTransfer ∧
      ∀ operation, label = .execute operation → ∃ enabled, event = some (operation, enabled) := by
  cases h with
  | @execute c c' operation grants enabled hstep _ =>
    refine ⟨.execute operation, hstep, ?_, ?_⟩
    · cases h : isTransfer operation <;> simp [executed, h]
    · rintro _ ⟨⟩
      exact ⟨enabled, rfl⟩
  | @silent c c' label grants hstep hlabel =>
    refine ⟨label, hstep, ?_, fun operation h => absurd h (hlabel operation)⟩
    cases label with
    | execute operation => exact absurd rfl (hlabel operation)
    | silent => rfl
    | iterate => rfl
  | restart => exact ⟨.silent, .restart _ _, rfl, by simp⟩

theorem PortStep.good (h : PortStep process state event state') (hgood : process.Good state) :
    process.Good state' := by
  obtain ⟨label, hstep, _⟩ := h.exists_step
  refine ⟨hgood.reachable.step hstep, ?_⟩
  cases h with
  | @execute c c' operation grants enabled hexecute _ =>
    refine .inr (hgood.grants.resolve_left ?_)
    rintro rfl
    cases hexecute
  | silent _ _ hne => exact .inr (hgood.grants.resolve_left hne)
  | restart hgrants => exact .inr hgrants

section

variable (h : Works process state events state')

include h

theorem Works.good (hgood : process.Good state) : process.Good state' := by
  induction h with
  | idle => exact hgood
  | step hstep _ _ ih => exact ih (hstep.good hgood)
  | suspend hstep _ => exact hstep.good hgood

theorem Works.exists_activation : ∃ labels c, Activation state.config labels c ∧
      labels.flatMap (executed isTransfer) = (events.map Prod.fst).filter isTransfer := by
  induction h with
  | idle state => exact ⟨[], _, .refl _, rfl⟩
  | @step state event state' events state'' hstep hsilent _ ih =>
    obtain ⟨label, hlabel, hexecuted, hevent⟩ := hstep.exists_step
    obtain ⟨labels, c, hrest, hlabels⟩ := ih
    refine ⟨label :: labels, c, .step hlabel ?_ hrest, ?_⟩
    · cases label with
      | execute operation =>
        obtain ⟨enabled, rfl⟩ := hevent operation rfl
        exact hsilent _ rfl
      | silent => rfl
      | iterate => rfl
    · rw [flatMap_cons, hexecuted, hlabels, map_append, filter_append]
  | @suspend state executed state' hstep hsuspends =>
    refine ⟨[], _, .refl _, ?_⟩
    obtain ⟨operation, enabled⟩ := executed
    cases operation <;> first | rfl | cases hsuspends

theorem Works.mem_operations (hgood : process.Good state) :
    ∀ executed ∈ events, executed.1 ∈ operations (fun _ => true) process.body := by
  have hone : ∀ {state event state'}, PortStep process state event state' →
      process.Good state → ∀ executed ∈ event.toList,
        executed.1 ∈ operations (fun _ => true) process.body := by
    intro state event state' hstep hgood executed hmem
    cases hstep with
    | execute hstep _ =>
      obtain rfl := mem_singleton.mp hmem
      exact hgood.reachable.mem_operations hstep rfl
    | silent => cases hmem
    | restart => cases hmem
  induction h with
  | idle => simp
  | step hstep _ _ ih =>
    intro executed hmem
    rcases mem_append.mp hmem with hmem | hmem
    · exact hone hstep hgood executed hmem
    · exact ih (hstep.good hgood) executed hmem
  | suspend hstep _ => exact hone hstep hgood

theorem Works.allows_of_guarded : Guarded process.body state.config →
      ∀ executed ∈ events, executed.1.Allows state.grants executed.2 := by
  induction h with
  | idle => simp
  | @step state event state' events state'' hstep hsilent _ ih =>
    intro hguarded executed hmem
    cases hstep with
    | @execute c c' operation grants enabled hstep hallows =>
      rcases mem_append.mp hmem with hmem | hmem
      · obtain rfl := mem_singleton.mp hmem
        exact hallows
      · exact ih (hguarded.step hstep (hsilent _ rfl)) executed hmem
    | @silent c c' label grants hstep hlabel hne =>
      refine ih (hguarded.step hstep ?_) executed hmem
      cases label with
      | execute operation => exact absurd rfl (hlabel operation)
      | silent => rfl
      | iterate => rfl
    | restart => exact absurd rfl hguarded.ne
  | suspend hstep hsuspends =>
    intro hguarded executed hmem
    obtain rfl := mem_singleton.mp hmem
    cases hstep with
    | execute _ hallows => exact hallows

end

section Verified

variable (hverified : verifyProcess process.body = true)
  (hattributes : valueAttributesConstant process.body = true)

include hverified hattributes

theorem Works.exists_grants (h : Works process state events state') (hgood : process.Good state) :
    events = [] ∨ ∃ grants, process.ValidGrants grants ∧
      ∀ executed ∈ events, executed.1.Allows grants executed.2 := by
  have hexecute : ∀ {state state' events operation enabled}, process.Good state →
      PortStep process state (some (operation, enabled)) state' →
      ∀ {state''}, Works process state events state'' →
        ∃ grants, process.ValidGrants grants ∧
          ∀ executed ∈ events, executed.1.Allows grants executed.2 := by
    intro state state' events operation enabled hgood hstep state'' hworks
    have hguarded : Guarded process.body state.config := by
      cases hstep with
      | execute hstep _ =>
        exact hgood.reachable.guarded_of_execute hverified hattributes hstep
    exact ⟨state.grants, hgood.grants.resolve_left hguarded.ne, hworks.allows_of_guarded hguarded⟩
  induction h with
  | idle => exact .inl rfl
  | @step state event state' events state'' hstep hsilent hrest ih =>
    cases event with
    | none => exact ih (hstep.good hgood)
    | some executed =>
      obtain ⟨operation, enabled⟩ := executed
      exact .inr (hexecute hgood hstep (.step hstep hsilent hrest))
  | @suspend state executed state' hstep hsuspends =>
    obtain ⟨operation, enabled⟩ := executed
    exact .inr (hexecute hgood hstep (.suspend hstep hsuspends))

/-- No transfer is executed twice between two commits. -/
theorem Works.nodup_transfers (hloops : loopsSuspend isTransfer process.body = true)
    (h : Works process state events state') (hgood : process.Good state) :
    ((events.map Prod.fst).filter isTransfer).Nodup := by
  obtain ⟨labels, c, hactivation, hlabels⟩ := h.exists_activation
  rw [← hlabels]
  exact hactivation.nodup_executed hverified hattributes hloops process.distinct hgood.reachable

end Verified

/-! ### The module -/

namespace PortModule

variable {m} {i index j : ℕ} {l r transfer : Transfer} {pop : Bool}
    {states : ℕ → PortState} {queue : String} {events : ℕ → List (PortOperation × Bool)}

theorem recordPortUses_pairwise {uses : List PortUse} : ∀ {priorUses : List PortUse},
    m.recordPortUses priorUses uses = true →
      (∀ prior ∈ priorUses, ∀ use ∈ uses, m.compatible prior use = true) ∧
        uses.Pairwise (fun prior use => m.compatible prior use = true) := by
  induction uses with
  | nil => simp
  | cons use rest ih =>
    intro priorUses h
    rw [recordPortUses, and_eq_true, all_eq_true] at h
    obtain ⟨hprior, hrest⟩ := ih h.2
    refine ⟨?_, pairwise_cons.mpr ⟨hprior use (by simp), hrest⟩⟩
    intro prior hmem other hother
    rcases mem_cons.mp hother with rfl | hother
    · exact h.1 prior hmem
    · exact hprior prior (mem_append_left _ hmem) other hother

theorem mem_uses {operation : PortOperation} {use : PortUse}
    (hprocess : m.processes[index]? = some process)
    (hoperation : operation ∈ operations (fun _ => true) process.body)
    (huse : use ∈ operationUses index operation) : use ∈ m.uses := by
  rw [uses, mem_flatten]
  refine ⟨processUses index process.body, ?_, mem_flatMap.mpr ⟨operation, hoperation, huse⟩⟩
  exact mem_map.mpr ⟨(process, index), mem_zipIdx_iff_getElem?.mpr hprocess, rfl⟩

theorem compatible_of_verify (hverify : m.verify = true) {left right : PortUse}
    (hleft : left ∈ m.uses) (hright : right ∈ m.uses) (hne : left ≠ right) :
    m.compatible left right = true ∨ m.compatible right left = true := by
  simp only [verify, verifyQueuePorts, and_eq_true] at hverify
  have hpairwise := (recordPortUses_pairwise hverify.2.2).2
  rw [pairwise_iff_getElem] at hpairwise
  obtain ⟨i, hi, rfl⟩ := getElem_of_mem hleft
  obtain ⟨j, hj, rfl⟩ := getElem_of_mem hright
  rcases Nat.lt_trichotomy i j with hlt | rfl | hgt
  · exact .inl (hpairwise i j hi hj hlt)
  · exact absurd rfl hne
  · exact .inr (hpairwise j i hj hi hgt)

theorem mem_operations_of_tracked {body : Block PortOperation}
    (h : .tryTransfer transfer ∈ operations isTransfer body) :
    .tryTransfer transfer ∈ operations (fun _ => true) body := by
  induction body with
  | done => exact h
  | op operation rest ih =>
    simp only [operations, mem_append] at h ⊢
    refine h.imp (fun h => ?_) ih
    split at h
    · simpa using h
    · cases h
  | ifOp _ _ _ _ _ ih₁ ih₂ ih₃ | whileOp _ _ _ _ ih₁ ih₂ ih₃ =>
    simp only [operations, mem_append] at h ⊢
    exact h.imp ih₁ (Or.imp ih₂ ih₃)
  | forOp _ _ _ _ _ ih₁ ih₂ | instrumentation _ _ ih₁ ih₂ =>
    simp only [operations, mem_append] at h ⊢
    exact h.imp ih₁ ih₂

/-- The use a transfer is recorded with at one of its ports. -/
def transferUse (index : ℕ) (pop : Bool) (transfer : Transfer) : PortUse :=
  ⟨index, Transfer.port pop transfer, pop, some transfer⟩

theorem transferUse_mem (index : ℕ) (pop : Bool) (transfer : Transfer) :
    transferUse index pop transfer ∈ operationUses index (.tryTransfer transfer) := by
  cases pop <;> simp [transferUse, operationUses, Transfer.port]

theorem exclusive_of_compatible (hport : Transfer.port pop l = Transfer.port pop r)
    (h : m.compatible (transferUse i pop l) (transferUse j pop r) = true) :
    j = i ∧ ∃ index left right arbiter, r.enable = .grant index left ∧
      l.enable = .grant index right ∧ left ≠ right ∧
      (m.processes[j]?).bind (·.arbiters[index]?) = some arbiter ∧
      arbiter.shares left right = true := by
  simp only [compatible, transferUse, hport, ne_eq, not_true_eq_false, decide_false,
    Bool.false_or] at h
  rw [mutuallyExclusive] at h
  split at h
  · rename_i leftArbiter leftIndex rightArbiter rightIndex hleft hright
    simp only [and_eq_true, decide_eq_true_eq] at h
    obtain ⟨⟨⟨hprocess, rfl⟩, hindex⟩, hshares⟩ := h
    split at hshares
    · rename_i arbiter harbiter
      exact ⟨hprocess, leftArbiter, leftIndex, rightIndex, arbiter, hleft, hright, hindex,
        harbiter, hshares⟩
    · cases hshares
  · cases h

/-- Two different transfers of a verified module that use one port are not both enabled in the
work of one epoch. -/
theorem not_both_enabled (hverify : m.verify = true) {p q : PortProcess}
    (hp : m.processes[i]? = some p) (hq : m.processes[j]? = some q)
    (hl : .tryTransfer l ∈ operations (fun _ => true) p.body)
    (hr : .tryTransfer r ∈ operations (fun _ => true) q.body) (hne : (i, l) ≠ (j, r))
    (hport : Transfer.port pop l = Transfer.port pop r) :
    i = j ∧ ∀ grants, p.ValidGrants grants → l.enable.Allows grants true →
      r.enable.Allows grants true → False := by
  have hdiffer : transferUse i pop l ≠ transferUse j pop r := by
    intro heq
    obtain ⟨rfl, _, _, htransfer⟩ := PortUse.mk.inj heq
    exact hne (by rw [Option.some.inj htransfer])
  -- the verifier has compared the two uses in the order of the walk
  rcases compatible_of_verify hverify (mem_uses hp hl (transferUse_mem i pop l))
    (mem_uses hq hr (transferUse_mem j pop r)) hdiffer with h | h
  · obtain ⟨rfl, index, left, right, arbiter, hrgrant, hlgrant, hindex, harbiter, hshares⟩ :=
      exclusive_of_compatible hport h
    refine ⟨rfl, fun grants hvalid hlallows hrallows => ?_⟩
    rw [hp] at harbiter
    rw [hlgrant] at hlallows
    rw [hrgrant] at hrallows
    exact (hvalid index arbiter harbiter).exclusive hindex hshares hrallows.symm hlallows.symm
  · obtain ⟨rfl, index, left, right, arbiter, hlgrant, hrgrant, hindex, harbiter, hshares⟩ :=
      exclusive_of_compatible hport.symm h
    refine ⟨rfl, fun grants hvalid hlallows hrallows => ?_⟩
    rw [hp] at harbiter
    rw [hlgrant] at hlallows
    rw [hrgrant] at hrallows
    exact (hvalid index arbiter harbiter).exclusive hindex hshares hlallows.symm hrallows.symm

theorem Runs.good (h : m.Runs states) :
    ∀ (index : ℕ) (process : PortProcess), m.processes[index]? = some process →
      process.Good (states index) := by
  induction h with
  | start hstart =>
    intro index process hprocess
    have hconfig := hstart index process hprocess
    exact ⟨by rw [hconfig]; exact .start, .inl hconfig⟩
  | epoch _ hepoch ih =>
    intro index process hprocess
    exact (hepoch index process hprocess).good (ih index process hprocess)

theorem enabledTransfer_eq_some {event : PortOperation × Bool}
    (h : enabledTransfer index queue pop event = some (i, transfer)) :
    i = index ∧ event = (.tryTransfer transfer, true) ∧ Transfer.port pop transfer = queue := by
  unfold enabledTransfer at h
  split at h
  · split at h
    · rename_i hport
      obtain ⟨rfl, rfl⟩ := Prod.mk.inj (Option.some.inj h)
      exact ⟨rfl, rfl, hport⟩
    · cases h
  · cases h

theorem mem_enabledTransfers (h : (index, transfer) ∈ m.enabledTransfers events queue pop) :
    index < m.processes.length ∧ (.tryTransfer transfer, true) ∈ events index ∧
      Transfer.port pop transfer = queue := by
  simp only [enabledTransfers, mem_flatMap, mem_range, mem_filterMap] at h
  obtain ⟨i, hi, event, hmem, hsome⟩ := h
  obtain ⟨rfl, rfl, hport⟩ := enabledTransfer_eq_some hsome
  exact ⟨hi, hmem, hport⟩

theorem sublist_transfers (index : ℕ) (queue : String) (pop : Bool)
    (events : List (PortOperation × Bool)) :
    ((events.filterMap (enabledTransfer index queue pop)).map
      fun entry => PortOperation.tryTransfer entry.2).Sublist
        ((events.map Prod.fst).filter isTransfer) := by
  induction events with
  | nil => exact .slnil
  | cons event rest ih =>
    cases hevent : enabledTransfer index queue pop event with
    | none =>
      rw [filterMap_cons_none hevent, map_cons]
      exact ih.trans ((sublist_cons_self _ _).filter _)
    | some entry =>
      obtain ⟨_, rfl, _⟩ := enabledTransfer_eq_some hevent
      rw [filterMap_cons_some hevent, map_cons, map_cons, filter_cons_of_pos rfl]
      exact ih.cons_cons _

theorem nodup_enabledTransfers
    (h : ∀ index < m.processes.length, (((events index).map Prod.fst).filter isTransfer).Nodup) :
    (m.enabledTransfers events queue pop).Nodup := by
  rw [enabledTransfers, nodup_flatMap]
  refine ⟨?_, ?_⟩
  · intro index hindex
    have hnodup := (h index (mem_range.mp hindex)).sublist
      (sublist_transfers index queue pop (events index))
    exact hnodup.of_map _
  · refine nodup_range.imp ?_
    intro i j hne entry hi hj
    obtain ⟨_, _, hi⟩ := mem_filterMap.mp hi
    obtain ⟨_, _, hj⟩ := mem_filterMap.mp hj
    exact hne ((enabledTransfer_eq_some hi).1.symm.trans (enabledTransfer_eq_some hj).1)

theorem length_le_one_of_nodup {α : Type} {list : List α} (hnodup : list.Nodup)
    (hall : ∀ a ∈ list, ∀ b ∈ list, a = b) : list.length ≤ 1 := by
  match list with
  | [] | [_] => simp
  | a :: b :: rest =>
    obtain rfl := hall a (by simp) b (by simp)
    simp at hnodup

/-- In every epoch of every run of a verified module each port of a queue is used by at most
one enabled transfer, and a port that some transfer uses by no plain operation, provided that
every loop around a transfer suspends in each iteration or has one iteration at most. -/
theorem portsExclusive_of_verify (m : PortModule) (hverify : m.verify = true)
    (hattributes : ∀ process ∈ m.processes, valueAttributesConstant process.body = true)
    (hloops : ∀ process ∈ m.processes, loopsSuspend isTransfer process.body = true)
    {states' : ℕ → PortState} (hruns : m.Runs states) (hepoch : m.Epoch states events states') :
    m.PortsExclusive events := by
  have hverified : ∀ process ∈ m.processes, verifyProcess process.body = true := by
    simp only [verify, Bool.and_eq_true, all_eq_true] at hverify
    exact hverify.1
  have hprocess : ∀ index < m.processes.length, ∃ process,
      m.processes[index]? = some process ∧ process ∈ m.processes ∧
        process.Good (states index) ∧
        Works process (states index) (events index) (states' index) := by
    intro index hindex
    have hat := getElem?_eq_getElem hindex
    exact ⟨_, hat, getElem_mem hindex, hruns.good index _ hat, hepoch index _ hat⟩
  intro queue pop
  refine ⟨length_le_one_of_nodup (nodup_enabledTransfers ?_) ?_, ?_⟩
  · intro index hindex
    obtain ⟨process, _, hmem, hgood, hworks⟩ := hprocess index hindex
    exact hworks.nodup_transfers (hverified _ hmem) (hattributes _ hmem) (hloops _ hmem) hgood
  · rintro ⟨i, l⟩ hl ⟨j, r⟩ hr
    by_contra hne
    obtain ⟨hi, hlmem, hlport⟩ := mem_enabledTransfers hl
    obtain ⟨hj, hrmem, hrport⟩ := mem_enabledTransfers hr
    obtain ⟨p, hp, hpmem, hpgood, hpworks⟩ := hprocess i hi
    obtain ⟨q, hq, hqmem, hqgood, hqworks⟩ := hprocess j hj
    obtain ⟨rfl, hexclusive⟩ := not_both_enabled hverify hp hq
      (hpworks.mem_operations hpgood _ hlmem) (hqworks.mem_operations hqgood _ hrmem) hne
      (hlport.trans hrport.symm)
    -- both transfers were executed by one process, under the grants of one run of its body
    rcases hpworks.exists_grants (hverified _ hpmem) (hattributes _ hpmem) hpgood with
      hnone | ⟨grants, hvalid, hallows⟩
    · rw [hnone] at hlmem
      cases hlmem
    · exact hexclusive grants hvalid (hallows _ hlmem) (hallows _ hrmem)
  · rintro ⟨p, hpmem, transfer, htransfer, hport⟩ index hindex executed hexecuted hplain
    obtain ⟨i, hp⟩ := getElem?_of_mem hpmem
    obtain ⟨q, hq, hqmem, hqgood, hqworks⟩ := hprocess index hindex
    have hoperation := hqworks.mem_operations hqgood executed hexecuted
    rw [hplain] at hoperation
    have hplainUse : (⟨index, queue, pop, none⟩ : PortUse)
        ∈ operationUses index (plainOperation queue pop) := by
      cases pop <;> simp [plainOperation, operationUses]
    have hconflict := compatible_of_verify hverify
      (mem_uses hp (mem_operations_of_tracked htransfer) (transferUse_mem i pop transfer))
      (mem_uses hq hoperation hplainUse) (by simp [transferUse])
    simp [compatible, transferUse, hport] at hconflict

theorem epoch_singleton {state state' : PortState} {events : List (PortOperation × Bool)}
    (h : Works process state events state') :
    Epoch ⟨[process]⟩ (fun _ => state) (fun _ => events) (fun _ => state') := by
  intro index other hother
  cases index with
  | zero =>
    obtain rfl : process = other := by simpa using hother
    exact h
  | succ index => cases hother

theorem runs_singleton (process : PortProcess) (grants : ℕ → List Bool) :
    Runs ⟨[process]⟩ (fun _ => ⟨[.process process.body], grants⟩) := by
  refine .start fun index other hother => ?_
  cases index with
  | zero =>
    obtain rfl : process = other := by simpa using hother
    rfl
  | succ index => cases hother

/-- Two sources merged into one queue by a greedy arbiter. -/
def merge : PortProcess where
  arbiters := [⟨.greedyFixedPriority, [["slot"], ["slot"]]⟩]
  body := .op (.tryTransfer ⟨0, "left", "out", .grant 0 0⟩) <|
    .op (.tryTransfer ⟨1, "right", "out", .grant 0 1⟩) <| .op .yieldSim .done
  distinct := by decide

theorem works_merge : Works merge ⟨[.process merge.body], fun _ => []⟩
    [(.tryTransfer ⟨0, "left", "out", .grant 0 0⟩, true),
      (.tryTransfer ⟨1, "right", "out", .grant 0 1⟩, false), (.yieldSim, true)]
    ⟨[.block .done, .process merge.body], fun _ => [true, false]⟩ := by
  have hgrants : merge.ValidGrants fun _ => [true, false] := by
    intro index arbiter harbiter
    cases index with
    | zero =>
      obtain rfl : (⟨.greedyFixedPriority, [["slot"], ["slot"]]⟩ : Arbiter) = arbiter := by
        simpa [merge] using harbiter
      exact ⟨[true, true], rfl, by decide⟩
    | succ index => cases harbiter
  refine .quiet (.restart hgrants) ?_
  refine .operation rfl rfl ?_
  refine .operation rfl rfl ?_
  exact .suspend (.execute (.execute _ _ _) rfl) rfl

theorem portsExclusive_merge : verify ⟨[merge]⟩ = true ∧
    PortsExclusive ⟨[merge]⟩ (fun _ =>
      [(.tryTransfer ⟨0, "left", "out", .grant 0 0⟩, true),
        (.tryTransfer ⟨1, "right", "out", .grant 0 1⟩, false), (.yieldSim, true)]) :=
  ⟨by decide, portsExclusive_of_verify ⟨[merge]⟩ (by decide) (by decide) (by decide)
    (runs_singleton merge fun _ => []) (epoch_singleton works_merge)⟩

/-- A transfer in a loop of two iterations, always enabled. -/
def burst : PortProcess where
  arbiters := []
  body := .forOp (.constant 0) (.constant 2) (.constant 1)
    (.op (.tryTransfer ⟨0, "in", "out", .constant true⟩) .done) (.op .yieldSim .done)
  distinct := by decide

theorem works_burst : Works burst ⟨[.process burst.body], fun _ => []⟩
    [(.tryTransfer ⟨0, "in", "out", .constant true⟩, true),
      (.tryTransfer ⟨0, "in", "out", .constant true⟩, true), (.yieldSim, true)]
    ⟨[.block .done, .process burst.body], fun _ => []⟩ := by
  have hgrants : burst.ValidGrants fun _ => [] := by
    intro index arbiter harbiter
    cases harbiter
  refine .quiet (.restart hgrants) ?_
  refine .quiet (.silent (.enterStatic _ _ _ _ _ _) nofun nofun) ?_
  refine .quiet (.silent (.iterateStatic _ _ _ (by decide)) nofun nofun) ?_
  refine .operation rfl rfl ?_
  refine .quiet (.silent (.leave _) nofun nofun) ?_
  refine .quiet (.silent (.iterateStatic _ _ _ (by decide)) nofun nofun) ?_
  refine .operation rfl rfl ?_
  refine .quiet (.silent (.leave _) nofun nofun) ?_
  refine .quiet (.silent (.leaveStatic _ _ _ (by decide)) nofun nofun) ?_
  exact .suspend (.execute (.execute _ _ _) rfl) rfl

/-- The verifier accepts a module whose only transfer pops its source twice in one epoch. -/
theorem burst_pops_twice : verify ⟨[burst]⟩ = true ∧ ∃ states events states',
    Runs ⟨[burst]⟩ states ∧ Epoch ⟨[burst]⟩ states events states' ∧
      (enabledTransfers ⟨[burst]⟩ events "in" true).length = 2 ∧
      ¬ PortsExclusive ⟨[burst]⟩ events := by
  refine ⟨by decide, _, _, _, runs_singleton burst fun _ => [], epoch_singleton works_burst, rfl,
    ?_⟩
  intro h
  exact absurd (h "in" true).1 (by decide)

end PortModule

end AgenticCircuit.Dialect
