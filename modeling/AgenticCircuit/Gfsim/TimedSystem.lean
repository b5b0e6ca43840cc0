import AgenticCircuit.Gfsim.Run
import AgenticCircuit.Gfsim.TimedQueue

/-! # Systems of timed event queues and agents

The runtime objects of a `TimedWorld` are timed event queues and agents.  An agent is any other
object: its methods are programs (`TimedProg`) over its own state that reach the queues through
`trySchedule` and `tryRecv`, with the epoch that the system hands to the method.

* **`timedModel`** installs the methods of queues and agents in a system, by the kind of the
  object.
* **`TimedStep`** says once what a program can do to the system and the queues together: a bound
  queue takes a schedule or hands out an entry only while its registration as a commit
  participant succeeds, that is, while an object of a live epoch works or arbitrates. -/

namespace AgenticCircuit.Gfsim

open Body Function Or

open Relation (ReflTransGen)

/-! ### The world -/

structure TimedWorld (A α : Type) where
  queues : Ptr → TimedEventQueue α
  agents : A

/-- What the public getters of a queue show. -/
structure TimedStatus where
  capacity : ℕ
  committedSize : ℕ
  highWatermark : ℕ
  totalPushes : ℕ
  totalPops : ℕ

def TimedEventQueue.status {α : Type} (q : TimedEventQueue α) : TimedStatus :=
  { capacity := q.capacity, committedSize := q.committed.length
    highWatermark := q.highWatermark, totalPushes := q.totalPushes, totalPops := q.totalPops }

/-- A method of an agent: calls of the system and of queues, then the new agent states. -/
inductive TimedProg (A α : Type) where
  | done (a : A)
  | scheduleWork (id : ObjectId) (epoch : Epoch) (next : Bool → TimedProg A α)
  | scheduleEvent (event : Event) (next : Bool → TimedProg A α)
  | registerCommitParticipant (id : ObjectId) (next : Bool → TimedProg A α)
  | proposeObservation (proposal : EventProposal) (next : Bool → TimedProg A α)
  | view (next : View → TimedProg A α)
  | trySchedule (queue : Ptr) (value : α) (delay : Int) (next : Bool → TimedProg A α)
  | tryRecv (queue : Ptr) (next : Option α → TimedProg A α)
  | status (queue : Ptr) (next : TimedStatus → TimedProg A α)

section world

variable {A α : Type}

def TimedWorld.setQueue (w : TimedWorld A α) (p : Ptr) (q : TimedEventQueue α) :
    TimedWorld A α := { w with queues := Function.update w.queues p q }

variable {w : TimedWorld A α} {p : Ptr} {q : TimedEventQueue α}

@[simp] theorem TimedWorld.setQueue_self : (w.setQueue p q).queues p = q := update_self ..

@[simp] theorem TimedWorld.setQueue_of_ne {p' : Ptr} (h : p' ≠ p) :
    (w.setQueue p q).queues p' = w.queues p' :=
  update_of_ne h ..

def State.setQueue (s : State (TimedWorld A α)) (p : Ptr) (q : TimedEventQueue α) :
    State (TimedWorld A α) := { s with world := s.world.setQueue p q }

/-- The method at `epoch`. -/
def TimedProg.compile (epoch : Epoch) : TimedProg A α → TimedWorld A α → Body (TimedWorld A α)
  | .done a, w => .done { w with agents := a }
  | .scheduleWork id e next, w => .scheduleWork id e fun ok => (next ok).compile epoch w
  | .scheduleEvent event next, w => .scheduleEvent event fun ok => (next ok).compile epoch w
  | .registerCommitParticipant id next, w =>
    .registerCommitParticipant id fun ok => (next ok).compile epoch w
  | .proposeObservation proposal next, w =>
    .proposeObservation proposal fun ok => (next ok).compile epoch w
  | .view next, w => .view fun v => (next v).compile epoch w
  | .trySchedule p value delay next, w => do
      let r ← (w.queues p).trySchedule value epoch delay
      (next r.2).compile epoch (w.setQueue p r.1)
  | .tryRecv p next, w => do
      let r ← (w.queues p).tryRecv epoch
      (next r.2).compile epoch (w.setQueue p r.1)
  | .status p next, w => (next (w.queues p).status).compile epoch w

/-- The methods of the agents. -/
structure TimedAgents (A α : Type) where
  doWork : Ptr → Epoch → A → TimedProg A α := fun _ _ a => .done a
  doArbitrate : Ptr → Epoch → A → TimedProg A α := fun _ _ a => .done a
  doXfer : Ptr → Epoch → A → TimedProg A α := fun _ _ a => .done a
  hasPendingCommit : Ptr → TimedWorld A α → Bool := fun _ _ => false
  runtimeFailureCode : Ptr → A → String := fun _ _ => ""
  validatePendingCommit : Ptr → TimedWorld A α → Bool :=
    fun p w => (runtimeFailureCode p w.agents).isEmpty
  activateFrom : Ptr → ObjectId → A → Bool × A := fun _ _ a => (true, a)
  deliverEvent : Ptr → ℕ → ℕ → Epoch → A → Bool × A := fun _ _ _ _ a => (true, a)
  requestTraceEnd : Ptr → A → Bool × A := fun _ a => (false, a)
  runtimeState : Ptr → Epoch → TimedWorld A α → RuntimeObjectState := fun p _ w =>
    SimObject.runtimeState (hasPendingCommit p w) false

/-- An agent's answer to a hook of the system that does not reach the queues. -/
def TimedWorld.answer (w : TimedWorld A α) (r : Bool × A) : Bool × TimedWorld A α :=
  (r.1, { w with agents := r.2 })

/-- The system of timed queues and agents: an object is a queue by its kind. -/
def timedModel (c : Config) (agents : TimedAgents A α) : Model (TimedWorld A α) where
  config := c
  hooks :=
    { doWork := fun p epoch w =>
        if (c.info p).kind = .eventQueue then .done w
        else (agents.doWork p epoch w.agents).compile epoch w
      doArbitrate := fun p epoch w =>
        if (c.info p).kind = .eventQueue then .done w
        else (agents.doArbitrate p epoch w.agents).compile epoch w
      doXfer := fun p epoch w =>
        if (c.info p).kind = .eventQueue then do
          let q ← (w.queues p).doXfer epoch
          return w.setQueue p q
        else (agents.doXfer p epoch w.agents).compile epoch w
      hasPendingCommit := fun p w =>
        if (c.info p).kind = .eventQueue then (w.queues p).hasPendingCommit
        else agents.hasPendingCommit p w
      runtimeFailureCode := fun p w =>
        if (c.info p).kind = .eventQueue then (w.queues p).runtimeFailureCode
        else agents.runtimeFailureCode p w.agents
      validatePendingCommit := fun p w =>
        if (c.info p).kind = .eventQueue then (w.queues p).runtimeFailureCode.isEmpty
        else agents.validatePendingCommit p w
      activateFrom := fun p source w =>
        if (c.info p).kind = .eventQueue then (true, w)
        else w.answer (agents.activateFrom p source w.agents)
      deliverEvent := fun p kind payload epoch w =>
        if (c.info p).kind = .eventQueue then ((w.queues p).deliverEvent kind payload epoch, w)
        else w.answer (agents.deliverEvent p kind payload epoch w.agents)
      requestTraceEnd := fun p w =>
        if (c.info p).kind = .eventQueue then (false, w)
        else w.answer (agents.requestTraceEnd p w.agents)
      runtimeState := fun p epoch w =>
        if (c.info p).kind = .eventQueue then (w.queues p).runtimeState
        else agents.runtimeState p epoch w }

/-- A host that constructs queues and then calls the system and the queues, at any epoch it
likes. -/
def timedHost (initial : TimedWorld A α → Prop) : Host (TimedWorld A α) where
  initial w := (∀ p, (w.queues p).Fresh) ∧ initial w
  calls b := ∃ (epoch : Epoch) (prog : A → TimedProg A α),
    b = fun w => (prog w.agents).compile epoch w

end world

/-! ### What a program does -/

/-- The state in which a registration succeeds. -/
structure Registering (s : SimSystem) : Prop where
  live : s.terminated = false
  executing : s.executingEpoch = true
  owner : s.activeProposalOwner.isSome

/-- One change by a program that runs at `now`. -/
inductive TimedStep {A α : Type} (c : Config) (now : Epoch) :
    State (TimedWorld A α) → State (TimedWorld A α) → Prop
  | call {s : State (TimedWorld A α)} {t : SimSystem} (h : Call c s.sys t) :
      TimedStep c now s { s with sys := t }
  | agents {s : State (TimedWorld A α)} (a : A) :
      TimedStep c now s { s with world := { s.world with agents := a } }
  | code {s : State (TimedWorld A α)} (p : Ptr) (code : String) :
      TimedStep c now s (s.setQueue p ((s.world.queues p).setRuntimeFailureCode code))
  | accept {s : State (TimedWorld A α)} (p : Ptr) (value : α) (delay : ℕ)
      (hroom : (s.world.queues p).committed.length +
        (s.world.queues p).scheduleProposals.length < (s.world.queues p).capacity)
      (hopen : (s.world.queues p).system.isSome → Registering s.sys) :
      TimedStep c now s (s.setQueue p ((s.world.queues p).accept value now delay))
  | receive {s : State (TimedWorld A α)} (p : Ptr) {entry : TimedEntry α}
      (hentry : (s.world.queues p).committed[(s.world.queues p).popProposalCount]? = some entry)
      (hready : entry.readyTime ≤ now)
      (hopen : (s.world.queues p).system.isSome → Registering s.sys) :
      TimedStep c now s (s.setQueue p ((s.world.queues p).receive entry now))

section programs

variable {A α : Type} {c : Config} {now : Epoch}

theorem timedSteps_of_calls {s t : SimSystem} {w : TimedWorld A α}
    (h : ReflTransGen (Call c) s t) : ReflTransGen (TimedStep c now) ⟨s, w⟩ ⟨t, w⟩ := by
  induction h with
  | refl => exact .refl
  | tail _ hstep ih => exact ih.tail (.call hstep)

/-- A successful registration, by a bound queue, of a live executing epoch with an owner. -/
theorem registerCommitParticipant_registering {s : SimSystem} {id : ObjectId}
    (h : (s.registerCommitParticipant c id).2 = true) :
    Registering (s.registerCommitParticipant c id).1 := by
  unfold SimSystem.registerCommitParticipant at h ⊢
  split at h
  · cases h
  rename_i hopen
  obtain ⟨live, executing, howner⟩ :
      s.terminated = false ∧ s.executingEpoch = true ∧ s.activeProposalOwner.isSome := by
    simpa [Option.isSome_iff_ne_none, and_assoc] using hopen
  split at h
  · cases h
  · rename_i htarget
    rw [if_neg hopen, if_neg htarget]
    exact ⟨live, executing, howner⟩

variable (q : TimedEventQueue α)

theorem register_exec (s : SimSystem) : ReflTransGen (Call c) s (q.register.exec c s).1 ∧
      ((q.register.exec c s).2 = true → q.system.isSome → Registering (q.register.exec c s).1) := by
  refine ⟨Body.exec_calls c _ s, fun hok hbound => ?_⟩
  have hregister : q.register = .registerCommitParticipant q.id .done := by
    unfold TimedEventQueue.register
    rw [if_neg (by simpa [Option.isSome_iff_ne_none] using hbound)]
  rw [hregister] at hok ⊢
  exact registerCommitParticipant_registering hok

/-- What `trySchedule` does: nothing, a recorded failure, or an accepted schedule. -/
theorem trySchedule_exec (value : α) (epoch : Epoch) (delay : Int) (s : SimSystem) :
    let r := (q.trySchedule value epoch delay).exec c s
    ReflTransGen (Call c) s r.1 ∧ (r.2.1 = q ∨ (∃ code, r.2.1 = q.setRuntimeFailureCode code) ∨
      (r.2.1 = q.accept value epoch delay.toNat ∧
        q.committed.length + q.scheduleProposals.length < q.capacity ∧
        (q.system.isSome → Registering r.1))) := by
  intro r
  refine ⟨Body.exec_calls c _ s, ?_⟩
  have hfailure (code : String) : ((q.recordFailure code).exec c s).2 =
      q.setRuntimeFailureCode code := by
    unfold TimedEventQueue.recordFailure
    rw [exec_bind]
    rfl
  revert r
  unfold TimedEventQueue.trySchedule
  split
  · rw [exec_bind]
    exact inr (inl ⟨_, hfailure _⟩)
  split
  · rw [exec_bind]
    exact inr (inl ⟨_, hfailure _⟩)
  split
  · exact inl rfl
  rename_i hroom
  split
  · rw [exec_bind]
    exact inr (inl ⟨_, hfailure _⟩)
  · rw [exec_bind]
    intro r
    revert r
    split
    · rename_i hok
      exact inr (inr ⟨rfl, not_le.mp hroom, (register_exec q s).2 hok⟩)
    · exact inl rfl

/-- What `tryRecv` does: nothing, or the cursor moves over a ready entry. -/
theorem tryRecv_exec (epoch : Epoch) (s : SimSystem) : let r := (q.tryRecv epoch).exec c s
    ReflTransGen (Call c) s r.1 ∧ (r.2.1 = q ∨
      ∃ entry, q.committed[q.popProposalCount]? = some entry ∧ entry.readyTime ≤ epoch ∧
        r.2.1 = q.receive entry epoch ∧ (q.system.isSome → Registering r.1)) := by
  intro r
  refine ⟨Body.exec_calls c _ s, ?_⟩
  revert r
  unfold TimedEventQueue.tryRecv
  split
  · exact inl rfl
  rename_i entry hentry
  split
  · exact inl rfl
  rename_i hready
  rw [exec_bind]
  split
  · rename_i hok
    exact inr ⟨entry, hentry, not_lt.mp hready, rfl, (register_exec q s).2 hok⟩
  · exact inl rfl

theorem TimedProg.compile_steps (prog : TimedProg A α) : ∀ (s : SimSystem) (w : TimedWorld A α),
    ReflTransGen (TimedStep c now) ⟨s, w⟩
      ⟨((prog.compile now w).exec c s).1, ((prog.compile now w).exec c s).2⟩ := by
  induction prog with
  | done a => exact fun s w => .single (.agents a)
  | scheduleWork id epoch next ih =>
    intro s w
    have hcalls := Body.exec_calls c (Body.scheduleWork id epoch Body.done) s
    exact (timedSteps_of_calls hcalls).trans (ih _ _ w)
  | scheduleEvent event next ih =>
    intro s w
    have hcalls := Body.exec_calls c (Body.scheduleEvent event Body.done) s
    exact (timedSteps_of_calls hcalls).trans (ih _ _ w)
  | registerCommitParticipant id next ih =>
    intro s w
    have hcalls := Body.exec_calls c (Body.registerCommitParticipant id Body.done) s
    exact (timedSteps_of_calls hcalls).trans (ih _ _ w)
  | proposeObservation proposal next ih =>
    intro s w
    have hcalls := Body.exec_calls c (Body.proposeObservation proposal Body.done) s
    exact (timedSteps_of_calls hcalls).trans (ih _ _ w)
  | view next ih | status p next ih => exact fun s w => ih _ s w
  | trySchedule p value delay next ih =>
    intro s w
    obtain ⟨hcalls, hqueue⟩ := trySchedule_exec (c := c) (w.queues p) value now delay s
    unfold compile
    rw [exec_bind]
    refine ((timedSteps_of_calls hcalls).trans ?_).trans (ih _ _ _)
    rcases hqueue with hqueue | ⟨code, hqueue⟩ | ⟨hqueue, hroom, hopen⟩
    · rw [hqueue, TimedWorld.setQueue, update_eq_self]
    · rw [hqueue]
      exact .single (.code p code)
    · rw [hqueue]
      exact .single (.accept p value delay.toNat hroom hopen)
  | tryRecv p next ih =>
    intro s w
    obtain ⟨hcalls, hqueue⟩ := tryRecv_exec (c := c) (w.queues p) now s
    unfold compile
    rw [exec_bind]
    refine ((timedSteps_of_calls hcalls).trans ?_).trans (ih _ _ _)
    rcases hqueue with hqueue | ⟨entry, hentry, hready, hqueue, hopen⟩
    · rw [hqueue, TimedWorld.setQueue, update_eq_self]
    · rw [hqueue]
      exact .single (.receive p hentry hready hopen)

end programs

end AgenticCircuit.Gfsim
