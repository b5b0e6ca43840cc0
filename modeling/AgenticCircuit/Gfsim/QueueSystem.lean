import AgenticCircuit.Gfsim.Queue
import AgenticCircuit.Gfsim.Run

/-! # Systems of queues, links and agents

The runtime objects of a `QueueWorld` are queues, links between queues (`QueueLink`) and
agents.  An agent is any other object: its methods are programs (`Prog`) over its own state
that reach the queues through their public interface only.

* **`Prog.compile`** turns a program into a method of the system; `compile_uses` says that it
  changes the queues by `WorldUse` alone, and only by the pushes and pops it is allowed.
* **`queueModel`** installs the methods of queues, links and agents in a system, by the kind
  of the object.
* **Reads.**  `QueueWorld.reads` is a history variable: the entries that Work has read from
  committed snapshots.  `clock` is set while an object works. -/

namespace AgenticCircuit.Gfsim

open Function Body

open Relation (ReflTransGen)

/-! ### Links -/

/-- `QueueLink`: it owns no payload and moves at most one entry per epoch. -/
structure QueueLink where
  id : ObjectId
  source : Ptr
  destination : Ptr
  system : Option ℕ := none
  lastWorkEpoch : Option Epoch := none
  pendingTransfer : Bool := false
  transferred : ℕ := 0
  stalledEmpty : ℕ := 0
  stalledFull : ℕ := 0
  lastUpdate : Epoch := ⟨0, 0⟩
  runtimeFailureCode : String := ""
deriving DecidableEq

namespace QueueLink

variable (l : QueueLink)

def register : Body Bool :=
  if l.system.isNone then .done true else .registerCommitParticipant l.id .done

def doXfer (epoch : Epoch) : QueueLink :=
  if !l.pendingTransfer then l
  else { l with
    pendingTransfer := false, transferred := l.transferred + 1, lastUpdate := epoch }

section

variable (epoch : Epoch)

include epoch

@[simp] theorem doXfer_id : (l.doXfer epoch).id = l.id := by
  unfold doXfer
  split <;> rfl

@[simp] theorem doXfer_source : (l.doXfer epoch).source = l.source := by
  unfold doXfer
  split <;> rfl

@[simp] theorem doXfer_destination : (l.doXfer epoch).destination = l.destination := by
  unfold doXfer
  split <;> rfl

@[simp] theorem doXfer_system : (l.doXfer epoch).system = l.system := by
  unfold doXfer
  split <;> rfl

@[simp] theorem doXfer_lastWorkEpoch : (l.doXfer epoch).lastWorkEpoch = l.lastWorkEpoch := by
  unfold doXfer
  split <;> rfl

@[simp] theorem doXfer_runtimeFailureCode :
    (l.doXfer epoch).runtimeFailureCode = l.runtimeFailureCode := by
  unfold doXfer
  split <;> rfl

@[simp] theorem doXfer_pendingTransfer : (l.doXfer epoch).pendingTransfer = false := by
  unfold doXfer
  split
  · rename_i h
    simpa using h
  · rfl

@[simp] theorem doXfer_transferred :
    (l.doXfer epoch).transferred = l.transferred + l.pendingTransfer.toNat := by
  unfold doXfer
  cases l.pendingTransfer <;> rfl

end

def Fresh : Prop :=
  l = { id := l.id, source := l.source, destination := l.destination, system := l.system }

end QueueLink

/-! ### The world -/

/-- An entry that Work has read at `epoch`. -/
structure Read (α : Type) where
  queue : Ptr
  element : α
  epoch : Epoch
  /-- The epoch of the Xfer that committed the entry. -/
  committedAt : Epoch
deriving DecidableEq

structure QueueWorld (A α : Type) where
  queues : Heap α
  links : Ptr → QueueLink
  agents : A
  clock : Option Epoch := none
  reads : List (Read α) := []

/-- What the public getters of a queue show. -/
structure QueueStatus where
  entryCapacity : ℕ
  byteCapacity : ℕ
  committedSize : ℕ
  isFull : Bool
  space : Int
  highWatermark : ℕ
  totalPushes : ℕ
  totalPops : ℕ

def SimQueue.status {α : Type} [PacketTraits α] (q : SimQueue α) : QueueStatus :=
  { entryCapacity := q.entryCapacity, byteCapacity := q.byteCapacity
    committedSize := q.committedSize, isFull := q.isFull, space := q.space
    highWatermark := q.highWatermark, totalPushes := q.totalPushes, totalPops := q.totalPops }

namespace QueueWorld

variable {A α : Type} [PacketTraits α] (w : QueueWorld A α)

omit [PacketTraits α] in
/-- The read of the entry at `index`, if an object works and the entry exists. -/
def readOf (p : Ptr) (index : ℕ) : List (Read α) :=
  match w.clock, (w.queues p).committed[index]? with
  | some epoch, some element =>
    [{ queue := p
       element := element
       epoch := epoch
       committedAt := (w.queues p).past.stamps.getD index ⟨0, 0⟩ }]
  | _, _ => []

omit [PacketTraits α] in
def logRead (p : Ptr) (index : ℕ) : QueueWorld A α :=
  { w with reads := w.reads ++ w.readOf p index }

omit [PacketTraits α] in
def setQueue (p : Ptr) (q : SimQueue α) : QueueWorld A α :=
  { w with queues := update w.queues p q }

omit [PacketTraits α] in
def modifyLink (p : Ptr) (f : QueueLink → QueueLink) : QueueWorld A α :=
  { w with links := update w.links p (f (w.links p)) }

section updates

omit [PacketTraits α]

variable {w} {p p' : Ptr} {q : SimQueue α} {f : QueueLink → QueueLink}

@[simp] theorem setQueue_queues_self : (w.setQueue p q).queues p = q := update_self ..

@[simp] theorem setQueue_queues_of_ne (h : p' ≠ p) :
    (w.setQueue p q).queues p' = w.queues p' := update_of_ne h ..

@[simp] theorem setQueue_links : (w.setQueue p q).links = w.links := rfl

@[simp] theorem modifyLink_links_self : (w.modifyLink p f).links p = f (w.links p) :=
  update_self ..

@[simp] theorem modifyLink_links_of_ne (h : p' ≠ p) :
    (w.modifyLink p f).links p' = w.links p' := update_of_ne h ..

@[simp] theorem modifyLink_queues : (w.modifyLink p f).queues = w.queues := rfl

theorem modifyLink_modifyLink {g : QueueLink → QueueLink} :
    (w.modifyLink p f).modifyLink p g = w.modifyLink p (fun l => g (f l)) := by
  simp [modifyLink]

end updates

def proposePush (p : Ptr) (element : α) : Body (QueueWorld A α × Bool) := do
  let r ← (w.queues p).proposePush element
  return (w.setQueue p r.1, r.2)

/-- `proposePop`, and `tryRecv` without its zero value. -/
def proposePop (p : Ptr) : Body (QueueWorld A α × Option α) := do
  let r ← (w.queues p).proposePop
  let read := if r.2.isSome then w.logRead p (w.queues p).popProposalCount else w
  return (read.setQueue p r.1, r.2)

def proposeTransferTo (source destination : Ptr) : Body (QueueWorld A α × Bool) := do
  let r ← Gfsim.proposeTransferTo source destination w.queues
  let read := if r.2 then w.logRead source (w.queues source).popProposalCount else w
  return ({ read with queues := r.1 }, r.2)

/-- `QueueLink::doWork`. -/
def workLink (p : Ptr) (epoch : Epoch) : Body (QueueWorld A α) :=
  if (w.links p).lastWorkEpoch = some epoch then .done w
  else
    let link := w.links p
    let w := w.modifyLink p fun l => { l with lastWorkEpoch := some epoch }
    if (w.queues link.source).isEmpty then
      .done (w.modifyLink p fun l => { l with stalledEmpty := l.stalledEmpty + 1 })
    else if (w.queues link.destination).isFull then
      .done (w.modifyLink p fun l => { l with stalledFull := l.stalledFull + 1 })
    else do
      if ← link.register then
        let r ← w.proposeTransferTo link.source link.destination
        if r.2 then return r.1.modifyLink p fun l => { l with pendingTransfer := true }
        else return r.1.modifyLink p fun l =>
          { l with runtimeFailureCode := "queue_link_atomic_proposal_failed" }
      else return w.modifyLink p fun l =>
        { l with runtimeFailureCode := "queue_link_commit_registration_failed" }

/-- `SimObject::runtimeState` of a link, which is runnable when it could move an entry. -/
def linkState (p : Ptr) : RuntimeObjectState :=
  let link := w.links p
  let runnable := !(w.queues link.source).isEmpty && !(w.queues link.destination).isFull
  { quiescent := !link.pendingTransfer && !runnable
    runnable := runnable
    pendingCommit := link.pendingTransfer
    reason := if link.pendingTransfer then "pending_commit"
      else if runnable then "runnable" else "" }

end QueueWorld

/-! ### Agents -/

/-- A method of an agent: calls of the system and of queues, then the new agent states. -/
inductive Prog (A α : Type) where
  | done (a : A)
  | scheduleWork (id : ObjectId) (epoch : Epoch) (next : Bool → Prog A α)
  | scheduleEvent (event : Event) (next : Bool → Prog A α)
  | registerCommitParticipant (id : ObjectId) (next : Bool → Prog A α)
  | proposeObservation (proposal : EventProposal) (next : Bool → Prog A α)
  | view (next : View → Prog A α)
  | proposePush (queue : Ptr) (element : α) (next : Bool → Prog A α)
  | proposePop (queue : Ptr) (next : Option α → Prog A α)
  | proposeTransferTo (source destination : Ptr) (next : Bool → Prog A α)
  | tryPeek (queue : Ptr) (next : Option α → Prog A α)
  | status (queue : Ptr) (next : QueueStatus → Prog A α)

namespace Prog

/-- The program pushes to and pops from the allowed queues only. -/
def Respects (mayPush mayPop : Ptr → Bool) : Prog A α → Prop
  | .done _ => True
  | .scheduleWork _ _ next => ∀ ok, (next ok).Respects mayPush mayPop
  | .scheduleEvent _ next => ∀ ok, (next ok).Respects mayPush mayPop
  | .registerCommitParticipant _ next => ∀ ok, (next ok).Respects mayPush mayPop
  | .proposeObservation _ next => ∀ ok, (next ok).Respects mayPush mayPop
  | .view next => ∀ v, (next v).Respects mayPush mayPop
  | .proposePush p _ next => mayPush p = true ∧ ∀ ok, (next ok).Respects mayPush mayPop
  | .proposePop p next => mayPop p = true ∧ ∀ r, (next r).Respects mayPush mayPop
  | .proposeTransferTo source destination next => mayPop source = true ∧
      mayPush destination = true ∧ ∀ ok, (next ok).Respects mayPush mayPop
  | .tryPeek _ next => ∀ r, (next r).Respects mayPush mayPop
  | .status _ next => ∀ r, (next r).Respects mayPush mayPop

/-- Some call of the program reads the queue `p`. -/
def MayRead (p : Ptr) : Prog A α → Prop
  | .done _ => False
  | .scheduleWork _ _ next => ∃ ok, (next ok).MayRead p
  | .scheduleEvent _ next => ∃ ok, (next ok).MayRead p
  | .registerCommitParticipant _ next => ∃ ok, (next ok).MayRead p
  | .proposeObservation _ next => ∃ ok, (next ok).MayRead p
  | .view next => ∃ v, (next v).MayRead p
  | .proposePush _ _ next => ∃ ok, (next ok).MayRead p
  | .proposePop queue next => queue = p ∨ ∃ r, (next r).MayRead p
  | .proposeTransferTo source _ next => source = p ∨ ∃ ok, (next ok).MayRead p
  | .tryPeek queue next => queue = p ∨ ∃ r, (next r).MayRead p
  | .status _ next => ∃ r, (next r).MayRead p

variable {A α : Type} [PacketTraits α]

def compile : Prog A α → QueueWorld A α → Body (QueueWorld A α)
  | .done a, w => .done { w with agents := a }
  | .scheduleWork id epoch next, w => .scheduleWork id epoch fun ok => (next ok).compile w
  | .scheduleEvent event next, w => .scheduleEvent event fun ok => (next ok).compile w
  | .registerCommitParticipant id next, w =>
    .registerCommitParticipant id fun ok => (next ok).compile w
  | .proposeObservation proposal next, w =>
    .proposeObservation proposal fun ok => (next ok).compile w
  | .view next, w => .view fun v => (next v).compile w
  | .proposePush p element next, w => do
      let r ← w.proposePush p element
      (next r.2).compile r.1
  | .proposePop p next, w => do
      let r ← w.proposePop p
      (next r.2).compile r.1
  | .proposeTransferTo source destination next, w => do
      let r ← w.proposeTransferTo source destination
      (next r.2).compile r.1
  | .tryPeek p next, w => (next (w.queues p).peek).compile (w.logRead p 0)
  | .status p next, w => (next (w.queues p).status).compile w

end Prog

/-- The methods of the agents. -/
structure Agents (A α : Type) where
  doWork : Ptr → Epoch → A → Prog A α := fun _ _ a => .done a
  doArbitrate : Ptr → Epoch → A → Prog A α := fun _ _ a => .done a
  doXfer : Ptr → Epoch → A → Prog A α := fun _ _ a => .done a
  hasPendingCommit : Ptr → QueueWorld A α → Bool := fun _ _ => false
  runtimeFailureCode : Ptr → A → String := fun _ _ => ""
  validatePendingCommit : Ptr → QueueWorld A α → Bool :=
    fun p w => (runtimeFailureCode p w.agents).isEmpty
  activateFrom : Ptr → ObjectId → A → Bool × A := fun _ _ a => (true, a)
  deliverEvent : Ptr → ℕ → ℕ → Epoch → A → Bool × A := fun _ _ _ _ a => (true, a)
  requestTraceEnd : Ptr → A → Bool × A := fun _ a => (false, a)
  runtimeState : Ptr → Epoch → QueueWorld A α → RuntimeObjectState := fun p _ w =>
    { quiescent := !hasPendingCommit p w, pendingCommit := hasPendingCommit p w
      reason := if hasPendingCommit p w then "pending_commit" else "" }

section model

variable {A α : Type} [PacketTraits α]

/-- A method during which the clock shows `epoch`. -/
def QueueWorld.clocked (w : QueueWorld A α) (epoch : Epoch)
    (b : QueueWorld A α → Body (QueueWorld A α)) : Body (QueueWorld A α) := do
  let r ← b { w with clock := some epoch }
  return { r with clock := none }

/-- An agent's answer to a hook of the system that does not reach the queues. -/
def QueueWorld.answer (w : QueueWorld A α) (r : Bool × A) : Bool × QueueWorld A α :=
  (r.1, { w with agents := r.2 })

/-- The system of queues, links and agents: an object is a queue or a link by its kind. -/
def queueModel (c : Config) (agents : Agents A α) : Model (QueueWorld A α) where
  config := c
  hooks :=
    { doWork := fun p epoch w =>
        match (c.info p).kind with
        | .queue => .done w
        | .link => w.clocked epoch fun w => w.workLink p epoch
        | _ => w.clocked epoch fun w => (agents.doWork p epoch w.agents).compile w
      doArbitrate := fun p epoch w =>
        match (c.info p).kind with
        | .queue => do
            let q ← (w.queues p).doArbitrate
            return w.setQueue p q
        | .link => .done w
        | _ => (agents.doArbitrate p epoch w.agents).compile w
      doXfer := fun p epoch w =>
        match (c.info p).kind with
        | .queue => .done (w.setQueue p ((w.queues p).doXfer epoch))
        | .link => .done (w.modifyLink p fun l => l.doXfer epoch)
        | _ => (agents.doXfer p epoch w.agents).compile w
      hasPendingCommit := fun p w =>
        match (c.info p).kind with
        | .queue => (w.queues p).hasPendingCommit
        | .link => (w.links p).pendingTransfer
        | _ => agents.hasPendingCommit p w
      runtimeFailureCode := fun p w =>
        match (c.info p).kind with
        | .queue => (w.queues p).runtimeFailureCode
        | .link => (w.links p).runtimeFailureCode
        | _ => agents.runtimeFailureCode p w.agents
      validatePendingCommit := fun p w =>
        match (c.info p).kind with
        | .queue => (w.queues p).runtimeFailureCode.isEmpty
        | .link => (w.links p).runtimeFailureCode.isEmpty
        | _ => agents.validatePendingCommit p w
      activateFrom := fun p source w =>
        match (c.info p).kind with
        | .queue | .link => (true, w)
        | _ => w.answer (agents.activateFrom p source w.agents)
      deliverEvent := fun p kind payload epoch w =>
        match (c.info p).kind with
        | .queue | .link => (true, w)
        | _ => w.answer (agents.deliverEvent p kind payload epoch w.agents)
      requestTraceEnd := fun p w =>
        match (c.info p).kind with
        | .queue | .link => (false, w)
        | _ => w.answer (agents.requestTraceEnd p w.agents)
      runtimeState := fun p epoch w =>
        match (c.info p).kind with
        | .queue => (w.queues p).runtimeState
        | .link => w.linkState p
        | _ => agents.runtimeState p epoch w }

/-- Constructed queues and links, before anything has been read. -/
structure QueueWorld.Fresh (w : QueueWorld A α) : Prop where
  queues : ∀ p, (w.queues p).Fresh
  links : ∀ p, (w.links p).Fresh
  clock : w.clock = none
  reads : w.reads = []

/-- A host that constructs queues and links and then uses queues within the allowance. -/
def queueHost (initial : QueueWorld A α → Prop) (mayPush mayPop : Ptr → Bool) :
    Host (QueueWorld A α) where
  initial w := w.Fresh ∧ initial w
  calls b := ∃ prog : A → Prog A α, (∀ a, (prog a).Respects mayPush mayPop) ∧
    b = fun w => (prog w.agents).compile w

end model

/-! ### What a program does to the world -/

section uses

theorem Prog.respects_true (prog : Prog A α) : prog.Respects (fun _ => true) (fun _ => true) := by
  induction prog with
  | done => trivial
  | scheduleWork _ _ _ ih | scheduleEvent _ _ ih | registerCommitParticipant _ _ ih
  | proposeObservation _ _ ih | view _ ih | tryPeek _ _ ih | status _ _ ih => exact ih
  | proposePush _ _ _ ih | proposePop _ _ ih => exact ⟨rfl, ih⟩
  | proposeTransferTo _ _ _ ih => exact ⟨rfl, rfl, ih⟩

variable {A α : Type} [PacketTraits α] {mayRead : Ptr → Prop} {mayPush mayPop : Ptr → Bool}
  {w w' : QueueWorld A α}

/-- One change of the world by an agent within its allowance. -/
inductive WorldUse (mayRead : Ptr → Prop) (mayPush mayPop : Ptr → Bool) :
    QueueWorld A α → QueueWorld A α → Prop
  | agents {w : QueueWorld A α} (a : A) : WorldUse mayRead mayPush mayPop w { w with agents := a }
  | read {w : QueueWorld A α} {p : Ptr} (hread : mayRead p) (index : ℕ) :
      WorldUse mayRead mayPush mayPop w (w.logRead p index)
  | queues {w : QueueWorld A α} {h : Heap α}
      (huse : ∀ p, ReflTransGen (QueueUse (mayPush p) (mayPop p)) (w.queues p) (h p)) :
      WorldUse mayRead mayPush mayPop w { w with queues := h }

theorem update_uses {h : Heap α} {p : Ptr} {q : SimQueue α}
    (hq : ReflTransGen (QueueUse (mayPush p) (mayPop p)) (h p) q) (p' : Ptr) :
    ReflTransGen (QueueUse (mayPush p') (mayPop p')) (h p') (update h p q p') :=
  update_path (R := fun p => QueueUse (mayPush p) (mayPop p)) hq p'

variable {p : Ptr} {epoch : Epoch} {ok : Bool}

theorem worldPush_uses {element : α} (hmay : mayPush p = true)
    (hleaf : (w.proposePush p element).Leaf (w', ok)) :
    ReflTransGen (WorldUse mayRead mayPush mayPop) w w' := by
  obtain ⟨⟨q, ok⟩, hq, hleaf⟩ := (leaf_bind _).mp hleaf
  cases leaf_pure.mp hleaf
  exact .single (.queues (update_uses
    (uses_mono (proposePush_uses hq) (fun _ => hmay) nofun)))

theorem worldPop_uses {result : Option α} (hread : mayRead p) (hmay : mayPop p = true)
    (hleaf : (w.proposePop p).Leaf (w', result)) :
    ReflTransGen (WorldUse mayRead mayPush mayPop) w w' := by
  obtain ⟨⟨q, result⟩, hq, hleaf⟩ := (leaf_bind _).mp hleaf
  cases leaf_pure.mp hleaf
  have hqueues (p' : Ptr) : ReflTransGen (QueueUse (mayPush p') (mayPop p')) (w.queues p')
      (update w.queues p q p') :=
    update_uses (uses_mono (proposePop_uses hq) nofun fun _ => hmay) p'
  split
  · exact .head (.read hread _) (.single (.queues hqueues))
  · exact .single (.queues hqueues)

theorem worldTransfer_uses {source destination : Ptr} (hread : mayRead source)
    (hsource : mayPop source = true) (hdestination : mayPush destination = true)
    (hleaf : (w.proposeTransferTo source destination).Leaf (w', ok)) :
    ReflTransGen (WorldUse mayRead mayPush mayPop) w w' := by
  obtain ⟨⟨h, ok⟩, hq, hleaf⟩ := (leaf_bind _).mp hleaf
  cases leaf_pure.mp hleaf
  have hqueues (p : Ptr) : ReflTransGen (QueueUse (mayPush p) (mayPop p)) (w.queues p) (h p) := by
    refine uses_mono (proposeTransferTo_uses hq p) (fun hp => ?_) fun hp => ?_
    · rw [of_decide_eq_true hp]
      exact hdestination
    · rw [of_decide_eq_true hp]
      exact hsource
  split
  · exact .head (.read hread _) (.single (.queues hqueues))
  · exact .single (.queues hqueues)

theorem Prog.compile_uses {prog : Prog A α} (hread : ∀ p, prog.MayRead p → mayRead p)
    (h : prog.Respects mayPush mayPop) (hleaf : (prog.compile w).Leaf w') :
    ReflTransGen (WorldUse mayRead mayPush mayPop) w w' := by
  induction prog generalizing w with
  | done a =>
    cases leaf_done.mp hleaf
    exact .single (.agents a)
  | scheduleWork _ _ next ih | scheduleEvent _ next ih | registerCommitParticipant _ next ih
  | proposeObservation _ next ih =>
    obtain ⟨ok, hleaf⟩ := hleaf
    exact ih ok (fun p hp => hread p ⟨ok, hp⟩) (h ok) hleaf
  | view next ih =>
    obtain ⟨v, hleaf⟩ := hleaf
    exact ih v (fun p hp => hread p ⟨v, hp⟩) (h v) hleaf
  | proposePush p element next ih =>
    obtain ⟨r, hr, hleaf⟩ := (leaf_bind _).mp hleaf
    exact (worldPush_uses h.1 hr).trans
      (ih r.2 (fun p hp => hread p ⟨r.2, hp⟩) (h.2 r.2) hleaf)
  | proposePop p next ih =>
    obtain ⟨r, hr, hleaf⟩ := (leaf_bind _).mp hleaf
    exact (worldPop_uses (hread p (.inl rfl)) h.1 hr).trans
      (ih r.2 (fun p hp => hread p (.inr ⟨r.2, hp⟩)) (h.2 r.2) hleaf)
  | proposeTransferTo source destination next ih =>
    obtain ⟨r, hr, hleaf⟩ := (leaf_bind _).mp hleaf
    exact (worldTransfer_uses (hread source (.inl rfl)) h.1 h.2.1 hr).trans
      (ih r.2 (fun p hp => hread p (.inr ⟨r.2, hp⟩)) (h.2.2 r.2) hleaf)
  | tryPeek p next ih =>
    exact .head (.read (hread p (.inl rfl)) 0)
      (ih _ (fun p hp => hread p (.inr ⟨_, hp⟩)) (h _) hleaf)
  | status p next ih => exact ih _ (fun p hp => hread p ⟨_, hp⟩) (h _) hleaf

section

variable (h : ReflTransGen (WorldUse mayRead mayPush mayPop) w w')

include h

theorem clock_eq_of_uses : w'.clock = w.clock := by
  induction h with
  | refl => rfl
  | tail _ huse ih => cases huse <;> exact ih

theorem links_eq_of_uses : w'.links = w.links := by
  induction h with
  | refl => rfl
  | tail _ huse ih => cases huse <;> exact ih

theorem queues_of_uses (p : Ptr) :
    ReflTransGen (QueueUse (mayPush p) (mayPop p)) (w.queues p) (w'.queues p) := by
  induction h with
  | refl => exact .refl
  | tail _ huse ih =>
    cases huse with
    | agents | read => exact ih
    | queues huse => exact ih.trans (huse p)

end

/-- An update that keeps the ends of a link. -/
def QueueLink.KeepsEnds (f : QueueLink → QueueLink) : Prop :=
  ∀ l, (f l).source = l.source ∧ (f l).destination = l.destination

omit [PacketTraits α] in
theorem modifyLink_id (p : Ptr) : w.modifyLink p id = w := by
  rw [QueueWorld.modifyLink, id, update_eq_self]

/-- The Work of a link changes the link before and after it uses its two queues; it reads its
source only. -/
theorem workLink_uses (hpop : mayPop (w.links p).source = true)
    (hpush : mayPush (w.links p).destination = true) (hleaf : (w.workLink p epoch).Leaf w') :
    ∃ f f' u, QueueLink.KeepsEnds f ∧ QueueLink.KeepsEnds f' ∧
      ReflTransGen (WorldUse (fun queue => queue = (w.links p).source) mayPush mayPop)
        (w.modifyLink p f) u ∧ w' = u.modifyLink p f' := by
  unfold QueueWorld.workLink at hleaf
  split at hleaf
  · cases leaf_done.mp hleaf
    refine ⟨id, id, w, fun _ => ⟨rfl, rfl⟩, fun _ => ⟨rfl, rfl⟩, ?_, ?_⟩
    · rw [modifyLink_id]
    · rw [modifyLink_id]
  dsimp only at hleaf
  split at hleaf
  · cases leaf_done.mp hleaf
    refine ⟨_, _, _, ?_, ?_, .refl, rfl⟩
    all_goals exact fun _ => ⟨rfl, rfl⟩
  split at hleaf
  · cases leaf_done.mp hleaf
    refine ⟨_, _, _, ?_, ?_, .refl, rfl⟩
    all_goals exact fun _ => ⟨rfl, rfl⟩
  obtain ⟨registered, _, hleaf⟩ := (leaf_bind _).mp hleaf
  cases registered with
  | false =>
    cases leaf_pure.mp hleaf
    refine ⟨_, _, _, ?_, ?_, .refl, rfl⟩
    all_goals exact fun _ => ⟨rfl, rfl⟩
  | true =>
    obtain ⟨⟨u, ok⟩, hmove, hleaf⟩ := (leaf_bind _).mp hleaf
    have huses : ReflTransGen (WorldUse (fun queue => queue = (w.links p).source) mayPush mayPop) _ u :=
      worldTransfer_uses rfl hpop hpush hmove
    cases ok with
    | true | false =>
      cases leaf_pure.mp hleaf
      refine ⟨_, _, u, ?_, ?_, huses, rfl⟩
      all_goals exact fun _ => ⟨rfl, rfl⟩

theorem workLink_of_isFull (hfull : (w.queues (w.links p).destination).isFull = true)
    (hleaf : (w.workLink p epoch).Leaf w') : w'.queues = w.queues := by
  unfold QueueWorld.workLink at hleaf
  split at hleaf
  · cases leaf_done.mp hleaf
    rfl
  dsimp only at hleaf
  split at hleaf
  · cases leaf_done.mp hleaf
    rfl
  split at hleaf
  · cases leaf_done.mp hleaf
    rfl
  · rename_i hspace
    exact absurd hfull hspace

end uses

end AgenticCircuit.Gfsim
