import AgenticCircuit.Gfsim.Monotone
import AgenticCircuit.Gfsim.TimedSystem

/-! # Delivery through timed event queues

A timed event queue posts one notification to the system for every entry it commits, and the system
delivers it at the ready epoch of the entry.  The committed entries and the cursor over them have to
agree with the events that wait in the system and with the current epoch.

* **`Quiet`.**  While objects work, arbitrate and transfer, no event is due: those of the epoch have
  been delivered before it opened, and what the barrier commits is delivered after it.
* **`Notified`.**  Every waiting notification of the queue tells of an entry that is committed and
  not received.  A receipt needs a ready entry, and no notification of a ready entry is waiting
  while objects work.
* **`timed_delivery`** puts both together, over all runs. -/

namespace AgenticCircuit.Gfsim

open SimSystem List EventQueue Or

open Relation (ReflTransGen)

/-! ### The quiet part of a step -/

section quiet

variable {c : Config} {s t : SimSystem}

/-- Until the barrier commits the events, an executing epoch has no event due. -/
def Quiet (s : SimSystem) : Prop :=
  s.executingEpoch = true → (s.trail.gathered = false ∨ s.xferObjects ≠ s.trail.xferDone) →
    s.trail.inFlight = none ∧ ∀ e ∈ s.eventQueue.committed, s.epoch < e.readyTime

theorem NoneDue.lt_readyTime (hnone : NoneDue s) (htimely : Timely s) {e : Event}
    (he : e ∈ s.eventQueue.committed) : s.epoch < e.readyTime := by
  obtain ⟨first, rest, hcommitted⟩ : ∃ first rest, s.eventQueue.committed = first :: rest :=
    exists_cons_of_ne_nil (ne_nil_of_mem he)
  have hnext : s.eventQueue.nextEvent = some first := by
    rw [nextEvent, hcommitted]
    rfl
  have hfirst := lt_of_le_of_ne (htimely.committed_le first (mem_of_head? hnext))
    (Ne.symm (hnone first hnext))
  exact lt_of_lt_of_le hfirst
    (Event.readyTime_le_of_key_le (htimely.sortedEvents.head?_le _ hnext he))

theorem Quiet.move (h : Move c s t) (hs : Quiet s) (htimely : Timely s) : Quiet t := by
  cases h with
  | call h =>
    cases h with
    | fail => exact nofun
    | schedule | accept | skipSequence | register | observe => exact hs
  | take live hcommitted hready =>
    intro hexec hphase
    have hlt := (hs hexec hphase).2 _ (hcommitted ▸ mem_cons_self)
    rw [hready] at hlt
    exact absurd hlt (lt_irrefl _)
  | count live hflight =>
    intro hexec hphase
    have hfree := (hs hexec hphase).1
    rw [hflight] at hfree
    cases hfree
  | openEpoch live hclosed hfree htime hnone =>
    exact fun _ _ => ⟨hfree, fun e he => hnone.lt_readyTime htimely he⟩
  | gather live executing hwork hopen => exact fun _ _ => hs executing (inl hopen)
  | markXfer live executing gathered hxfer =>
    refine fun _ _ => hs executing (inr ?_)
    rw [hxfer]
    simp
  | commitEvents live executing gathered hxfer =>
    unfold commitEvents
    intro _ hphase
    split at hphase <;> simp [SimSystem.record, gathered, hxfer] at hphase
  | close => exact nofun
  | note | mark | startWork | publish | asked => exact hs

end quiet

/-! ### Notifications -/

section notified

variable {α : Type} {c : Config} {id : ObjectId} {s t : SimSystem} {q : TimedEventQueue α}

/-- The events that have been accepted and not delivered. -/
def SimSystem.waiting (s : SimSystem) : List Event :=
  s.trail.inFlight.toList ++ s.eventQueue.committed ++ s.eventQueue.pushProposals

/-- A live system and the queue that posts its notifications under `id`. -/
structure Notified (id : ObjectId) (s : SimSystem) (q : TimedEventQueue α) : Prop where
  line : q.Line s.epoch
  fresh : ∀ o ∈ s.trail.posts, o.2.sequence < s.nextEventSequence
  announced : ∀ e ∈ s.waiting, (some id, e) ∈ s.trail.posts → q.Announces e
  unposted : ∀ e ∈ s.eventQueue.pushProposals, (some id, e) ∈ s.trail.posts →
    s.executingEpoch = true ∧ s.trail.xferDone ≠ []

variable {event : Event} {epoch : Epoch}

/-- Moves that neither post nor propose. -/
theorem Notified.frame (hs : Notified id s q) (hepoch : t.epoch = s.epoch)
    (hposts : t.trail.posts = s.trail.posts) (hnext : s.nextEventSequence ≤ t.nextEventSequence)
    (hwaiting : ∀ e ∈ t.waiting, e ∈ s.waiting)
    (hproposals : ∀ e ∈ t.eventQueue.pushProposals, e ∈ s.eventQueue.pushProposals ∧
      (s.executingEpoch = true → s.trail.xferDone ≠ [] →
        t.executingEpoch = true ∧ t.trail.xferDone ≠ [])) : Notified id t q := by
  refine ⟨?_, ?_, ?_, ?_⟩
  · rw [hepoch]
    exact hs.line
  · rw [hposts]
    exact fun o ho => lt_of_lt_of_le (hs.fresh o ho) hnext
  · rw [hposts]
    exact fun e he => hs.announced e (hwaiting e he)
  · rw [hposts]
    intro e he hpost
    obtain ⟨hmem, hphase⟩ := hproposals e he
    obtain ⟨hexec, hdone⟩ := hs.unposted e hmem hpost
    exact hphase hexec hdone

theorem mem_waiting_acceptEvent {e : Event} :
    e ∈ (s.acceptEvent event).waiting ↔ e = event ∨ e ∈ s.waiting := by
  simp only [waiting, SimSystem.acceptEvent, SimSystem.record,
    proposeSchedule, mem_append, mem_insertKey]
  tauto

theorem mem_posts_acceptEvent {o : Option ObjectId × Event} :
    o ∈ (s.acceptEvent event).trail.posts ↔ o ∈ s.trail.posts ∨ o = (s.poster, event) := by
  simp [SimSystem.acceptEvent, SimSystem.record]

theorem Notified.fresh_acceptEvent (hs : Notified id s q)
    (hsequence : event.sequence = s.nextEventSequence) : ∀ o ∈ (s.acceptEvent event).trail.posts,
      o.2.sequence < (s.acceptEvent event).nextEventSequence := by
  intro o ho
  show o.2.sequence < s.nextEventSequence + 1
  rcases mem_posts_acceptEvent.mp ho with ho | rfl
  · have := hs.fresh o ho
    omega
  · show event.sequence < _
    omega

theorem Notified.not_posted (hs : Notified id s q) {poster : Option ObjectId}
    (hsequence : event.sequence = s.nextEventSequence) : (poster, event) ∉ s.trail.posts := by
  intro hpost
  have hlt : event.sequence < s.nextEventSequence := hs.fresh _ hpost
  omega

theorem Notified.acceptEvent (hs : Notified id s q)
    (hsequence : event.sequence = s.nextEventSequence) (hposter : s.poster ≠ some id) :
    Notified id (s.acceptEvent event) q := by
  have hold {e : Event} (hpost : (some id, e) ∈ (s.acceptEvent event).trail.posts) :
      (some id, e) ∈ s.trail.posts := by
    rcases mem_posts_acceptEvent.mp hpost with hpost | hpost
    · exact hpost
    · exact absurd (congrArg Prod.fst hpost).symm hposter
  refine ⟨hs.line, hs.fresh_acceptEvent hsequence, fun e he hpost => ?_, fun e he hpost => ?_⟩
  · rcases mem_waiting_acceptEvent.mp he with rfl | he
    · exact absurd (hold hpost) (hs.not_posted hsequence)
    · exact hs.announced e he (hold hpost)
  · rcases (mem_insertKey _).mp he with rfl | he
    · exact absurd (hold hpost) (hs.not_posted hsequence)
    · exact hs.unposted e he (hold hpost)

theorem Notified.call (h : Call c s t) (hs : Notified id s q) (ht : t.terminated = false)
    (hposter : t.trail.posts = s.trail.posts ∨ s.poster ≠ some id) : Notified id t q := by
  cases h with
  | fail => cases ht
  | accept live hle hdelta htarget hsequence =>
    rcases hposter with hposts | hposter
    · simp [SimSystem.acceptEvent, SimSystem.record] at hposts
    · exact hs.acceptEvent hsequence hposter
  | skipSequence =>
    exact hs.frame rfl rfl (Nat.le_succ _) (fun _ h => h) fun _ h => ⟨h, fun h h' => ⟨h, h'⟩⟩
  | schedule | register | observe =>
    exact hs.frame rfl rfl le_rfl (fun _ h => h) fun _ h => ⟨h, fun h h' => ⟨h, h'⟩⟩

/-- The scheduler's moves: between steps an event may come from the host. -/
theorem Notified.move (h : Move c s t) (hs : Notified id s q) (ht : t.terminated = false)
    (hposts : s.executingEpoch = true → t.trail.posts = s.trail.posts) : Notified id t q := by
  cases h with
  | call h =>
    refine hs.call h ht ?_
    cases hexec : s.executingEpoch with
    | true => exact inl (hposts hexec)
    | false => exact inr (by simp [poster, hexec])
  | take live hcommitted hready hcap hfree =>
    refine hs.frame rfl rfl le_rfl (fun e he => ?_) fun _ h => ⟨h, fun h h' => ⟨h, h'⟩⟩
    simp only [waiting, hfree]
    simpa [waiting, takeEvent, popNext, hcommitted] using he
  | count live hflight =>
    refine hs.frame rfl rfl le_rfl (fun e he => ?_) fun _ h => ⟨h, fun h h' => ⟨h, h'⟩⟩
    simp only [waiting, append_assoc]
    exact mem_append_right _ he
  | openEpoch live hclosed =>
    refine hs.frame rfl rfl le_rfl (fun _ h => h) fun _ h => ⟨h, fun hexec => ?_⟩
    cases hclosed.symm.trans hexec
  | markXfer =>
    refine hs.frame rfl rfl le_rfl (fun _ h => h) fun _ h => ⟨h, fun hexec _ => ⟨hexec, ?_⟩⟩
    simp [markXfer]
  | commitEvents =>
    have hqueue : s.commitEvents.eventQueue = s.eventQueue.doXfer := by
      unfold commitEvents
      split <;> rfl
    have htrail : s.commitEvents.trail.inFlight = s.trail.inFlight := by
      unfold commitEvents
      split <;> rfl
    refine hs.frame ?_ ?_ ?_ (fun e he => ?_) fun e he => ?_
    · unfold commitEvents
      split <;> rfl
    · unfold commitEvents
      split <;> rfl
    · unfold commitEvents
      split <;> exact le_rfl
    · rw [waiting, hqueue, htrail] at he
      simpa [waiting, doXfer, mem_insertAll] using he
    · rw [hqueue] at he
      cases he
  | close live executing hfree hwork gathered hxfer hasked hproposals =>
    refine hs.frame rfl rfl le_rfl (fun _ h => h) fun e he => ?_
    change e ∈ s.eventQueue.pushProposals at he
    rw [hproposals] at he
    cases he
  | note | mark | startWork | gather | publish | asked =>
    exact hs.frame rfl rfl le_rfl (fun _ h => h) fun _ h => ⟨h, fun h h' => ⟨h, h'⟩⟩

theorem Notified.later (hs : Notified id s q) {next : Epoch} (hle : s.epoch ≤ next) :
    Notified id { s with epoch := next } q :=
  ⟨hs.line.later hle, hs.fresh, hs.announced, hs.unposted⟩

/-! ### The Xfer of the queue -/

theorem scheduleEvent_cases (event : Event) :
    ((s.scheduleEvent c event).2 = false ∧ (s.scheduleEvent c event).1.terminated = true) ∨
    ((s.scheduleEvent c event).2 = true ∧ s.epoch ≤ event.readyTime ∧ (s.scheduleEvent c event).1 =
        s.acceptEvent { event with sequence := s.nextEventSequence }) := by
  unfold scheduleEvent
  split
  · rename_i hterm
    exact inl ⟨rfl, hterm⟩
  split
  · exact inl ⟨rfl, rfl⟩
  split
  · exact inl ⟨rfl, rfl⟩
  rename_i hle
  split
  · exact inl ⟨rfl, rfl⟩
  split
  · exact inl ⟨rfl, rfl⟩
  split
  · exact inl ⟨rfl, rfl⟩
  · exact inr ⟨rfl, not_lt.mp hle, rfl⟩

/-- The part of a queue that its Xfer leaves alone, but for the loop over the schedules. -/
structure SameQueue (q r : TimedEventQueue α) : Prop where
  id : r.id = q.id
  system : r.system = q.system
  capacity : r.capacity = q.capacity
  past : r.past = q.past
  cursor : r.popProposalCount = q.popProposalCount

theorem publish_leaf : ∀ (entries : List (TimedEntry α)) {q r : TimedEventQueue α},
    (TimedEventQueue.publish entries q).Leaf r →
    SameQueue q r ∧ r.committed.length ≤ q.committed.length + entries.length
  | [], q, r, h => by
    cases Body.leaf_done.mp h
    exact ⟨⟨rfl, rfl, rfl, rfl, rfl⟩, Nat.le_refl _⟩
  | entry :: rest, q, r, h => by
    have hinsert : (q.insert entry).committed.length = q.committed.length + 1 :=
      length_insertKey _ _ _
    have hnext (h : (TimedEventQueue.publish rest (q.insert entry)).Leaf r) :
        SameQueue q r ∧ r.committed.length ≤ q.committed.length + (entry :: rest).length := by
      obtain ⟨hsame, hlength⟩ := publish_leaf rest h
      rw [hinsert] at hlength
      refine ⟨⟨hsame.id, hsame.system, hsame.capacity, hsame.past, hsame.cursor⟩, ?_⟩
      rw [length_cons]
      omega
    unfold TimedEventQueue.publish at h
    split at h
    · exact hnext h
    · obtain ⟨ok, h⟩ := h
      cases ok with
      | true => exact hnext h
      | false =>
        cases Body.leaf_done.mp h
        refine ⟨⟨rfl, rfl, rfl, rfl, rfl⟩, ?_⟩
        show (q.insert entry).committed.length ≤ _
        rw [hinsert, length_cons]
        omega

/-- The system in which the queue runs its own Xfer. -/
structure Posting (id : ObjectId) (s : SimSystem) : Prop where
  executing : s.executingEpoch = true
  poster : s.poster = some id
  marked : s.trail.xferDone ≠ []

theorem Posting.acceptEvent (hs : Posting id s) (event : Event) :
    Posting id (s.acceptEvent event) := ⟨hs.executing, hs.poster, hs.marked⟩

/-- The queue inserts an entry and posts its notification. -/
theorem Notified.insert {entry : TimedEntry α} {rest : List (TimedEntry α)}
    (hs : Notified q.id s { q with scheduleProposals := entry :: rest }) (hposting : Posting q.id s)
    (hcursor : q.popProposalCount = 0) (hle : s.epoch ≤ entry.readyTime) :
    Notified q.id
      (s.acceptEvent { q.notification entry with sequence := s.nextEventSequence })
      { q.insert entry with scheduleProposals := rest } := by
  have hdrop {a : TimedEntry α} (ha : a = entry ∨ a ∈ q.committed) :
      a ∈ (insertKey TimedEntry.key entry q.committed).drop q.popProposalCount := by
    rw [hcursor, drop_zero, mem_insertKey]
    exact ha
  refine ⟨hs.line.insert rfl hcursor hle, hs.fresh_acceptEvent rfl, fun e he hpost => ?_,
    fun e he hpost => ⟨hposting.executing, hposting.marked⟩⟩
  rcases mem_posts_acceptEvent.mp hpost with hpost | hpost
  · rcases mem_waiting_acceptEvent.mp he with rfl | he
    · exact absurd hpost (hs.not_posted rfl)
    · obtain ⟨htarget, hkind, old, hold, hseq, hready⟩ := hs.announced e he hpost
      exact ⟨htarget, hkind, old, hdrop (inr (mem_of_mem_drop hold)), hseq, hready⟩
  · have heq : e = { q.notification entry with sequence := s.nextEventSequence } :=
      congrArg Prod.snd hpost
    rw [heq]
    exact ⟨rfl, rfl, entry, hdrop (inl rfl), rfl, rfl⟩

theorem Notified.publish : ∀ (entries : List (TimedEntry α)) {q : TimedEventQueue α}
    {s : SimSystem}, Notified q.id s { q with scheduleProposals := entries } → Posting q.id s →
    q.popProposalCount = 0 → q.system.isSome →
    let r := (TimedEventQueue.publish entries q).exec c s
    r.1.terminated = false → Notified q.id r.1 { r.2 with scheduleProposals := [] }
  | [], q, s, hs, _, _, _ => fun _ => hs
  | entry :: rest, q, s, hs, hposting, hcursor, hbound => by
    have hsystem : q.system.isNone = false := by simpa using hbound
    unfold TimedEventQueue.publish
    rw [hsystem, if_neg Bool.false_ne_true]
    unfold Body.exec
    rcases scheduleEvent_cases (c := c) (s := s) (q.notification entry) with
      ⟨hok, hterm⟩ | ⟨hok, hle, hsys⟩
    · dsimp only
      rw [hok, if_neg Bool.false_ne_true]
      intro hlive
      cases hterm.symm.trans hlive
    · dsimp only
      rw [hok, if_pos rfl, hsys]
      exact Notified.publish rest (q := q.insert entry) (hs.insert hposting hcursor hle)
        (hposting.acceptEvent _) hcursor hbound

theorem Notified.erasePopped (hs : Notified id s q) : Notified id s q.erasePopped := by
  refine ⟨hs.line.erasePopped, hs.fresh, fun e he hpost => ?_, hs.unposted⟩
  obtain ⟨htarget, hkind, entry, hentry, hseq, hready⟩ := hs.announced e he hpost
  exact ⟨htarget, hkind, entry, hentry, hseq, hready⟩

theorem doXfer_leaf {r : TimedEventQueue α} (hd : q.Delivers) (h : (q.doXfer epoch).Leaf r) :
    r.Delivers ∧ r.id = q.id ∧ r.system = q.system := by
  obtain ⟨u, hu, hr⟩ := (Body.leaf_bind _).mp h
  cases Body.leaf_pure.mp hr
  obtain ⟨hsame, hlength⟩ := publish_leaf _ hu
  refine ⟨hd.of_past hsame.capacity ?_ ?_ ?_, hsame.id, hsame.system⟩
  · show u.past.accepted = _
    rw [hsame.past]
    rfl
  · show u.past.received = _
    rw [hsame.past]
    rfl
  · have herase : q.erasePopped.committed.length ≤ q.committed.length := by
      simp [TimedEventQueue.erasePopped]
    show u.committed.length + 0 ≤ _
    omega

theorem Notified.doXfer (hs : Notified q.id s q) (hposting : Posting q.id s)
    (hbound : q.system.isSome) : let r := (q.doXfer epoch).exec c s
    r.1.terminated = false → Notified q.id r.1 r.2 := by
  unfold TimedEventQueue.doXfer
  rw [Body.exec_bind]
  intro r hlive
  have h := Notified.publish (c := c) q.scheduleProposals (q := q.erasePopped) hs.erasePopped hposting
    rfl hbound hlive
  refine ⟨h.line.settle rfl _ _, h.fresh, fun e he hpost => ?_, h.unposted⟩
  obtain ⟨htarget, hkind, hentry⟩ := h.announced e he hpost
  exact ⟨htarget, hkind, hentry⟩

end notified

/-! ### Programs of agents -/

section programs

variable {A α : Type} {c : Config} {p : Ptr} {now : Epoch} {s t : State (TimedWorld A α)}

/-- The queue is registered under its own ID and bound to the system. -/
structure Placed (c : Config) (p : Ptr) : Prop where
  kind : (c.info p).kind = .eventQueue
  found : c.lookup (c.info p).id = some p
  own : ∀ id, c.lookup id = some p → (c.info p).id = id

structure Bound (c : Config) (p : Ptr) (w : TimedWorld A α) : Prop where
  id : (w.queues p).id = (c.info p).id
  system : (w.queues p).system.isSome

/-- The running method is not one of the object `id`, and where it can register, nothing that
`id` has posted is due. -/
structure Outside (id : ObjectId) (now : Epoch) (s : SimSystem) : Prop where
  poster : s.poster ≠ some id
  settled : Registering s → now = s.epoch ∧
    ∀ e ∈ s.waiting, (some id, e) ∈ s.trail.posts → s.epoch < e.readyTime

theorem poster_eq_of_control {s t : SimSystem} (h : t.control = s.control) :
    t.poster = s.poster := by
  have hexec : t.executingEpoch = s.executingEpoch := congrArg Control.executingEpoch h
  have howner : t.activeProposalOwner = s.activeProposalOwner :=
    congrArg Control.activeProposalOwner h
  have hdone : t.trail.xferDone = s.trail.xferDone := congrArg Control.xferDone h
  rw [poster, hexec, howner, hdone]
  rfl

variable {q : TimedEventQueue α} {id : ObjectId}

theorem Outside.call {s t : SimSystem} (h : Call c s t) (hs : Outside id now s)
    (hq : Notified id s q) (ht : t.terminated = false) : Outside id now t := by
  have hcontrol : t.control = s.control := control_eq_of_calls_live (.single h) ht
  have hposter := poster_eq_of_control hcontrol
  refine ⟨hposter ▸ hs.poster, fun hreg => ?_⟩
  have howner : t.activeProposalOwner = s.activeProposalOwner :=
    congrArg Control.activeProposalOwner hcontrol
  have hreg : Registering s :=
    ⟨h.live, (h.executing_eq ht).symm.trans hreg.executing, howner ▸ hreg.owner⟩
  obtain ⟨hnow, hdue⟩ := hs.settled hreg
  cases h with
  | fail => cases ht
  | accept live hle hdelta htarget hsequence =>
    refine ⟨hnow, fun e he hpost => ?_⟩
    have hold : (some id, e) ∈ s.trail.posts := by
      rcases mem_posts_acceptEvent.mp hpost with hpost | hpost
      · exact hpost
      · exact absurd (congrArg Prod.fst hpost).symm hs.poster
    rcases mem_waiting_acceptEvent.mp he with rfl | he
    · exact absurd hold (hq.not_posted hsequence)
    · exact hdue e he hold
  | schedule | skipSequence | register | observe => exact ⟨hnow, hdue⟩

/-- The cursor moves over a ready entry, whose notification has been delivered. -/
theorem Notified.receive {s : SimSystem} {entry : TimedEntry α}
    (hs : Notified id s q) (hentry : q.committed[q.popProposalCount]? = some entry)
    (hready : entry.readyTime ≤ s.epoch)
    (hdue : ∀ e ∈ s.waiting, (some id, e) ∈ s.trail.posts → s.epoch < e.readyTime) :
    Notified id s (q.receive entry s.epoch) := by
  refine ⟨hs.line.receive hentry hready, hs.fresh, fun e he hpost => ?_, hs.unposted⟩
  obtain ⟨htarget, hkind, other, hother, hseq, htime⟩ := hs.announced e he hpost
  refine ⟨htarget, hkind, other, ?_, hseq, htime⟩
  obtain ⟨hlt, hget⟩ := List.getElem?_eq_some_iff.mp hentry
  rw [drop_eq_getElem_cons hlt, hget] at hother
  rcases mem_cons.mp hother with rfl | hother
  · have hlate := hdue e he hpost
    rw [← htime] at hlate
    exact absurd hready (not_le.mpr hlate)
  · exact hother

/-- The invariant of the queue `p` in a run. -/
structure TimedInv (c : Config) (p : Ptr) (s : State (TimedWorld A α)) : Prop where
  delivers : (s.world.queues p).Delivers
  bound : Bound c p s.world
  notified : s.sys.terminated = false → Notified (c.info p).id s.sys (s.world.queues p)

/-- The invariant while a program of somebody else runs. -/
structure TimedProgInv (c : Config) (p : Ptr) (now : Epoch) (s : State (TimedWorld A α)) :
    Prop extends TimedInv c p s where
  outside : s.sys.terminated = false → Outside (c.info p).id now s.sys

theorem TimedProgInv.setQueue (hs : TimedProgInv c p now s) (hid : q.id = (s.world.queues p).id)
    (hsystem : q.system = (s.world.queues p).system) (hd : q.Delivers)
    (hnotified : s.sys.terminated = false → Notified (c.info p).id s.sys q) :
    TimedProgInv c p now (s.setQueue p q) := by
  have hqueue : (s.setQueue p q).world.queues p = q := TimedWorld.setQueue_self
  refine ⟨⟨?_, ⟨?_, ?_⟩, ?_⟩, hs.outside⟩
  · rw [hqueue]
    exact hd
  · rw [hqueue, hid]
    exact hs.bound.id
  · rw [hqueue, hsystem]
    exact hs.bound.system
  · rw [hqueue]
    exact hnotified

theorem TimedProgInv.setOther {p' : Ptr} (q : TimedEventQueue α) (hs : TimedProgInv c p now s)
    (hp : p ≠ p') : TimedProgInv c p now (s.setQueue p' q) := by
  have hqueue : (s.setQueue p' q).world.queues p = s.world.queues p :=
    TimedWorld.setQueue_of_ne hp
  refine ⟨⟨?_, ⟨?_, ?_⟩, ?_⟩, hs.outside⟩
  · rw [hqueue]
    exact hs.delivers
  · rw [hqueue]
    exact hs.bound.id
  · rw [hqueue]
    exact hs.bound.system
  · rw [hqueue]
    exact hs.notified

theorem TimedProgInv.step (h : TimedStep c now s t) (hs : TimedProgInv c p now s) :
    TimedProgInv c p now t := by
  cases h with
  | call h =>
    have hn := hs.notified h.live
    have ho := hs.outside h.live
    exact ⟨⟨hs.delivers, hs.bound, fun ht => hn.call h ht (inr ho.poster)⟩,
      fun ht => ho.call h hn ht⟩
  | agents a => exact ⟨⟨hs.delivers, ⟨hs.bound.id, hs.bound.system⟩, hs.notified⟩, hs.outside⟩
  | code p' code =>
    by_cases hp : p = p'
    · subst hp
      refine hs.setQueue rfl rfl ?_ fun hlive => ?_
      · exact hs.delivers.of_past rfl rfl rfl le_rfl
      · have hn := hs.notified hlive
        exact ⟨⟨hn.line.pops, hn.line.received, hn.line.ordered, hn.line.received_le,
          hn.line.places, hn.line.sequences, hn.line.bounded, hn.line.waiting, hn.line.behind⟩,
          hn.fresh, fun e he hpost => ⟨(hn.announced e he hpost).target,
            (hn.announced e he hpost).kind, (hn.announced e he hpost).entry⟩, hn.unposted⟩
    · exact hs.setOther _ hp
  | accept p' value delay hroom hopen =>
    by_cases hp : p = p'
    · subst hp
      have hreg := hopen hs.bound.system
      have hn := hs.notified hreg.live
      refine hs.setQueue rfl rfl (hs.delivers.accept hn.line hroom value now delay) fun _ => ?_
      exact ⟨hn.line.accept value now delay, hn.fresh, fun e he hpost =>
        ⟨(hn.announced e he hpost).target, (hn.announced e he hpost).kind,
          (hn.announced e he hpost).entry⟩, hn.unposted⟩
    · exact hs.setOther _ hp
  | receive p' hentry hready hopen =>
    by_cases hp : p = p'
    · subst hp
      have hreg := hopen hs.bound.system
      have hn := hs.notified hreg.live
      obtain ⟨hnow, hdue⟩ := (hs.outside hreg.live).settled hreg
      subst hnow
      exact hs.setQueue rfl rfl (hs.delivers.receive hn.line hentry hready) fun _ =>
        hn.receive hentry hready hdue
    · exact hs.setOther _ hp

theorem TimedProgInv.steps (h : ReflTransGen (TimedStep c now) s t) (hs : TimedProgInv c p now s) :
    TimedProgInv c p now t := by
  induction h with
  | refl => exact hs
  | tail _ hstep ih => exact ih.step hstep

end programs

/-! ### Runs -/

section run

variable {A α : Type} {c : Config} {agents : TimedAgents A α} {p : Ptr}
  {s t : State (TimedWorld A α)}

variable (prog : TimedProg A α)

theorem TimedInv.compile {now : Epoch} (hs : TimedInv c p s)
    (hout : s.sys.terminated = false → Outside (c.info p).id now s.sys) :
    TimedInv c p ⟨((prog.compile now s.world).exec c s.sys).1,
      ((prog.compile now s.world).exec c s.sys).2⟩ :=
  (TimedProgInv.steps (prog.compile_steps s.sys s.world) ⟨hs, hout⟩).toTimedInv

variable {id : ObjectId}

/-- While objects work or arbitrate, no notification of the queue is due. -/
theorem Notified.settled {s : SimSystem} {q : TimedEventQueue α} (hs : Notified id s q)
    (hquiet : Quiet s) (hexec : s.executingEpoch = true)
    (hphase : s.trail.gathered = false ∨ s.xferObjects ≠ s.trail.xferDone)
    (hdone : s.trail.xferDone = []) :
    ∀ e ∈ s.waiting, (some id, e) ∈ s.trail.posts → s.epoch < e.readyTime := by
  obtain ⟨hfree, hlater⟩ := hquiet hexec hphase
  intro e he hpost
  rw [waiting, hfree, Option.toList_none, nil_append] at he
  rcases mem_append.mp he with he | he
  · exact hlater e he
  · exact absurd hdone (hs.unposted e he hpost).2

variable {p' : Ptr}

/-- The poster of a running object's method is the object. -/
theorem Placed.ne_of_lookup (hp : Placed c p) (hid : c.lookup id = some p') (hne : p' ≠ p) :
    id ≠ (c.info p).id := by
  rintro rfl
  rw [hp.found] at hid
  exact hne (Option.some.inj hid).symm

theorem Placed.ne_of_kind (hp : Placed c p) (hkind : (c.info p').kind ≠ .eventQueue) : p' ≠ p := by
  rintro rfl
  exact hkind hp.kind

/-- Work and arbitration by an agent. -/
theorem TimedInv.agent (hs : TimedInv c p s) (hp : Placed c p)
    (hquiet : s.sys.terminated = false → Quiet s.sys) (hexec : s.sys.executingEpoch = true)
    (howner : s.sys.activeProposalOwner = some id)
    (hphase : s.sys.trail.gathered = false ∨ s.sys.xferObjects ≠ s.sys.trail.xferDone)
    (hdone : s.sys.trail.xferDone = []) (hid : c.lookup id = some p')
    (hkind : (c.info p').kind ≠ .eventQueue) :
    TimedInv c p ⟨((prog.compile s.sys.epoch s.world).exec c s.sys).1,
      ((prog.compile s.sys.epoch s.world).exec c s.sys).2⟩ := by
  refine hs.compile prog fun hlive => ⟨?_, fun _ => ⟨rfl, ?_⟩⟩
  · rw [poster, hexec, if_pos rfl, howner]
    exact fun h => hp.ne_of_lookup hid (hp.ne_of_kind hkind) (Option.some.inj h)
  · exact (hs.notified hlive).settled (hquiet hlive) hexec hphase hdone

/-- The Xfer of an object: its method runs without an owner, so nobody can register. -/
theorem TimedInv.xfer (hs : TimedInv c p s) (hp : Placed c p) (hexec : s.sys.executingEpoch = true)
    (howner : s.sys.activeProposalOwner = none) (hid : c.lookup id = some p')
    (hlast : s.sys.trail.xferDone.getLast? = some id) :
    TimedInv c p (s.call (timedModel c agents) (timedModel c agents).hooks.doXfer p') := by
  have hposter : s.sys.poster = some id := by
    rw [poster, hexec, if_pos rfl, howner, hlast]
    rfl
  have hmarked : s.sys.trail.xferDone ≠ [] := by
    intro h
    rw [h] at hlast
    cases hlast
  have hout (hne : p' ≠ p) (_ : s.sys.terminated = false) :
      Outside (c.info p).id s.sys.epoch s.sys := by
    refine ⟨?_, fun hreg => ?_⟩
    · rw [hposter]
      exact fun h => hp.ne_of_lookup hid hne (Option.some.inj h)
    · have hsome := hreg.owner
      rw [howner] at hsome
      cases hsome
  unfold State.call
  simp only [timedModel]
  split
  · rw [Body.exec_bind]
    show TimedInv c p ((State.mk _ s.world).setQueue p' _)
    by_cases hself : p' = p
    · subst hself
      have hleaf := Body.exec_leaf c ((s.world.queues p').doXfer s.sys.epoch) s.sys
      obtain ⟨hd, hsame, hsystem⟩ := doXfer_leaf hs.delivers hleaf
      have hposting : Posting (s.world.queues p').id s.sys := by
        refine ⟨hexec, ?_, hmarked⟩
        rw [hs.bound.id, hp.own id hid]
        exact hposter
      have hqueue {r : TimedEventQueue α} {u : SimSystem} :
          ((State.mk u s.world).setQueue p' r).world.queues p' = r := TimedWorld.setQueue_self
      refine ⟨?_, ⟨?_, ?_⟩, fun hlive => ?_⟩
      · rw [hqueue]
        exact hd
      · rw [hqueue, hsame]
        exact hs.bound.id
      · rw [hqueue, hsystem]
        exact hs.bound.system
      · rw [hqueue, ← hs.bound.id]
        have hbefore : s.sys.terminated = false := by
          by_contra hterm
          rw [Bool.not_eq_false] at hterm
          have hsys := eq_of_calls_of_terminated (Body.exec_calls c
            ((s.world.queues p').doXfer s.sys.epoch) s.sys) hterm
          change ((((s.world.queues p').doXfer s.sys.epoch).exec c s.sys).1).terminated = false at hlive
          rw [hsys, hterm] at hlive
          cases hlive
        refine Notified.doXfer ?_ hposting hs.bound.system hlive
        rw [hs.bound.id]
        exact hs.notified hbefore
    · have hcalls := Body.exec_calls c ((s.world.queues p').doXfer s.sys.epoch) s.sys
      have hsteps : TimedProgInv c p s.sys.epoch ⟨_, s.world⟩ :=
        TimedProgInv.steps (timedSteps_of_calls hcalls) ⟨hs, hout hself⟩
      exact (hsteps.setOther _ (Ne.symm hself)).toTimedInv
  · rename_i hkind
    exact hs.compile _ (hout (hp.ne_of_kind hkind))

/-- What the moves of the system alone keep. -/
structure Undisturbed (s : SimSystem) : Prop where
  timely : Timely s
  quiet : Quiet s
  kept : s.result.diagnostic ≠ some .invalidEventNotification

theorem Undisturbed.move {s t : SimSystem} (h : Move c s t) (hs : Undisturbed s) :
    Undisturbed t := by
  refine ⟨hs.timely.move h, hs.quiet.move h hs.timely, ?_⟩
  rcases h.result_cases with ⟨hdiagnostic, _⟩ | ⟨d, hd, rfl⟩
  · rw [hdiagnostic]
    exact hs.kept
  · rintro ⟨⟩
    cases hd

/-- The invariant of runs. -/
structure TimedState (c : Config) (p : Ptr) (s : State (TimedWorld A α)) : Prop where
  queue : TimedInv c p s
  system : Undisturbed s.sys

theorem TimedInv.answer (hs : TimedInv c p s) (a : A) :
    TimedInv c p { s with world := { s.world with agents := a } } :=
  ⟨hs.delivers, ⟨hs.bound.id, hs.bound.system⟩, hs.notified⟩

theorem TimedInv.trans (h : Trans (timedModel c agents) s t) (hp : Placed c p)
    (hs : TimedState c p s) : TimedInv c p t := by
  have hq := hs.queue
  cases h with
  | move h hown =>
    exact ⟨hq.delivers, hq.bound, fun ht => (hq.notified h.live).move h ht hown.posts⟩
  | work live executing hopen hxfer howner hwork hid =>
    unfold State.call
    simp only [timedModel]
    split
    · exact hq
    · rename_i hkind
      exact hq.agent _ hp (fun _ => hs.system.quiet) executing howner (inl hopen) hxfer hid hkind
  | arbitrate live executing gathered hxfer howner hmem hid =>
    unfold State.call
    simp only [timedModel]
    split
    · exact hq
    · rename_i hkind
      refine hq.agent _ hp (fun _ => hs.system.quiet) executing howner (inr ?_) hxfer hid hkind
      rw [hxfer]
      exact ne_nil_of_mem hmem
  | @xfer id rest p' live executing gathered howner hxfer _ hid =>
    refine TimedInv.xfer ⟨hq.delivers, hq.bound, fun _ => ?_⟩ hp executing howner hid ?_
    · exact (hq.notified live).move (c := c) (.markXfer live executing gathered hxfer) live
        fun _ => rfl
    · show (s.sys.trail.xferDone ++ [id]).getLast? = some id
      simp
  | skipXfer live executing gathered hxfer =>
    exact ⟨hq.delivers, hq.bound, fun ht => (hq.notified live).move (c := c)
      (.markXfer live executing gathered hxfer) ht fun _ => rfl⟩
  | deliver | activate | traceEnd =>
    simp only [timedModel]
    split
    · exact hq
    · exact hq.answer _

theorem TimedState.trans (h : Trans (timedModel c agents) s t) (hp : Placed c p)
    (hs : TimedState c p s) : TimedState c p t :=
  ⟨TimedInv.trans h hp hs, Exit.preserves_of_path (fun _ _ h hs => hs.move h) h.moves hs.system⟩

/-- The end of a run: a failed notification was not one of the queue. -/
structure TimedEnd (c : Config) (p : Ptr) (s : State (TimedWorld A α)) : Prop where
  delivers : (s.world.queues p).Delivers
  bound : Bound c p s.world
  refused : s.sys.result.diagnostic = some .invalidEventNotification →
    ∀ e, s.sys.trail.inFlight = some e → (some (c.info p).id, e) ∉ s.sys.trail.posts

theorem TimedState.ended (hs : TimedState c p s)
    (hdiagnostic : t.sys.result.diagnostic ≠ some .invalidEventNotification)
    (hworld : t.world = s.world) : TimedEnd c p t := by
  refine ⟨?_, ?_, fun h => absurd h hdiagnostic⟩
  · rw [hworld]
    exact hs.queue.delivers
  · rw [hworld]
    exact hs.queue.bound

theorem TimedInv.not_refused (hs : TimedInv c p s) (hp : Placed c p)
    (live : s.sys.terminated = false) (h : Refused (timedModel c agents) s) {e : Event}
    (he : s.sys.trail.inFlight = some e) : (some (c.info p).id, e) ∉ s.sys.trail.posts := by
  intro hpost
  obtain ⟨event, hevent, hanswer⟩ := h
  rw [he] at hevent
  cases hevent
  have hn := hs.notified live
  have hannounces : (s.world.queues p).Announces e := by
    refine hn.announced e ?_ hpost
    simp [waiting, he]
  obtain ⟨w, hw⟩ := hanswer p (by
    rw [hannounces.target, hs.bound.id]
    exact hp.found)
  simp only [timedModel, hp.kind] at hw
  have hworld : w = s.world := congrArg Prod.snd hw
  subst hworld
  cases (hannounces.deliverEvent hn.line).symm.trans (congrArg Prod.fst hw)

theorem Halt.live_of_refused {s t : SimSystem} (h : Halt c s t)
    (ht : t.result.diagnostic = some .invalidEventNotification)
    (hs : s.result.diagnostic ≠ some .invalidEventNotification) :
    s.terminated = false ∧ t.trail = s.trail := by
  cases h with
  | returned => exact absurd ht hs
  | returnedXfer committed =>
    cases committed with
    | false => exact absurd ht hs
    | true => exact absurd ht hs
  | failed live | stale live | capped live | maxTicks live => exact ⟨live, rfl⟩

theorem TimedState.halt (hs : TimedState c p s) (hp : Placed c p)
    (h : Halts (timedModel c agents) s t) : TimedEnd c p t := by
  refine ⟨?_, ?_, fun hdiagnostic e he => ?_⟩
  · rw [h.world]
    exact hs.queue.delivers
  · rw [h.world]
    exact hs.queue.bound
  · obtain hbefore | hrefused := h.refused hdiagnostic
    · exact absurd hbefore hs.system.kept
    · obtain ⟨live, htrail⟩ := h.halt.live_of_refused hdiagnostic hs.system.kept
      rw [htrail] at he ⊢
      exact hs.queue.not_refused hp live hrefused he

theorem TimedState.close {q : SimSystem} (hs : TimedState c p s) (hp : Placed c p)
    (hdrained : Drained c s.sys) (hq : Closed (timedModel c agents) s q) :
    TimedState c p ⟨q, s.world⟩ := by
  have hmove : Trans (timedModel c agents) s ⟨s.sys.closeEpoch, s.world⟩ :=
    .move hdrained.close ⟨prefix_rfl, fun _ => rfl⟩
  have hclose := hs.trans hmove hp
  cases hq with
  | plain => exact hclose
  | refreshed =>
    have hnote : Move c s.sys.closeEpoch
        (refreshed (timedModel c agents) ⟨s.sys.closeEpoch, s.world⟩) :=
      .note _ _ _ _ _ _ _ _ hdrained.position.live rfl rfl rfl
    have htrans : Trans (timedModel c agents) ⟨s.sys.closeEpoch, s.world⟩ ⟨_, s.world⟩ :=
      .move (s := ⟨s.sys.closeEpoch, s.world⟩) hnote ⟨prefix_rfl, fun _ => rfl⟩
    exact hclose.trans htrans hp

theorem TimedState.advance {next : Epoch} {isEvent : Bool} (hs : TimedState c p s)
    (hclosed : s.sys.executingEpoch = false) (hproposals : s.sys.eventQueue.pushProposals = [])
    (hnext : nextEpoch s.sys = some (next, isEvent)) (hlt : s.sys.epoch < next) :
    TimedState c p { s with sys := { s.sys with epoch := next } } := by
  refine ⟨⟨hs.queue.delivers, hs.queue.bound, fun hlive => ?_⟩,
    hs.system.timely.advance hclosed hproposals hnext, fun hexec => ?_, hs.system.kept⟩
  · exact (hs.queue.notified hlive).later (le_of_lt hlt)
  · cases hclosed.symm.trans hexec

/-- No outcome of choosing the next epoch blames a notification. -/
theorem Selected.not_refused {s t : SimSystem} {o : Option Unit} (h : Selected c s o t)
    (hs : s.result.diagnostic ≠ some .invalidEventNotification) :
    t.result.diagnostic ≠ some .invalidEventNotification := by
  cases h with
  | advance => exact hs
  | exhausted _ h =>
    cases h with
    | classified _ h =>
      cases h with
      | completed => exact hs
      | noProgress | overflow | maxTicks | deadline => exact nofun
    | traceOwners | traceCap => exact nofun
  | nonMonotonic | overflow | deadline | maxTicks => exact nofun

/-- The states of runs with arbitrary agents and an arbitrary host, in which the queue `p` is
constructed under its ID and bound to the system. -/
def TimedRun (c : Config) (agents : TimedAgents A α) (p : Ptr) (s : State (TimedWorld A α)) :
    Prop :=
  Runs (timedModel c agents) (timedHost fun w => Bound c p w) (fun _ => True) s

theorem TimedRun.invariant (hp : Placed c p) (h : TimedRun c agents p s) :
    (s.sys.terminated = true → TimedEnd c p s) ∧
      (s.sys.terminated = false → TimedState c p s ∧ AtBoundary s.sys) := by
  refine Runs.invariant (I := TimedState c p) (J := TimedEnd c p) ?_ ?_ ?_ ?_ ?_ ?_ ?_ ?_ h
  · intro w hw
    refine ⟨⟨.fresh (hw.1 p), hw.2, fun _ => ⟨.fresh (hw.1 p), nofun, nofun, nofun⟩⟩,
      .fresh _ w, nofun, nofun⟩
  · exact fun s t ht hs => hs.trans ht hp
  · rintro s _ ⟨epoch, prog, rfl⟩ hboundary hs
    refine ⟨hs.queue.compile _ fun _ => ⟨?_, fun hreg => ?_⟩, ?_⟩
    · simp [poster, hboundary.closed]
    · cases hboundary.closed.symm.trans hreg.executing
    · exact Exit.preserves_of_path (fun _ _ h hs => hs.move h)
        (moves_of_calls (Body.exec_calls c _ s.sys)) hs.system
  · rintro s _ ⟨epoch, prog, rfl⟩ hterm hs
    have hlate : TimedInv c p s := by
      refine ⟨hs.delivers, hs.bound, fun hlive => ?_⟩
      cases hterm.symm.trans hlive
    have hout : s.sys.terminated = false → Outside (c.info p).id epoch s.sys := by
      intro hlive
      cases hterm.symm.trans hlive
    have hend := hlate.compile (prog s.world.agents) hout
    refine ⟨hend.delivers, hend.bound, ?_⟩
    have hsys : (hostCall (timedModel c agents) (fun w => (prog w.agents).compile epoch w) s).sys =
        s.sys := eq_of_calls_of_terminated (c := c) (Body.exec_calls _ _ _) hterm
    rw [hsys]
    exact hs.refused
  · exact fun s hs _ _ => hs.ended hs.system.kept rfl
  · exact fun _ r t _ _ _ _ hr ht => hr.halt hp ht
  · exact fun _ r _ _ _ _ hr _ _ _ => hr.ended nofun rfl
  · intro _ r o t _ _ _ _ hr hdrained hsel
    obtain ⟨hworld, q, hq, hout⟩ := selectNext_selected hsel
    have hclosed := hr.close hp hdrained hq
    refine ⟨?_, fun _ => hclosed.ended (hout.not_refused hclosed.system.kept) hworld⟩
    rintro rfl
    obtain ⟨next, isEvent, hnext, hlt, _, _, ht⟩ := hout.advance_inv
    have hproposals := hq.noProposals hdrained
    have hstate := hclosed.advance (hq.atBoundary hdrained).closed hproposals hnext hlt
    obtain ⟨tsys, tworld⟩ := t
    cases ht
    cases hworld
    exact hstate

/-- What a run keeps of a timed event queue: the promises over its past, every waiting
notification that the queue has posted tells of an entry that is committed with the same ready
epoch and not received, and a run that ends with a failed notification was delivering an event
that the queue has not posted. -/
structure TimedDelivery (c : Config) (p : Ptr) (s : State (TimedWorld A α)) : Prop where
  queue : (s.world.queues p).Delivers
  announced : s.sys.terminated = false → ∀ e ∈ s.sys.waiting,
    (some (c.info p).id, e) ∈ s.sys.trail.posts → (s.world.queues p).Announces e
  delivered : s.sys.result.diagnostic = some .invalidEventNotification →
    ∀ e, s.sys.trail.inFlight = some e → (some (c.info p).id, e) ∉ s.sys.trail.posts

/-- **Timed delivery.**  In every run, with any other objects, any host and any use of the
queue by `trySchedule` and `tryRecv`, a timed event queue under the system keeps its promises
and its notifications never fail. -/
theorem timed_delivery (hp : Placed c p) (h : TimedRun c agents p s) : TimedDelivery c p s := by
  obtain ⟨hended, hlive⟩ := h.invariant hp
  cases hterm : s.sys.terminated with
  | true =>
    have hs := hended hterm
    refine ⟨hs.delivers, fun h => ?_, hs.refused⟩
    cases hterm.symm.trans h
  | false =>
    obtain ⟨hs, _⟩ := hlive hterm
    exact ⟨hs.queue.delivers, fun _ => (hs.queue.notified hterm).announced,
      fun h => absurd h hs.system.kept⟩

end run

/-- A queue and a process that schedules two values at its first Work and receives one at every
later Work; the queue activates the process. -/
def timerAgents : TimedAgents Bool ℕ where
  doWork p _ started :=
    if p ≠ 1 then .done started
    else if started then .tryRecv 0 fun _ => .done true
    else .trySchedule 0 7 2 fun _ => .trySchedule 0 8 0 fun _ => .done true

def timerConfig : Config :=
  { Config.ofKinds [.eventQueue, .process] with activation := ⟨[0, 1, 1], [1]⟩ }

def timerWorld : TimedWorld Bool ℕ where
  queues p := { id := p, capacity := 2, system := some 0 }
  agents := false

def timerEnd : State (TimedWorld Bool ℕ) :=
  let m := timedModel timerConfig timerAgents
  (step m (step m (step m (startRun m (State.fresh m timerWorld))).2).2).2

theorem timerEnd_run : TimedRun timerConfig timerAgents 0 timerEnd := by
  have hbound : Bound timerConfig 0 timerWorld := ⟨rfl, rfl⟩
  exact .step (.step (.step (.start (.fresh timerWorld ⟨fun _ => rfl, hbound⟩) rfl) trivial) trivial)
    trivial

theorem timer_placed : Placed timerConfig 0 := by
  refine ⟨rfl, rfl, fun id hid => ?_⟩
  have hid : (Config.ofKinds [.eventQueue, .process]).lookup id = some 0 := hid
  exact Config.eq_of_lookup_ofKinds hid

theorem timed_delivery_timer : TimedDelivery timerConfig 0 timerEnd ∧
    (timerEnd.world.queues 0).past.received.map (fun r => (r.entry.value, r.epoch)) =
      [(8, ⟨0, 1⟩), (7, ⟨2, 0⟩)] :=
  ⟨timed_delivery timer_placed timerEnd_run, by decide +kernel⟩

end AgenticCircuit.Gfsim
