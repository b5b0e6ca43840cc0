import AgenticCircuit.Gfsim.Monotone

/-! # Event delivery

Every event accepted by `scheduleEvent` is delivered at most once, in the order of ready epoch and
acceptance sequence, and in the step whose epoch is its ready epoch.

* **The line.**  `SimSystem.line` is the list of the delivered events, the event in delivery and the
  committed events.  Its keys increase strictly, and a delivery only moves the mark between its
  parts.
* **Proposals** carry larger sequence numbers than everything in the line and lie at or after the
  current epoch, so that a commit inserts them behind what has been delivered.
* **The trace-end cap.**  At the last tick before the cap `step` returns from its trace-end branch
  before it delivers the events that are due in that tick (`CutShort`). -/

namespace AgenticCircuit.Gfsim

open List SimSystem Event Or

/-! ### The line of events -/

def Occurrence.acceptedEvent : Occurrence → Option Event
  | .accepted event => some event
  | _ => none

def Occurrence.deliveredEvent : Occurrence → Option Event
  | .delivered event _ => some event
  | _ => none

namespace SimSystem

/-- The accepted events in the order of acceptance. -/
def accepted (s : SimSystem) : List Event := s.trail.history.filterMap Occurrence.acceptedEvent

/-- The delivered events in the order of delivery. -/
def delivered (s : SimSystem) : List Event := s.trail.history.filterMap Occurrence.deliveredEvent

/-- Everything accepted but the proposals: delivered, in delivery, committed. -/
def line (s : SimSystem) : List Event :=
  s.delivered ++ (s.trail.inFlight.toList ++ s.eventQueue.committed)

end SimSystem

variable {s t : SimSystem} {e : Event} {c : Config}

theorem mem_accepted : e ∈ s.accepted ↔ .accepted e ∈ s.trail.history := by
  simp only [accepted, mem_filterMap]
  constructor
  · rintro ⟨o, ho, h⟩
    cases o <;> cases h
    exact ho
  · exact fun h => ⟨_, h, rfl⟩

theorem mem_delivered : e ∈ s.delivered ↔ ∃ epoch, .delivered e epoch ∈ s.trail.history := by
  simp only [delivered, mem_filterMap]
  constructor
  · rintro ⟨o, ho, h⟩
    cases o <;> cases h
    exact ⟨_, ho⟩
  · rintro ⟨epoch, h⟩
    exact ⟨_, h, rfl⟩

/-- A move that does not concern events. -/
structure EventFrame (s t : SimSystem) : Prop where
  epoch : t.epoch = s.epoch
  accepted : t.accepted = s.accepted
  delivered : ∀ e epoch, .delivered e epoch ∈ t.trail.history ↔
    .delivered e epoch ∈ s.trail.history
  deliveredEvents : t.delivered = s.delivered
  inFlight : t.trail.inFlight = s.trail.inFlight
  eventQueue : t.eventQueue = s.eventQueue
  nextEventSequence : s.nextEventSequence ≤ t.nextEventSequence
  committedEventCount : t.committedEventCount = s.committedEventCount

/-- Appending any other occurrence to the history changes neither list of events. -/
theorem eventFrame_of_history (os : List Occurrence)
    (hhistory : t.trail.history = s.trail.history ++ os)
    (hos : ∀ o ∈ os, o.acceptedEvent = none ∧ o.deliveredEvent = none) (hepoch : t.epoch = s.epoch)
    (hflight : t.trail.inFlight = s.trail.inFlight) (hqueue : t.eventQueue = s.eventQueue)
    (hnext : s.nextEventSequence ≤ t.nextEventSequence)
    (hcount : t.committedEventCount = s.committedEventCount) : EventFrame s t := by
  have haccepted : os.filterMap Occurrence.acceptedEvent = [] :=
    filterMap_eq_nil_iff.mpr fun o ho => (hos o ho).1
  have hdelivered : os.filterMap Occurrence.deliveredEvent = [] :=
    filterMap_eq_nil_iff.mpr fun o ho => (hos o ho).2
  refine ⟨hepoch, ?_, fun e epoch => ?_, ?_, hflight, hqueue, hnext, hcount⟩
  · rw [accepted, hhistory, filterMap_append, haccepted, append_nil]
    rfl
  · rw [hhistory, mem_append]
    refine or_iff_left fun ho => ?_
    cases (hos _ ho).2
  · rw [delivered, hhistory, filterMap_append, hdelivered, append_nil]
    rfl

/-- The moves that concern events: acceptance, delivery in two parts, and the commit. -/
theorem Move.event_cases (h : Move c s t) : EventFrame s t ∨
    (∃ event, s.epoch ≤ event.readyTime ∧ event.sequence = s.nextEventSequence ∧
      t = s.acceptEvent event) ∨
    (∃ event rest, s.eventQueue.committed = event :: rest ∧ event.readyTime = s.epoch ∧
      s.committedEventCount < c.maxEvents ∧ s.trail.inFlight = none ∧ t = s.takeEvent event) ∨
    (∃ event, s.trail.inFlight = some event ∧ t = s.countEvent event) ∨
    t = s.commitEvents := by
  have hframe (os : List Occurrence) (hhistory : t.trail.history = s.trail.history ++ os)
      (hos : ∀ o ∈ os, o.acceptedEvent = none ∧ o.deliveredEvent = none)
      (hflight : t.trail.inFlight = s.trail.inFlight) (hqueue : t.eventQueue = s.eventQueue)
      (hnext : s.nextEventSequence ≤ t.nextEventSequence)
      (hcount : t.committedEventCount = s.committedEventCount) : EventFrame s t :=
    eventFrame_of_history os hhistory hos h.epoch_eq hflight hqueue hnext hcount
  cases h with
  | call h =>
    cases h with
    | schedule =>
      exact inl (hframe [_] rfl (by simp [Occurrence.acceptedEvent,
        Occurrence.deliveredEvent]) rfl rfl le_rfl rfl)
    | accept live hle _ _ hsequence => exact inr (inl ⟨_, hle, hsequence, rfl⟩)
    | skipSequence =>
      exact inl (hframe [] (append_nil _).symm nofun rfl rfl (Nat.le_succ _) rfl)
    | register | observe | fail =>
      exact inl (hframe [] (append_nil _).symm nofun rfl rfl le_rfl rfl)
  | take live hcommitted hready hcap hfree =>
    exact inr (inr (inl ⟨_, _, hcommitted, hready, hcap, hfree, rfl⟩))
  | count live hflight => exact inr (inr (inr (inl ⟨_, hflight, rfl⟩)))
  | commitEvents => exact inr (inr (inr (inr rfl)))
  | startWork | markXfer | publish | asked =>
    exact inl (hframe [_] rfl (by simp [Occurrence.acceptedEvent,
      Occurrence.deliveredEvent]) rfl rfl le_rfl rfl)
  | note | mark | openEpoch | gather | close =>
    exact inl (hframe [] (append_nil _).symm nofun rfl rfl le_rfl rfl)

/-! ### The account -/

/-- Every accepted event has exactly one place, and the places are in order. -/
structure Accounted (c : Config) (s : SimSystem) : Prop where
  perm : s.accepted.Perm (s.line ++ s.eventQueue.pushProposals)
  sequences : s.accepted.Pairwise (fun a b => a.sequence < b.sequence)
  bounded : ∀ e ∈ s.accepted, e.sequence < s.nextEventSequence
  line_lt : s.line.Pairwise (fun a b => a.key < b.key)
  past : ∀ e ∈ s.delivered ++ s.trail.inFlight.toList, e.readyTime ≤ s.epoch
  proposed : ∀ d ∈ s.line, ∀ e ∈ s.eventQueue.pushProposals, d.sequence < e.sequence
  due : ∀ e, s.trail.inFlight = some e →
    e.readyTime = s.epoch ∧ s.committedEventCount < c.maxEvents
  punctual : ∀ e epoch, .delivered e epoch ∈ s.trail.history → epoch = e.readyTime
  count : s.committedEventCount = s.delivered.length
  cap : s.committedEventCount ≤ c.maxEvents

theorem key_lt_of_sorted {l : List Event} (h : Sorted key l)
    (hl : (l.map sequence).Nodup) : l.Pairwise (fun a b => a.key < b.key) := by
  have hne : l.Pairwise (fun a b => a.sequence ≠ b.sequence) := pairwise_map.mp hl
  refine (h.and hne).imp ?_
  rintro a b ⟨hle, hne⟩
  rcases key_le.mp hle with hlt | ⟨heq, hle⟩
  · exact key_lt.mpr (inl hlt)
  · exact key_lt.mpr (inr ⟨heq, lt_of_le_of_ne hle hne⟩)

namespace Accounted

variable {c : Config} {s t : SimSystem}

theorem fresh {W : Type} (m : Model W) (w : W) : Accounted m.config (State.fresh m w).sys :=
  ⟨.refl _, .nil, nofun, .nil, nofun, nofun, nofun, nofun, rfl, Nat.zero_le _⟩

theorem nodup_sequences (hs : Accounted c s) :
    ((s.line ++ s.eventQueue.pushProposals).map sequence).Nodup := by
  have h : (s.accepted.map sequence).Nodup :=
    pairwise_map.mpr (hs.sequences.imp fun h => Nat.ne_of_lt h)
  exact (hs.perm.map _).nodup_iff.mp h

theorem frame (hs : Accounted c s) (h : EventFrame s t) : Accounted c t := by
  have hline : t.line = s.line := by
    unfold line
    rw [h.deliveredEvents, h.inFlight, h.eventQueue]
  refine ⟨?_, ?_, fun e he => ?_, ?_, ?_, ?_, ?_, fun e epoch ho => ?_, ?_, ?_⟩
  · rw [h.accepted, hline, h.eventQueue]
    exact hs.perm
  · rw [h.accepted]
    exact hs.sequences
  · rw [h.accepted] at he
    exact lt_of_lt_of_le (hs.bounded e he) h.nextEventSequence
  · rw [hline]
    exact hs.line_lt
  · rw [h.deliveredEvents, h.inFlight, h.epoch]
    exact hs.past
  · rw [hline, h.eventQueue]
    exact hs.proposed
  · rw [h.inFlight, h.epoch, h.committedEventCount]
    exact hs.due
  · exact hs.punctual e epoch ((h.delivered e epoch).mp ho)
  · rw [h.committedEventCount, h.deliveredEvents]
    exact hs.count
  · rw [h.committedEventCount]
    exact hs.cap

theorem accepted_acceptEvent (s : SimSystem) (event : Event) :
    (s.acceptEvent event).accepted = s.accepted ++ [event] := by
  simp [accepted, acceptEvent, record, Occurrence.acceptedEvent]

theorem delivered_acceptEvent (s : SimSystem) (event : Event) :
    (s.acceptEvent event).delivered = s.delivered := by
  simp [delivered, acceptEvent, record, Occurrence.deliveredEvent]

variable {event : Event}

theorem acceptEvent (hs : Accounted c s) (hsequence : event.sequence = s.nextEventSequence) :
    Accounted c (s.acceptEvent event) := by
  have hline : (s.acceptEvent event).line = s.line := by
    rw [line, delivered_acceptEvent]
    rfl
  have hmem : ∀ d ∈ s.line, d ∈ s.accepted := fun d hd =>
    hs.perm.mem_iff.mpr (mem_append_left _ hd)
  refine ⟨?_, ?_, ?_, hline ▸ hs.line_lt, ?_, ?_, hs.due, ?_, ?_, hs.cap⟩
  · rw [accepted_acceptEvent, hline]
    have hinsert := insertKey_perm key event s.eventQueue.pushProposals
    calc
      (s.accepted ++ [event]).Perm (event :: s.accepted) := perm_append_singleton _ _
      _ |>.Perm (event :: (s.line ++ s.eventQueue.pushProposals)) := hs.perm.cons _
      _ |>.Perm (s.line ++ (event :: s.eventQueue.pushProposals)) := perm_middle.symm
      _ |>.Perm (s.line ++ _) := hinsert.symm.append_left _
  · rw [accepted_acceptEvent]
    refine pairwise_append.mpr ⟨hs.sequences, pairwise_singleton _ _, ?_⟩
    intro a ha b hb
    rw [mem_singleton.mp hb, hsequence]
    exact hs.bounded a ha
  · intro e he
    rw [accepted_acceptEvent, mem_append, mem_singleton] at he
    change e.sequence < s.nextEventSequence + 1
    rcases he with he | rfl
    · have := hs.bounded e he
      omega
    · omega
  · rw [delivered_acceptEvent]
    exact hs.past
  · rw [hline]
    intro d hd e he
    rcases (mem_insertKey _).mp he with rfl | he
    · rw [hsequence]
      exact hs.bounded d (hmem d hd)
    · exact hs.proposed d hd e he
  · intro e epoch ho
    rcases mem_append.mp ho with ho | ho
    · exact hs.punctual e epoch ho
    · cases mem_singleton.mp ho
  · rw [delivered_acceptEvent]
    exact hs.count

theorem takeEvent (hs : Accounted c s) {rest : List Event}
    (hcommitted : s.eventQueue.committed = event :: rest) (hready : event.readyTime = s.epoch)
    (hcap : s.committedEventCount < c.maxEvents) (hfree : s.trail.inFlight = none) :
    Accounted c (s.takeEvent event) := by
  have hline : (s.takeEvent event).line = s.line := by
    change s.delivered ++ ([event] ++ s.eventQueue.committed.tail) = _
    rw [line, hfree, hcommitted]
    rfl
  refine ⟨?_, hs.sequences, hs.bounded, hline ▸ hs.line_lt, ?_, hline ▸ hs.proposed, ?_,
    hs.punctual, hs.count, hs.cap⟩
  · rw [hline]
    exact hs.perm
  · intro e he
    rcases mem_append.mp he with he | he
    · exact hs.past e (mem_append_left _ he)
    · rw [mem_singleton.mp he, hready]
      exact le_rfl
  · rintro e ⟨⟩
    exact ⟨hready, hcap⟩

theorem accepted_countEvent (s : SimSystem) (event : Event) :
    (s.countEvent event).accepted = s.accepted := by
  simp [accepted, SimSystem.countEvent, Occurrence.acceptedEvent]

theorem delivered_countEvent (s : SimSystem) (event : Event) :
    (s.countEvent event).delivered = s.delivered ++ [event] := by
  simp [delivered, SimSystem.countEvent, Occurrence.deliveredEvent]

theorem countEvent (hs : Accounted c s) (hflight : s.trail.inFlight = some event) :
    Accounted c (s.countEvent event) := by
  obtain ⟨hready, hcap⟩ := hs.due event hflight
  have hline : (s.countEvent event).line = s.line := by
    rw [line, delivered_countEvent, line, hflight]
    simp [SimSystem.countEvent]
  refine ⟨?_, ?_, ?_, hline ▸ hs.line_lt, ?_, hline ▸ hs.proposed, nofun, ?_, ?_, hcap⟩
  · rw [accepted_countEvent, hline]
    exact hs.perm
  · rw [accepted_countEvent]
    exact hs.sequences
  · rw [accepted_countEvent]
    exact hs.bounded
  · rw [delivered_countEvent]
    intro e he
    refine hs.past e ?_
    rw [hflight]
    simpa [SimSystem.countEvent] using he
  · intro e epoch ho
    rcases mem_append.mp ho with ho | ho
    · exact hs.punctual e epoch ho
    · cases mem_singleton.mp ho
      exact hready.symm
  · rw [delivered_countEvent, length_append, ← hs.count]
    rfl

theorem commitEvents_frame (s : SimSystem) : s.commitEvents.accepted = s.accepted ∧
    s.commitEvents.delivered = s.delivered ∧
    (∀ e epoch, .delivered e epoch ∈ s.commitEvents.trail.history ↔
      .delivered e epoch ∈ s.trail.history) ∧
    s.commitEvents.trail.inFlight = s.trail.inFlight ∧
    s.commitEvents.eventQueue = s.eventQueue.doXfer ∧ s.commitEvents.epoch = s.epoch ∧
    s.commitEvents.nextEventSequence = s.nextEventSequence ∧
    s.commitEvents.committedEventCount = s.committedEventCount := by
  unfold commitEvents
  split
  · simp [accepted, delivered, record, Occurrence.acceptedEvent,
      Occurrence.deliveredEvent]
  · exact ⟨rfl, rfl, fun _ _ => Iff.rfl, rfl, rfl, rfl, rfl, rfl⟩

theorem line_lt_doXfer (hs : Accounted c s) (htimely : Timely s) :
    (s.delivered ++ (s.trail.inFlight.toList ++ s.eventQueue.doXfer.committed)).Pairwise
      (fun a b => a.key < b.key) := by
  have hnodup := hs.nodup_sequences
  have hline := hs.line_lt
  rw [line, ← append_assoc] at hline hnodup
  obtain ⟨hfront, _, hcross⟩ := pairwise_append.mp hline
  rw [← append_assoc]
  refine pairwise_append.mpr ⟨hfront, ?_, fun d hd e he => ?_⟩
  · refine key_lt_of_sorted (htimely.sortedEvents.insertAll _ _) ?_
    rw [append_assoc, map_append] at hnodup
    exact ((insertAll_perm _ _ _).map _).nodup_iff.mpr (nodup_append.mp hnodup).2.1
  · rcases (mem_insertAll _).mp he with he | he
    · exact hcross d hd e he
    · have hsequence : d.sequence < e.sequence := by
        refine hs.proposed d ?_ e he
        rw [line, ← append_assoc]
        exact mem_append_left _ hd
      have hready : d.readyTime ≤ e.readyTime := le_trans (hs.past d hd) (htimely.proposed_le e he)
      rcases lt_or_eq_of_le hready with hlt | heq
      · exact key_lt.mpr (inl hlt)
      · exact key_lt.mpr (inr ⟨heq, hsequence⟩)

theorem commitEvents (hs : Accounted c s) (htimely : Timely s) : Accounted c s.commitEvents := by
  obtain ⟨haccepted, hdelivered, hhistory, hflight, hqueue, hepoch, hnext, hcount⟩ :=
    commitEvents_frame s
  have hxfer : s.eventQueue.doXfer.committed.Perm
      (s.eventQueue.committed ++ s.eventQueue.pushProposals) := insertAll_perm _ _ _
  have hplaces : (s.commitEvents.line).Perm (s.line ++ s.eventQueue.pushProposals) := by
    rw [line, hdelivered, hflight, hqueue, line]
    simp only [append_assoc]
    exact (hxfer.append_left _).append_left _
  refine ⟨?_, ?_, ?_, ?_, ?_, ?_, ?_, ?_, ?_, ?_⟩
  · rw [haccepted, hqueue]
    change s.accepted.Perm (s.commitEvents.line ++ [])
    rw [append_nil]
    exact hs.perm.trans hplaces.symm
  · rw [haccepted]
    exact hs.sequences
  · rw [haccepted, hnext]
    exact hs.bounded
  · rw [line, hdelivered, hflight, hqueue]
    exact hs.line_lt_doXfer htimely
  · rw [hdelivered, hflight, hepoch]
    exact hs.past
  · rw [hqueue]
    exact nofun
  · rw [hflight, hepoch, hcount]
    exact hs.due
  · exact fun e epoch ho => hs.punctual e epoch ((hhistory e epoch).mp ho)
  · rw [hcount, hdelivered]
    exact hs.count
  · rw [hcount]
    exact hs.cap

theorem move (h : Move c s t) (hs : Accounted c s) (htimely : Timely s) : Accounted c t := by
  rcases h.event_cases with hframe | ⟨event, _, hsequence, rfl⟩ |
    ⟨event, rest, hcommitted, hready, hcap, hfree, rfl⟩ | ⟨event, hflight, rfl⟩ | rfl
  · exact hs.frame hframe
  · exact hs.acceptEvent hsequence
  · exact hs.takeEvent hcommitted hready hcap hfree
  · exact hs.countEvent hflight
  · exact hs.commitEvents htimely

theorem advance (hs : Accounted c s) (hfree : s.trail.inFlight = none) {next : Epoch}
    (hlt : s.epoch < next) : Accounted c { s with epoch := next } := by
  refine ⟨hs.perm, hs.sequences, hs.bounded, hs.line_lt, fun e he => ?_, hs.proposed, fun e he => ?_,
    hs.punctual, hs.count, hs.cap⟩
  · exact le_of_lt (lt_of_le_of_lt (hs.past e he) hlt)
  · cases hfree.symm.trans he

end Accounted

/-! ### Exactly once, in order -/

/-- Deliveries are in strictly increasing order of ready epoch and acceptance sequence, each at
its ready epoch and of an accepted event; nothing accepted and undelivered lies before the
current epoch; the count is that of the deliveries and within the cap. -/
structure ExactlyOnce (c : Config) (s : SimSystem) : Prop where
  ordered : s.delivered.Pairwise (fun a b => a.readyTime < b.readyTime ∨
    (a.readyTime = b.readyTime ∧ a.sequence < b.sequence))
  once : s.delivered.Nodup ∧ (s.accepted.map sequence).Nodup
  punctual : ∀ e epoch, .delivered e epoch ∈ s.trail.history →
    epoch = e.readyTime ∧ e ∈ s.accepted
  notPassed : ∀ e ∈ s.accepted, e ∉ s.delivered → s.epoch ≤ e.readyTime
  count : s.committedEventCount = s.delivered.length
  cap : s.committedEventCount ≤ c.maxEvents

/-- An account with nothing in delivery gives the property at every epoch that no pending
event lies before. -/
theorem Accounted.exactlyOnce {s t : SimSystem} (hs : Accounted c s)
    (hfree : s.trail.inFlight = none) (htrail : t.trail = s.trail)
    (hcount : t.committedEventCount = s.committedEventCount)
    (hcommitted : ∀ e ∈ s.eventQueue.committed, t.epoch ≤ e.readyTime)
    (hproposed : ∀ e ∈ s.eventQueue.pushProposals, t.epoch ≤ e.readyTime) : ExactlyOnce c t := by
  have haccepted : t.accepted = s.accepted := by rw [accepted, htrail]; rfl
  have hdelivered : t.delivered = s.delivered := by rw [delivered, htrail]; rfl
  have hordered : s.delivered.Pairwise (fun a b => a.key < b.key) :=
    (pairwise_append.mp hs.line_lt).1
  have hmem {e : Event} (he : e ∈ s.delivered) : e ∈ s.accepted :=
    hs.perm.mem_iff.mpr (mem_append_left _ (mem_append_left _ he))
  constructor
  · rw [hdelivered]
    exact hordered.imp fun h => key_lt.mp h
  · rw [hdelivered, haccepted]
    refine ⟨hordered.imp ?_, pairwise_map.mpr (hs.sequences.imp fun h => Nat.ne_of_lt h)⟩
    intro a b hlt heq
    rw [heq] at hlt
    exact lt_irrefl _ hlt
  · rw [htrail, haccepted]
    exact fun e epoch ho => ⟨hs.punctual e epoch ho, hmem (mem_delivered.mpr ⟨epoch, ho⟩)⟩
  · rw [haccepted, hdelivered]
    intro e he hnot
    have hplace := hs.perm.mem_iff.mp he
    rw [line, hfree] at hplace
    simp only [Option.toList_none, nil_append, mem_append] at hplace
    rcases hplace with (h | h) | h
    · exact absurd h hnot
    · exact hcommitted e h
    · exact hproposed e h
  · rw [hcount, hdelivered]
    exact hs.count
  · rw [hcount]
    exact hs.cap

/-! ### Runs -/

section run

variable {W : Type} {m : Model W}

/-- The step from `s` would return from the trace-end cap while an event due before the cap is
still waiting. -/
def CutShort (m : Model W) (s : State W) : Prop :=
  ∃ r, commitEpoch m s = (some (), r) ∧ r.sys.traceEndProcesses ≠ [] ∧
    m.config.maxTicks ≤ r.sys.epoch.time + 1 ∧
    ∃ e ∈ r.sys.eventQueue.committed, e.readyTime < ⟨m.config.maxTicks, 0⟩

/-- A system that terminated through a call has failed. -/
def FailedIfTerminated (s : SimSystem) : Prop :=
  s.terminated = true → s.result.classification = .failed

variable {c : Config} {s t : SimSystem}

theorem FailedIfTerminated.move (h : Move c s t) (hs : FailedIfTerminated s) :
    FailedIfTerminated t := by
  rcases h.result_cases with ⟨_, hclass, _, hterm⟩ | ⟨d, _, rfl⟩
  · unfold FailedIfTerminated
    rw [hclass, hterm]
    exact hs
  · exact fun _ => rfl

theorem Accounted.halt (hs : Accounted c s) (htimely : Timely s) (hfailed : FailedIfTerminated s)
    (h : Halt c s t) (hclass : t.result.classification ≠ .failed) : ExactlyOnce c t := by
  cases h with
  | returned owner hterm => exact absurd (hfailed hterm) hclass
  | returnedXfer committed hterm =>
    refine absurd (hfailed hterm) ?_
    cases committed with
    | false => exact hclass
    | true => exact hclass
  | failed | stale => exact absurd rfl hclass
  | capped live hfree hd | maxTicks live hfree htime =>
    exact hs.exactlyOnce hfree rfl rfl htimely.committed_le htimely.proposed_le

/-- An end of the run that lies at or before everything pending. -/
theorem Accounted.exactlyOnce_at (hs : Accounted c s) (hfree : s.trail.inFlight = none)
    (htrail : t.trail = s.trail) (hcount : t.committedEventCount = s.committedEventCount)
    (hproposals : s.eventQueue.pushProposals = [])
    (hcommitted : ∀ e ∈ s.eventQueue.committed, t.epoch ≤ e.readyTime) : ExactlyOnce c t := by
  refine hs.exactlyOnce hfree htrail hcount hcommitted ?_
  rw [hproposals]
  exact nofun

/-- The end of a run by the choice of the next epoch. -/
theorem Accounted.selected (hs : Accounted c s) (htimely : Timely s)
    (hfree : s.trail.inFlight = none) (hproposals : s.eventQueue.pushProposals = [])
    (h : Selected c s none t) (hclass : t.result.classification ≠ .failed) : ExactlyOnce c t := by
  cases h with
  | nonMonotonic | overflow | deadline => exact absurd rfl hclass
  | maxTicks hnext hlt hwindow htime =>
    refine hs.exactlyOnce_at hfree rfl rfl hproposals fun e he => ?_
    have hle := (nextEpoch_spec htimely hnext).2.2.2 e he
    have hcap : (⟨c.maxTicks, 0⟩ : Epoch) ≤ _ := le_trans (Epoch.le_def.mpr ?_) hle
    · exact hcap
    · change c.maxTicks < _ ∨ c.maxTicks = _ ∧ 0 ≤ _
      omega
  | exhausted hnone hend =>
    have hempty := (nextEpoch_eq_none hnone).2
    have hpast (u : SimSystem) : ∀ e ∈ s.eventQueue.committed, u.epoch ≤ e.readyTime := by
      rw [hempty]
      exact nofun
    cases hend with
    | traceOwners => exact absurd rfl hclass
    | traceCap => exact hs.exactlyOnce_at hfree rfl rfl hproposals (hpast _)
    | classified _ hend =>
      cases hend with
      | noProgress | overflow | deadline => exact absurd rfl hclass
      | completed | maxTicks => exact hs.exactlyOnce_at hfree rfl rfl hproposals (hpast _)

/-- What every move keeps. -/
def EventInv (c : Config) (s : SimSystem) : Prop :=
  Timely s ∧ Accounted c s ∧ FailedIfTerminated s

theorem reaches_accounted {s : State W} (h : Reaches m (fun s => ¬ CutShort m s) s) :
    (s.sys.terminated = true → s.sys.result.classification ≠ .failed → ExactlyOnce m.config s.sys) ∧
    (s.sys.terminated = false → EventInv m.config s.sys ∧ AtBoundary s.sys) := by
  refine Runs.sys_invariant (I := EventInv m.config)
    (J := fun s => s.result.classification ≠ .failed → ExactlyOnce m.config s) ?_ ?_ ?_ ?_ ?_ h
  · exact fun w => ⟨.fresh m w, .fresh m w, nofun⟩
  · exact fun s t hst hs => ⟨hs.1.move hst, hs.2.1.move hst hs.1, hs.2.2.move hst⟩
  · exact fun s t hs hst => hs.2.1.halt hs.1 hs.2.2 hst
  · intro s r hok _ _ hcommit hr hafter hmarked hcap _
    refine hr.2.1.exactlyOnce_at hafter.1.free rfl rfl hafter.2 fun e he => ?_
    by_contra hlt
    exact hok ⟨r, hcommit, hmarked, hcap, e, he, not_le.mp hlt⟩
  · intro s r _ _ _ _ hr hdrained q o t hq hI hsel
    have hboundary := hq.atBoundary hdrained
    have hproposals := hq.noProposals hdrained
    refine ⟨?_, ?_⟩
    · rintro rfl
      obtain ⟨next, isEvent, hnext, hlt, _, _, rfl⟩ := hsel.advance_inv
      exact ⟨hI.1.advance hboundary.closed hproposals hnext, hI.2.1.advance hboundary.free hlt, hI.2.2⟩
    · rintro rfl
      exact hI.2.1.selected hI.1 hboundary.free hproposals hsel

/-- **Exactly-once, in-order delivery.**  In every run none of whose steps returns from the
trace-end cap over a waiting event, and which has not failed, the deliveries are in strictly
increasing order, each at its ready epoch, no undelivered event has been passed, and the count
is that of the deliveries and within the cap. -/
theorem delivery_exactly_once {s : State W} (h : Reaches m (fun s => ¬ CutShort m s) s)
    (hclass : s.sys.result.classification ≠ .failed) : ExactlyOnce m.config s.sys := by
  have hs := reaches_accounted h
  cases hterm : s.sys.terminated with
  | true => exact hs.1 hterm hclass
  | false =>
    obtain ⟨⟨htimely, haccount, _⟩, hboundary⟩ := hs.2 hterm
    exact haccount.exactlyOnce hboundary.free rfl rfl htimely.committed_le htimely.proposed_le

end run

/-- A process that sets itself an alarm two ticks after the start. -/
def alarmModel : Model Unit where
  config := .ofKinds [.process]
  hooks := { doWork := fun _ e w =>
    if e = ⟨0, 0⟩ then .scheduleEvent { readyTime := ⟨2, 0⟩, targetId := 0 } fun _ => .done w
    else .done w }

def alarmStart : State Unit := startRun alarmModel (State.fresh alarmModel ())

theorem delivery_exactly_once_alarm :
    ExactlyOnce alarmModel.config (runSteps alarmModel 2 alarmStart).sys ∧
    (runSteps alarmModel 2 alarmStart).sys.delivered =
      [{ readyTime := ⟨2, 0⟩, targetId := 0 }] ∧
    (runSteps alarmModel 2 alarmStart).sys.result.classification = .completed := by
  have hnot (s : State Unit) (h : (commitEpoch alarmModel s).2.sys.traceEndProcesses = []) :
      ¬ CutShort alarmModel s := by
    rintro ⟨r, hr, hmarked, _⟩
    rw [hr] at h
    exact hmarked h
  have hstart : Reaches alarmModel (fun s => ¬ CutShort alarmModel s) alarmStart :=
    .start (.fresh () trivial) rfl
  have hone := Runs.step hstart (hnot _ (by decide))
  have htwo := Runs.step hone (hnot _ (by decide))
  exact ⟨delivery_exactly_once htwo (by decide), by decide, by decide⟩

/-- A process that notifies itself at once, and a trace source at its end, one tick before the
cap. -/
def cutModel : Model Unit where
  config := { Config.ofKinds [.process, .traceSource] with maxTicks := 1 }
  hooks :=
    { doWork := fun p e w =>
        if p = 0 then .scheduleEvent { readyTime := e, targetId := 0 } fun _ => .done w
        else .done w
      requestTraceEnd := fun p w => (p = 0, w)
      runtimeState := fun p _ _ => { traceOwner := p = 1, traceEof := true } }

def cutEnd : State Unit := (step cutModel (startRun cutModel (State.fresh cutModel ()))).2

/-- The run ends at tick 1 as incomplete, and the event of tick 0 is never delivered. -/
theorem trace_end_cap_passes_event : Reachable cutModel cutEnd ∧
    cutEnd.sys.result.classification = .incomplete ∧
    cutEnd.sys.result.finalEpoch = ⟨1, 0⟩ ∧ cutEnd.sys.delivered = [] ∧
    cutEnd.sys.accepted = [{ readyTime := ⟨0, 0⟩, targetId := 0 }] ∧
    ¬ ExactlyOnce cutModel.config cutEnd.sys := by
  refine ⟨.step (.start (.fresh () trivial) rfl) trivial, by decide, by decide, by decide, by decide, ?_⟩
  intro h
  have hpassed := h.notPassed { readyTime := ⟨0, 0⟩, targetId := 0 } (by decide) (by decide)
  revert hpassed
  decide

end AgenticCircuit.Gfsim
