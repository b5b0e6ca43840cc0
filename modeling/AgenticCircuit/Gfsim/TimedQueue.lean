import AgenticCircuit.Gfsim.Body

/-! # Timed event queues

`TimedEventQueue` of `gfsim/queue.h`: a bounded queue whose entries become receivable at a ready
epoch.  Schedules and pops are proposals; the committed entries are in the order of ready epoch
and acceptance sequence, and the pops of an epoch advance a cursor over them.  The Xfer erases
what the cursor has passed, inserts the schedules and posts one notification for each to the
system.

* **`accept`** and **`receive`** are the successful ends of `trySchedule` and `tryRecv`.
* **`Line`** is the invariant of a queue in a live system: what has been removed, followed by
  what is committed, increases strictly in key, and the values handed out are its first part.
* **`Delivers`** is what the queue promises in every state. -/

namespace AgenticCircuit.Gfsim

open List

/-! ### The queue -/

structure TimedEntry (α : Type) where
  readyTime : Epoch
  sequence : ℕ
  value : α
deriving DecidableEq

open TimedEntry

/-- `TimedEventQueue::Earlier`: ready epoch, then acceptance sequence. -/
def TimedEntry.key {α : Type} (e : TimedEntry α) : Epoch ×ₗ ℕ := toLex (e.readyTime, e.sequence)

theorem TimedEntry.key_lt {α : Type} {a b : TimedEntry α} : a.key < b.key ↔
    a.readyTime < b.readyTime ∨ (a.readyTime = b.readyTime ∧ a.sequence < b.sequence) :=
  Prod.Lex.toLex_lt_toLex

/-- A successful `trySchedule` at `epoch`, with the committed entries and pending schedules
after it. -/
structure Acceptance (α : Type) where
  entry : TimedEntry α
  epoch : Epoch
  delay : ℕ
  occupied : ℕ
deriving DecidableEq

/-- A successful `tryRecv` at `epoch`, with the committed entries it leaves behind. -/
structure Receipt (α : Type) where
  entry : TimedEntry α
  epoch : Epoch
  left : List (TimedEntry α)
deriving DecidableEq

/-- History of a timed queue.  Nothing in the queue reads it. -/
structure TimedPast (α : Type) where
  accepted : List (Acceptance α) := []
  received : List (Receipt α) := []
  /-- The entries an Xfer has erased, in order. -/
  removed : List (TimedEntry α) := []
deriving DecidableEq

structure TimedEventQueue (α : Type) where
  id : ObjectId := 0
  capacity : ℕ := 0
  /-- The bound system, by its address. -/
  system : Option ℕ := none
  committed : List (TimedEntry α) := []
  scheduleProposals : List (TimedEntry α) := []
  popProposalCount : ℕ := 0
  nextSequence : ℕ := 0
  highWatermark : ℕ := 0
  totalPushes : ℕ := 0
  totalPops : ℕ := 0
  lastUpdate : Epoch := ⟨0, 0⟩
  runtimeFailureCode : String := ""
  past : TimedPast α := {}
deriving DecidableEq

namespace TimedEventQueue

/-- `TimedEventQueue::kNotificationKind`. -/
def kNotificationKind : ℕ := 0x45565131

variable {α : Type} (q : TimedEventQueue α)

/-- A recorded failure waits for the commit that reports it. -/
def hasPendingCommit : Bool :=
  decide (q.popProposalCount ≠ 0) || !q.scheduleProposals.isEmpty || !q.runtimeFailureCode.isEmpty

def runtimeState : RuntimeObjectState :=
  let state := SimObject.runtimeState q.hasPendingCommit false
  let quiescent := q.committed.isEmpty && !q.hasPendingCommit
  { state with
    queueOccupancy := q.committed.length
    pendingOffers := q.scheduleProposals.length
    quiescent := quiescent
    reason := if quiescent then state.reason
      else if q.hasPendingCommit then "pending_commit" else "events_not_empty" }

/-- The queue is empty and has neither proposals nor a recorded failure. -/
def Finished : Prop :=
  q.committed = [] ∧ q.scheduleProposals = [] ∧ q.popProposalCount = 0 ∧ q.runtimeFailureCode = ""

theorem quiescent_iff : q.runtimeState.quiescent = true ↔ q.Finished := by
  simp [runtimeState, hasPendingCommit, Finished, and_comm, and_assoc]

/-! ### Operations -/

/-- `system_ && !system_->registerCommitParticipant(id())`: an unbound queue asks nobody. -/
def register : Body Bool :=
  if q.system.isNone then .done true else .registerCommitParticipant q.id .done

def setRuntimeFailureCode (code : String) : TimedEventQueue α :=
  { q with runtimeFailureCode := code }

/-- The failure is recorded whatever the registration answers. -/
def recordFailure (code : String) : Body (TimedEventQueue α) := do
  let _ ← q.register
  return q.setRuntimeFailureCode code

/-- The ready epoch of a value scheduled at `epoch`. -/
def readyAt (epoch : Epoch) (delay : ℕ) : Epoch :=
  ⟨epoch.time + delay, if delay = 0 then epoch.delta else 0⟩

/-- Append an accepted schedule. -/
def accept (value : α) (epoch : Epoch) (delay : ℕ) : TimedEventQueue α :=
  let entry : TimedEntry α := ⟨readyAt epoch delay, q.nextSequence, value⟩
  { q with
    scheduleProposals := q.scheduleProposals ++ [entry]
    nextSequence := q.nextSequence + 1
    past := { q.past with accepted := q.past.accepted ++
      [⟨entry, epoch, delay, q.committed.length + q.scheduleProposals.length + 1⟩] } }

def trySchedule (value : α) (epoch : Epoch) (delay : Int) : Body (TimedEventQueue α × Bool) :=
  if delay < 0 then do
    let q ← q.recordFailure "negative_event_delay"
    return (q, false)
  else if uint64Max - delay.toNat < epoch.time then do
    let q ← q.recordFailure "tick_overflow"
    return (q, false)
  -- pending pops do not release capacity in this snapshot
  else if q.capacity ≤ q.committed.length + q.scheduleProposals.length then .done (q, false)
  else if q.nextSequence = uint64Max then do
    let q ← q.recordFailure "event_sequence_overflow"
    return (q, false)
  else do
    if ← q.register then return (q.accept value epoch delay.toNat, true)
    else return (q, false)

/-- Advance the cursor over the entry it stands at. -/
def receive (entry : TimedEntry α) (epoch : Epoch) : TimedEventQueue α :=
  { q with
    popProposalCount := q.popProposalCount + 1
    past := { q.past with
      received := q.past.received ++ [⟨entry, epoch, q.committed.drop (q.popProposalCount + 1)⟩] } }

def tryRecv (epoch : Epoch) : Body (TimedEventQueue α × Option α) :=
  match q.committed[q.popProposalCount]? with
  | none => .done (q, none)
  | some entry =>
    if epoch < entry.readyTime then .done (q, none)
    else do
      if ← q.register then return (q.receive entry epoch, some entry.value)
      else return (q, none)

/-- Erase what the cursor has passed. -/
def erasePopped : TimedEventQueue α :=
  { q with
    committed := q.committed.drop q.popProposalCount
    totalPops := q.totalPops + min q.popProposalCount q.committed.length
    popProposalCount := 0
    past := { q.past with removed := q.past.removed ++ q.committed.take q.popProposalCount } }

def insert (entry : TimedEntry α) : TimedEventQueue α :=
  { q with
    committed := insertKey key entry q.committed
    totalPushes := q.totalPushes + 1 }

/-- The notification of an entry. -/
def notification (entry : TimedEntry α) : Event :=
  { readyTime := entry.readyTime, targetId := q.id, eventKind := kNotificationKind
    payload := entry.sequence }

/-- Insert the schedules in order; the first notification the system refuses ends the loop. -/
def publish : List (TimedEntry α) → TimedEventQueue α → Body (TimedEventQueue α)
  | [], q => .done q
  | entry :: rest, q =>
    if q.system.isNone then publish rest (q.insert entry)
    else .scheduleEvent (q.notification entry) fun ok =>
      if ok then publish rest (q.insert entry)
      else .done ((q.insert entry).setRuntimeFailureCode "event_notification_failed")

/-- The end of the Xfer: the proposals are cleared and the statistics updated. -/
def settle (changed : Bool) (epoch : Epoch) : TimedEventQueue α :=
  { q with
    scheduleProposals := []
    highWatermark := max q.highWatermark q.committed.length
    lastUpdate := if changed then epoch else q.lastUpdate }

def doXfer (epoch : Epoch) : Body (TimedEventQueue α) := do
  let r ← publish q.scheduleProposals q.erasePopped
  return r.settle q.hasPendingCommit epoch

/-- The notification matches a committed entry with the same ready epoch. -/
def deliverEvent (kind payload : ℕ) (epoch : Epoch) : Bool :=
  decide (kind = kNotificationKind) &&
    (q.committed.find? (fun e => e.sequence == payload)).any (fun e => e.readyTime = epoch)

/-! ### What a queue promises -/

/-- A constructed queue. -/
def Fresh : Prop := q = { id := q.id, capacity := q.capacity, system := q.system }

/-- The promises of a queue, over its whole past: at most `capacity` entries and schedules at
any time; each accepted value is received at most once, never before its ready epoch, in the
order of the keys and ahead of all that is left behind. -/
structure Delivers : Prop where
  capacity : q.committed.length + q.scheduleProposals.length ≤ q.capacity ∧
    ∀ a ∈ q.past.accepted, a.occupied ≤ q.capacity
  ready : ∀ a ∈ q.past.accepted, a.entry.readyTime = readyAt a.epoch a.delay
  once : (q.past.accepted.map fun a => a.entry.sequence).Nodup ∧
    (q.past.received.map fun r => r.entry.sequence).Nodup ∧
    ∀ r ∈ q.past.received, ∃ a ∈ q.past.accepted, a.entry = r.entry
  punctual : ∀ r ∈ q.past.received, r.entry.readyTime ≤ r.epoch
  ordered : q.past.received.Pairwise fun r r' => r.entry.key < r'.entry.key
  ahead : ∀ r ∈ q.past.received, ∀ e ∈ r.left, r.entry.key < e.key

/-- The order of a queue in a live system at the epoch `now`. -/
structure Line (now : Epoch) : Prop where
  pops : q.popProposalCount ≤ q.committed.length
  received : q.past.received.map Receipt.entry =
    q.past.removed ++ q.committed.take q.popProposalCount
  ordered : (q.past.removed ++ q.committed).Pairwise fun a b => a.key < b.key
  received_le : ∀ e ∈ q.past.removed ++ q.committed.take q.popProposalCount, e.readyTime ≤ now
  places : (q.past.accepted.map Acceptance.entry).Perm
    (q.past.removed ++ q.committed ++ q.scheduleProposals)
  sequences : q.past.accepted.Pairwise fun a b => a.entry.sequence < b.entry.sequence
  bounded : ∀ a ∈ q.past.accepted, a.entry.sequence < q.nextSequence
  waiting : q.scheduleProposals.Pairwise fun a b => a.sequence < b.sequence
  behind : ∀ a ∈ q.past.removed ++ q.committed, ∀ b ∈ q.scheduleProposals,
    a.sequence < b.sequence

variable {q} {now next : Epoch}

variable {entry : TimedEntry α}

theorem Line.fresh (h : q.Fresh) : q.Line now := by
  rw [h]
  exact ⟨le_rfl, rfl, .nil, nofun, .nil, .nil, nofun, .nil, nofun⟩

theorem Delivers.fresh (h : q.Fresh) : q.Delivers := by
  rw [h]
  exact ⟨⟨Nat.zero_le _, nofun⟩, nofun, ⟨.nil, .nil, nofun⟩, nofun, .nil, nofun⟩

theorem Line.later (hq : q.Line now) (hle : now ≤ next) : q.Line next :=
  { hq with received_le := fun e he => le_trans (hq.received_le e he) hle }

theorem Line.sequence_lt (hq : q.Line now) {e : TimedEntry α}
    (he : e ∈ q.past.removed ++ q.committed ++ q.scheduleProposals) :
    e.sequence < q.nextSequence := by
  obtain ⟨a, ha, rfl⟩ := mem_map.mp (hq.places.mem_iff.mpr he)
  exact hq.bounded a ha

theorem Line.nodup_sequences (hq : q.Line now) :
    ((q.past.removed ++ q.committed ++ q.scheduleProposals).map sequence).Nodup := by
  have h : ((q.past.accepted.map Acceptance.entry).map sequence).Nodup := by
    rw [map_map]
    exact pairwise_map.mpr (hq.sequences.imp fun h => Nat.ne_of_lt h)
  exact (hq.places.map _).nodup_iff.mp h

/-! ### Schedules and receipts -/

theorem Line.accept (hq : q.Line now) (value : α) (epoch : Epoch) (delay : ℕ) :
    (q.accept value epoch delay).Line now := by
  have hmem {e : TimedEntry α} (he : e ∈ q.past.removed ++ q.committed ++ q.scheduleProposals) :
      e.sequence < q.nextSequence := hq.sequence_lt he
  refine ⟨hq.pops, hq.received, hq.ordered, hq.received_le, ?_, ?_, ?_, ?_, ?_⟩
  · simp only [TimedEventQueue.accept, map_append]
    rw [← append_assoc]
    exact hq.places.append_right _
  · refine pairwise_append.mpr ⟨hq.sequences, pairwise_singleton _ _, fun a ha b hb => ?_⟩
    rw [mem_singleton.mp hb]
    exact hq.bounded a ha
  · intro a ha
    show a.entry.sequence < q.nextSequence + 1
    rcases mem_append.mp ha with ha | ha
    · have := hq.bounded a ha
      omega
    · rw [mem_singleton.mp ha]
      exact Nat.lt_succ_self _
  · refine pairwise_append.mpr ⟨hq.waiting, pairwise_singleton _ _, fun a ha b hb => ?_⟩
    rw [mem_singleton.mp hb]
    exact hmem (mem_append_right _ ha)
  · intro a ha b hb
    rcases mem_append.mp hb with hb | hb
    · exact hq.behind a ha b hb
    · rw [mem_singleton.mp hb]
      exact hmem (mem_append_left _ ha)

theorem Delivers.accept (hd : q.Delivers) (hq : q.Line now)
    (hroom : q.committed.length + q.scheduleProposals.length < q.capacity) (value : α)
    (epoch : Epoch) (delay : ℕ) : (q.accept value epoch delay).Delivers := by
  have hsequences := (hq.accept value epoch delay).sequences
  refine ⟨⟨?_, fun a ha => ?_⟩, fun a ha => ?_, ⟨?_, hd.once.2.1, fun r hr => ?_⟩, hd.punctual,
    hd.ordered, hd.ahead⟩
  · simp only [TimedEventQueue.accept, length_append, length_singleton]
    omega
  · rcases mem_append.mp ha with ha | ha
    · exact hd.capacity.2 a ha
    · rw [mem_singleton.mp ha]
      exact hroom
  · rcases mem_append.mp ha with ha | ha
    · exact hd.ready a ha
    · rw [mem_singleton.mp ha]
  · exact pairwise_map.mpr (hsequences.imp fun h => Nat.ne_of_lt h)
  · obtain ⟨a, ha, h⟩ := hd.once.2.2 r hr
    exact ⟨a, mem_append_left _ ha, h⟩

theorem Line.receive (hq : q.Line now) (hentry : q.committed[q.popProposalCount]? = some entry)
    (hready : entry.readyTime ≤ now) : (q.receive entry now).Line now := by
  have htake : q.committed.take (q.popProposalCount + 1) =
      q.committed.take q.popProposalCount ++ [entry] := by
    rw [take_add_one, hentry]
    rfl
  refine { hq with pops := ?_, received := ?_, received_le := fun e he => ?_ }
  · exact (List.getElem?_eq_some_iff.mp hentry).1
  · simp only [TimedEventQueue.receive, map_append, map_singleton, hq.received]
    rw [htake, append_assoc]
  · simp only [TimedEventQueue.receive] at he
    rw [htake, ← append_assoc] at he
    rcases mem_append.mp he with he | he
    · exact hq.received_le e he
    · rw [mem_singleton.mp he]
      exact hready

theorem Line.received_prefix (hq : q.Line now) :
    q.past.received.map Receipt.entry <+: q.past.removed ++ q.committed := by
  rw [hq.received]
  exact (prefix_append_right_inj _).mpr ⟨_, take_append_drop _ _⟩

theorem Line.received_ordered (hq : q.Line now) :
    q.past.received.Pairwise fun r r' => r.entry.key < r'.entry.key := by
  have h := hq.ordered.sublist hq.received_prefix.sublist
  rwa [pairwise_map] at h

theorem Delivers.receive (hd : q.Delivers) (hq : q.Line now)
    (hentry : q.committed[q.popProposalCount]? = some entry) (hready : entry.readyTime ≤ now) :
    (q.receive entry now).Delivers := by
  have hline := hq.receive hentry hready
  refine ⟨hd.capacity, hd.ready, ⟨hd.once.1, ?_, fun r hr => ?_⟩, fun r hr => ?_,
    hline.received_ordered, fun r hr e he => ?_⟩
  · have hsub := (hline.received_prefix.sublist.trans
      (sublist_append_left _ q.scheduleProposals)).map sequence
    have h := hsub.nodup hline.nodup_sequences
    rwa [map_map] at h
  · have hmem : r.entry ∈ q.past.removed ++ q.committed :=
      hline.received_prefix.subset (mem_map_of_mem hr)
    obtain ⟨a, ha, h⟩ := mem_map.mp
      (hline.places.mem_iff.mpr (mem_append_left _ hmem))
    exact ⟨a, ha, h⟩
  · rcases mem_append.mp hr with hr | hr
    · exact hd.punctual r hr
    · rw [mem_singleton.mp hr]
      exact hready
  · rcases mem_append.mp hr with hr | hr
    · exact hd.ahead r hr e he
    · rw [mem_singleton.mp hr] at he ⊢
      obtain ⟨hlt, hget⟩ := List.getElem?_eq_some_iff.mp hentry
      have hdrop : q.committed.drop q.popProposalCount =
          entry :: q.committed.drop (q.popProposalCount + 1) := by
        rw [drop_eq_getElem_cons hlt, hget]
      have hordered := (pairwise_append.mp hq.ordered).2.1.sublist
        (drop_sublist q.popProposalCount _)
      rw [hdrop] at hordered
      exact (pairwise_cons.mp hordered).1 e he

/-! ### The Xfer -/

theorem Line.erasePopped (hq : q.Line now) : q.erasePopped.Line now := by
  have hline : q.erasePopped.past.removed ++ q.erasePopped.committed =
      q.past.removed ++ q.committed := by
    show (q.past.removed ++ q.committed.take _) ++ q.committed.drop _ = _
    rw [append_assoc, take_append_drop]
  refine ⟨Nat.zero_le _, ?_, ?_, ?_, ?_, hq.sequences, hq.bounded, hq.waiting, ?_⟩
  · show q.past.received.map Receipt.entry = (q.past.removed ++ q.committed.take _) ++ []
    rw [append_nil]
    exact hq.received
  · rw [hline]
    exact hq.ordered
  · intro e he
    apply hq.received_le
    simpa [TimedEventQueue.erasePopped] using he
  · rw [hline]
    exact hq.places
  · rw [hline]
    exact hq.behind

theorem Line.insert (hq : q.Line now) {rest : List (TimedEntry α)}
    (hproposals : q.scheduleProposals = entry :: rest) (hcursor : q.popProposalCount = 0)
    (hle : now ≤ entry.readyTime) :
    ({ q.insert entry with scheduleProposals := rest }).Line now := by
  have hbehind : ∀ a ∈ q.past.removed ++ q.committed, a.sequence < entry.sequence := by
    intro a ha
    refine hq.behind a ha entry ?_
    rw [hproposals]
    exact mem_cons_self
  have hperm := insertKey_perm key entry q.committed
  obtain ⟨hremoved, hcommitted, hcross⟩ := pairwise_append.mp hq.ordered
  have hwaiting := hq.waiting
  rw [hproposals] at hwaiting
  obtain ⟨hfirst, hrest⟩ := pairwise_cons.mp hwaiting
  have hreceived : ∀ a ∈ q.past.removed, a.key < entry.key := by
    intro a ha
    have hseq := hbehind a (mem_append_left _ ha)
    have hready := le_trans (hq.received_le a (mem_append_left _ ha)) hle
    rcases lt_or_eq_of_le hready with hlt | heq
    · exact key_lt.mpr (Or.inl hlt)
    · exact key_lt.mpr (Or.inr ⟨heq, hseq⟩)
  refine ⟨?_, ?_, ?_, ?_, ?_, hq.sequences, hq.bounded, hrest, ?_⟩
  · show q.popProposalCount ≤ _
    omega
  · have h := hq.received
    show q.past.received.map Receipt.entry =
      q.past.removed ++ (insertKey key entry q.committed).take q.popProposalCount
    rw [h, hcursor, take_zero, take_zero]
  · refine pairwise_append.mpr ⟨hremoved, ?_, fun a ha b hb => ?_⟩
    · refine pairwise_lt_insertKey _ hcommitted fun y hy heq => ?_
      have hseq : y.sequence = entry.sequence := congrArg (fun k => (ofLex k).2) heq
      have := hbehind y (mem_append_right _ hy)
      omega
    · rcases (mem_insertKey _).mp hb with rfl | hb
      · exact hreceived a ha
      · exact hcross a ha b hb
  · intro e he
    refine hq.received_le e ?_
    simpa [TimedEventQueue.insert, hcursor] using he
  · refine hq.places.trans ?_
    rw [hproposals, append_assoc, append_assoc]
    exact (perm_middle.trans (hperm.symm.append_right rest)).append_left _
  · intro a ha b hb
    rcases mem_append.mp ha with ha | ha
    · exact hq.behind a (mem_append_left _ ha) b (hproposals ▸ mem_cons_of_mem _ hb)
    · rcases (mem_insertKey _).mp ha with rfl | ha
      · exact hfirst b hb
      · exact hq.behind a (mem_append_right _ ha) b (hproposals ▸ mem_cons_of_mem _ hb)

theorem Line.settle (hq : q.Line now) (hproposals : q.scheduleProposals = []) (changed : Bool)
    (epoch : Epoch) : (q.settle changed epoch).Line now := by
  have h := hq.places
  have hbehind := hq.behind
  rw [hproposals] at h hbehind
  exact ⟨hq.pops, hq.received, hq.ordered, hq.received_le, h, hq.sequences, hq.bounded, .nil, hbehind⟩

/-- The Xfer keeps the promises however far the notifications come. -/
theorem Delivers.of_past {r : TimedEventQueue α} (hd : q.Delivers)
    (hcapacity : r.capacity = q.capacity) (haccepted : r.past.accepted = q.past.accepted)
    (hreceived : r.past.received = q.past.received)
    (hlength : r.committed.length + r.scheduleProposals.length ≤
      q.committed.length + q.scheduleProposals.length) : r.Delivers := by
  refine ⟨⟨?_, ?_⟩, ?_, ?_, ?_, ?_, ?_⟩
  · rw [hcapacity]
    exact le_trans hlength hd.capacity.1
  · rw [hcapacity, haccepted]
    exact hd.capacity.2
  · rw [haccepted]
    exact hd.ready
  · rw [haccepted, hreceived]
    exact hd.once
  · rw [hreceived]
    exact hd.punctual
  · rw [hreceived]
    exact hd.ordered
  · rw [hreceived]
    exact hd.ahead

/-! ### Notifications -/

variable (q) in
/-- The event tells of an entry that is committed and not received. -/
structure Announces (e : Event) : Prop where
  target : e.targetId = q.id
  kind : e.eventKind = kNotificationKind
  entry : ∃ entry ∈ q.committed.drop q.popProposalCount,
    entry.sequence = e.payload ∧ entry.readyTime = e.readyTime

theorem Announces.deliverEvent {e : Event} (h : q.Announces e) (hq : q.Line now) :
    q.deliverEvent e.eventKind e.payload e.readyTime = true := by
  obtain ⟨entry, hentry, hseq, hready⟩ := h.entry
  have hmem := mem_of_mem_drop hentry
  have hnodup : (q.committed.map sequence).Nodup := by
    have h := hq.nodup_sequences
    rw [append_assoc, map_append, map_append] at h
    exact (nodup_append.mp (nodup_append.mp h).2.1).1
  have hfind : q.committed.find? (fun a => a.sequence == e.payload) = some entry := by
    cases hfind : q.committed.find? (fun a => a.sequence == e.payload) with
    | none =>
      have := find?_eq_none.mp hfind entry hmem
      simp [hseq] at this
    | some a =>
      have ha : a.sequence = e.payload := by simpa using find?_some hfind
      rw [inj_on_of_nodup_map hnodup (mem_of_find?_eq_some hfind) hmem (ha.trans hseq.symm)]
  simp [TimedEventQueue.deliverEvent, h.kind, hfind, hready]

end TimedEventQueue

end AgenticCircuit.Gfsim
