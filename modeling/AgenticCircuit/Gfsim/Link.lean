import AgenticCircuit.Gfsim.Barrier
import AgenticCircuit.Gfsim.Junction

/-! # Links

A `QueueLink` decides on the committed snapshots of its queues and proposes a pop and a push;
source, link and destination then publish their parts of the transfer one after the other in the
commit loop.  The invariant of `Junction` is kept by the Xfers of the three objects, by the Work
of the link, whose registrations cannot fail, and by everything the other objects do.

A commit loop that ends between the parts leaves a transfer half published (`Torn`).  In every
run without such a barrier a link moves every entry exactly once (`queueLink_exactly_once`).
At most one transfer is published in a tick, so the 64-bit counter does not wrap. -/

namespace AgenticCircuit.Gfsim

open QueueWorld SimQueue Body Exit Or Option

open Relation (ReflTransGen)

variable {A α : Type} [PacketTraits α] {j : Junction} {c : Config} {agents : Agents A α}
  {s t : State (QueueWorld A α)} {w w' : QueueWorld A α} {now epoch : Epoch} {p : Ptr}

/-! ### The Xfers of the junction -/

section worldXfers

omit [PacketTraits α] in
theorem Stamped.xferLink (hw : Stamped j now w) :
    Stamped j now (w.modifyLink j.link fun l => l.doXfer now) := by
  refine ⟨hw.same, hw.increasing, ?_⟩
  rw [modifyLink_links_self, QueueLink.doXfer_lastWorkEpoch]
  exact hw.past

omit [PacketTraits α] in
/-- The pending push is published at `now`, the first one at this epoch. -/
theorem Stamped.xferDestination (hw : Stamped j now w) (hne : j.source ≠ j.destination)
    (hone : (w.queues j.destination).pushProposals.length ≤ 1)
    (hworked : (w.queues j.destination).pushProposals ≠ [] →
      (w.links j.link).lastWorkEpoch = some now) :
    Stamped j now (w.setQueue j.destination ((w.queues j.destination).doXfer now)) := by
  have hsource : (w.setQueue j.destination
      ((w.queues j.destination).doXfer now)).queues j.source = w.queues j.source :=
    setQueue_queues_of_ne hne
  have hpublished : ((w.queues j.destination).doXfer now).past.publishedAt =
      (w.queues j.destination).past.publishedAt ++
        List.replicate (w.queues j.destination).pushProposals.length now := rfl
  constructor
  · rw [hsource, setQueue_queues_self, hw.same, hpublished]
    simp [doXfer]
  · rw [setQueue_queues_self, hpublished, List.pairwise_append]
    refine ⟨hw.increasing, ?_, fun e he e' he' => ?_⟩
    · exact List.pairwise_replicate.mpr (inl hone)
    · obtain ⟨hlength, rfl⟩ := List.mem_replicate.mp he'
      rcases hw.past e he with hlt | ⟨_, _, hnone⟩
      · exact hlt
      · rw [hnone] at hlength
        exact absurd rfl hlength
  · rw [setQueue_queues_self, hpublished]
    intro e he
    have hpushes : ((w.queues j.destination).doXfer now).pushProposals = [] := rfl
    rcases List.mem_append.mp he with he | he
    · exact (hw.past e he).imp_right fun h => ⟨h.1, h.2.1, hpushes⟩
    · obtain ⟨hlength, rfl⟩ := List.mem_replicate.mp he
      refine inr ⟨rfl, hworked fun hnone => hlength ?_, hpushes⟩
      rw [hnone]
      rfl

theorem Coupled.xferSource (hw : Coupled j w) (hne : j.source ≠ j.destination) :
    Coupled j (w.setQueue j.source ((w.queues j.source).doXfer now)) := by
  have hdestination : (w.setQueue j.source ((w.queues j.source).doXfer now)).queues j.destination =
      w.queues j.destination := setQueue_queues_of_ne hne.symm
  constructor
  · rw [setQueue_queues_self]
    exact hw.fifo.doXfer now
  · simp [doXfer, hw.source]
  · rw [hdestination]
    exact hw.destination
  · rw [hdestination, setQueue_queues_self]
    exact hw.moved
  · rw [setQueue_queues_self]
    exact hw.count
  · rw [hdestination]
    exact hw.stamps
  · exact hw.code

theorem Stamped.xferSource (hw : Stamped j now w) (hfifo : FifoInv (w.queues j.source))
    (hne : j.source ≠ j.destination) :
    Stamped j now (w.setQueue j.source ((w.queues j.source).doXfer now)) := by
  have hdestination : (w.setQueue j.source ((w.queues j.source).doXfer now)).queues j.destination =
      w.queues j.destination := setQueue_queues_of_ne hne.symm
  have hpops : min (w.queues j.source).popProposalCount
      ((w.queues j.source).committed ++ (w.queues j.source).pushProposals).length =
        (w.queues j.source).popProposalCount := by
    have hle := hfifo.pops
    rw [List.length_append]
    omega
  constructor
  · rw [hdestination, setQueue_queues_self, ← hw.same]
    simp [doXfer, -List.length_append, hpops]
  · rw [hdestination]
    exact hw.increasing
  · rw [hdestination]
    exact hw.past

theorem Coupled.xferLink (hw : Coupled j w) :
    Coupled j (w.modifyLink j.link fun l => l.doXfer now) := by
  refine ⟨hw.fifo, hw.source, hw.destination, hw.moved, ?_, hw.stamps, ?_⟩
  · simp [← hw.count]
  · simp [hw.code]

theorem Coupled.xferDestination (hw : Coupled j w) (hne : j.source ≠ j.destination) :
    Coupled j (w.setQueue j.destination ((w.queues j.destination).doXfer now)) := by
  have hsource : (w.setQueue j.destination
      ((w.queues j.destination).doXfer now)).queues j.source = w.queues j.source :=
    setQueue_queues_of_ne hne
  constructor
  · rw [hsource]
    exact hw.fifo
  · rw [hsource]
    exact hw.source
  · simp [doXfer, hw.destination]
  · rw [hsource, setQueue_queues_self]
    exact hw.moved
  · rw [hsource]
    exact hw.count
  · simp [doXfer, hw.stamps]
  · exact hw.code

end worldXfers

section xfers

omit [PacketTraits α] in
theorem Phase.pushes_le {sys : SimSystem} {w : QueueWorld A α} (hw : Phase j c sys w) :
    (w.queues j.destination).pushProposals.length ≤ 1 ∧
      ((w.queues j.destination).pushProposals ≠ [] →
        (w.links j.link).lastWorkEpoch = some sys.epoch) := by
  cases hw with
  | idle h =>
    have hnone := List.length_eq_zero_iff.mp h.pushes
    rw [hnone]
    exact ⟨Nat.zero_le 1, fun h => absurd rfl h⟩
  | proposed _ _ _ hworked h => exact ⟨le_of_eq h.pushes, fun _ => hworked⟩
  | committing _ _ hworked h =>
    refine ⟨?_, fun _ => hworked⟩
    rw [h.pushes, left]
    split <;> omega

theorem Junction.source_mem (j : Junction) : j.source ∈ j.members := by simp [members]

theorem Junction.link_mem (j : Junction) : j.link ∈ j.members := by simp [members]

theorem Junction.destination_mem (j : Junction) : j.destination ∈ j.members := by simp [members]

section

variable (hplaced : j.Placed c)

include hplaced

theorem Junction.Placed.id_ne {p p' : Ptr} (hp : p ∈ j.members) (hp' : p' ∈ j.members)
    (hne : p ≠ p') : (c.info p).id ≠ (c.info p').id := by
  intro hid
  have hfound := hplaced.found p hp
  rw [hid, hplaced.found p' hp'] at hfound
  exact hne (some.inj hfound).symm

theorem Junction.Placed.link_ne_source : j.link ≠ j.source := by
  intro h
  have hkind := hplaced.link
  rw [h, hplaced.source] at hkind
  cases hkind

theorem Junction.Placed.link_ne_destination : j.link ≠ j.destination := by
  intro h
  have hkind := hplaced.link
  rw [h, hplaced.destination] at hkind
  cases hkind

variable {pops pushes pending : ℕ}

omit [PacketTraits α] in
theorem Holding.xferSource (hw : Holding j w pops pushes pending) :
    HoldingWithout j c (c.info j.source).id
      (w.setQueue j.source ((w.queues j.source).doXfer now)) pops pushes pending := by
  rw [HoldingWithout, if_pos rfl,
    if_neg (hplaced.id_ne j.destination_mem j.source_mem hplaced.distinct.symm),
    if_neg (hplaced.id_ne j.link_mem j.source_mem hplaced.link_ne_source)]
  refine ⟨?_, ?_, hw.pending⟩
  · rw [setQueue_queues_self]
    rfl
  · rw [setQueue_queues_of_ne hplaced.distinct.symm]
    exact hw.pushes

omit [PacketTraits α] in
theorem Holding.xferLink (hw : Holding j w pops pushes pending) :
    HoldingWithout j c (c.info j.link).id (w.modifyLink j.link fun l => l.doXfer now) pops pushes
      pending := by
  rw [HoldingWithout, if_neg (hplaced.id_ne j.source_mem j.link_mem hplaced.link_ne_source.symm),
    if_neg (hplaced.id_ne j.destination_mem j.link_mem hplaced.link_ne_destination.symm),
    if_pos rfl]
  refine ⟨hw.pops, hw.pushes, ?_⟩
  rw [modifyLink_links_self, QueueLink.doXfer_pendingTransfer]
  rfl

omit [PacketTraits α] in
theorem Holding.xferDestination (hw : Holding j w pops pushes pending) :
    HoldingWithout j c (c.info j.destination).id
      (w.setQueue j.destination ((w.queues j.destination).doXfer now)) pops pushes pending := by
  rw [HoldingWithout, if_neg (hplaced.id_ne j.source_mem j.destination_mem hplaced.distinct),
    if_pos rfl, if_neg (hplaced.id_ne j.link_mem j.destination_mem hplaced.link_ne_destination)]
  refine ⟨?_, ?_, hw.pending⟩
  · rw [setQueue_queues_of_ne hplaced.distinct]
    exact hw.pops
  · rw [setQueue_queues_self]
    rfl

omit hplaced in
omit [PacketTraits α] in
theorem Holding.xferOther {id : ObjectId} (hw : Holding j w pops pushes pending)
    (hid : ∀ q ∈ j.members, (c.info q).id ≠ id) : HoldingWithout j c id w pops pushes pending := by
  rw [HoldingWithout, if_neg (hid _ j.source_mem), if_neg (hid _ j.destination_mem),
    if_neg (hid _ j.link_mem)]
  exact hw

theorem LinkInv.xferSource (hs : LinkInv j c s) (gathered : s.sys.trail.gathered = true) :
    LinkInv j c ⟨s.sys.markXfer (c.info j.source).id, s.world.setQueue j.source
      ((s.world.queues j.source).doXfer s.sys.epoch)⟩ := by
  have hdestination : (s.world.setQueue j.source
      ((s.world.queues j.source).doXfer s.sys.epoch)).queues j.destination =
        s.world.queues j.destination := setQueue_queues_of_ne hplaced.distinct.symm
  refine ⟨hs.joined.congr (fun _ => ⟨rfl, rfl⟩) ⟨rfl, rfl⟩ ?_ ?_,
    hs.coupled.xferSource hplaced.distinct,
    hs.stamped.xferSource hs.coupled.fifo hplaced.distinct,
    hs.phase.xfer gathered rfl fun _ _ _ h => h.xferSource hplaced⟩
  · rw [setQueue_queues_self]
    exact ⟨rfl, rfl⟩
  · rw [hdestination]
    exact ⟨rfl, rfl⟩

theorem LinkInv.xferLink (hs : LinkInv j c s) (gathered : s.sys.trail.gathered = true) :
    LinkInv j c ⟨s.sys.markXfer (c.info j.link).id,
      s.world.modifyLink j.link fun l => l.doXfer s.sys.epoch⟩ := by
  refine ⟨hs.joined.congr (fun p => ?_) ?_ ⟨rfl, rfl⟩ ⟨rfl, rfl⟩, hs.coupled.xferLink,
    hs.stamped.xferLink, hs.phase.xfer gathered ?_ fun _ _ _ h => h.xferLink hplaced⟩
  · by_cases hp : p = j.link
    · simp [hp]
    · simp [hp]
  · simp
  · simp

end

theorem LinkInv.xferDestination (hplaced : j.Placed c) (hs : LinkInv j c s)
    (gathered : s.sys.trail.gathered = true) :
    LinkInv j c ⟨s.sys.markXfer (c.info j.destination).id, s.world.setQueue j.destination
      ((s.world.queues j.destination).doXfer s.sys.epoch)⟩ := by
  have hsource : (s.world.setQueue j.destination
      ((s.world.queues j.destination).doXfer s.sys.epoch)).queues j.source =
        s.world.queues j.source := setQueue_queues_of_ne hplaced.distinct
  obtain ⟨hone, hworked⟩ := hs.phase.pushes_le
  refine ⟨hs.joined.congr (fun _ => ⟨rfl, rfl⟩) ⟨rfl, rfl⟩ ?_ ?_,
    hs.coupled.xferDestination hplaced.distinct,
    hs.stamped.xferDestination hplaced.distinct hone hworked,
    hs.phase.xfer gathered rfl fun _ _ _ h => h.xferDestination hplaced⟩
  · rw [hsource]
    exact ⟨rfl, rfl⟩
  · rw [setQueue_queues_self]
    exact ⟨rfl, rfl⟩

end xfers

/-! ### The Work of the link -/

section registration

variable {s : SimSystem} {id id' : ObjectId}

/-- The system accepts the registration of `id`. -/
structure CanRegister (c : Config) (s : SimSystem) (id : ObjectId) : Prop where
  live : s.terminated = false
  executing : s.executingEpoch = true
  owner : s.activeProposalOwner.isSome
  target : (c.lookup id).isSome

/-- The system after the registration of `id`. -/
def SimSystem.enroll (s : SimSystem) (id : ObjectId) : SimSystem :=
  { s with commitParticipants := insertSet (fun i => i) id s.commitParticipants }

theorem SimSystem.mem_enroll :
    id' ∈ (s.enroll id).commitParticipants ↔ id' = id ∨ id' ∈ s.commitParticipants :=
  mem_insertSet _

theorem CanRegister.enroll (h : CanRegister c s id) :
    CanRegister c (s.enroll id') id := ⟨h.live, h.executing, h.owner, h.target⟩

theorem CanRegister.eq (h : CanRegister c s id) :
    s.registerCommitParticipant c id = (s.enroll id, true) := by
  unfold SimSystem.registerCommitParticipant
  rw [if_neg, if_neg]
  · rfl
  · simp [isSome_iff_ne_none.mp h.target]
  · simp [h.live, h.executing, isSome_iff_ne_none.mp h.owner]

omit [PacketTraits α] in
theorem SimQueue.register_exec {q : SimQueue α} (hbound : q.system.isSome)
    (h : CanRegister c s q.id) : q.register.exec c s = (s.enroll q.id, true) := by
  have hsystem : ¬ q.system.isNone = true := by simp [isSome_iff_ne_none.mp hbound]
  rw [register, if_neg hsystem]
  exact h.eq

theorem QueueLink.register_exec {l : QueueLink} (hbound : l.system.isSome)
    (h : CanRegister c s l.id) : l.register.exec c s = (s.enroll l.id, true) := by
  have hsystem : ¬ l.system.isNone = true := by simp [isSome_iff_ne_none.mp hbound]
  rw [QueueLink.register, if_neg hsystem]
  exact h.eq

/-- A transfer that nothing stands in the way of. -/
theorem proposeTransferTo_exec {source destination : Ptr} {h : Heap α} {element : α}
    (hsame : (h source).system = (h destination).system) (hbound : (h source).system.isSome)
    (hnext : (h source).nextEntry = some element) (hadmits : (h destination).admits = true)
    (hsource : CanRegister c s (h source).id) (hdestination : CanRegister c s (h destination).id) :
    (proposeTransferTo source destination h).exec c s =
      ((s.enroll (h source).id).enroll (h destination).id,
        (moveEntry source destination element h, true)) := by
  unfold proposeTransferTo
  rw [if_neg (not_not.mpr hsame), hnext]
  dsimp only
  rw [hadmits, if_neg (by simp), exec_bind, register_exec hbound hsource]
  rw [if_pos rfl, exec_bind, register_exec (hsame ▸ hbound) hdestination.enroll]
  rfl

end registration

section work

variable {s : SimSystem} {element : α}

theorem SimQueue.admits_of_idle {q : SimQueue α} (h : q.pushProposals = []) :
    q.admits = !q.isFull := by
  simp [admits, isFull, occupied, h]

theorem worldTransfer_exec {source destination : Ptr}
    (hsame : (w.queues source).system = (w.queues destination).system)
    (hbound : (w.queues source).system.isSome) (hnext : (w.queues source).nextEntry = some element)
    (hadmits : (w.queues destination).admits = true)
    (hsource : CanRegister c s (w.queues source).id)
    (hdestination : CanRegister c s (w.queues destination).id) :
    (w.proposeTransferTo source destination).exec c s =
      ((s.enroll (w.queues source).id).enroll (w.queues destination).id,
        ({ w.logRead source (w.queues source).popProposalCount with
            queues := moveEntry source destination element w.queues }, true)) := by
  rw [QueueWorld.proposeTransferTo, exec_bind,
    proposeTransferTo_exec hsame hbound hnext hadmits hsource hdestination]
  rfl

theorem workLink_stalledEmpty (hworked : (w.links p).lastWorkEpoch ≠ some epoch)
    (hempty : (w.queues (w.links p).source).isEmpty = true) :
    w.workLink p epoch = .done (w.modifyLink p fun l => { l with
      lastWorkEpoch := some epoch
      stalledEmpty := l.stalledEmpty + 1 }) := by
  rw [QueueWorld.workLink, if_neg hworked]
  dsimp only
  rw [modifyLink_queues, if_pos hempty, modifyLink_modifyLink]

theorem workLink_stalledFull (hworked : (w.links p).lastWorkEpoch ≠ some epoch)
    (hempty : ¬ (w.queues (w.links p).source).isEmpty = true)
    (hfull : (w.queues (w.links p).destination).isFull = true) :
    w.workLink p epoch = .done (w.modifyLink p fun l => { l with
      lastWorkEpoch := some epoch
      stalledFull := l.stalledFull + 1 }) := by
  rw [QueueWorld.workLink, if_neg hworked]
  dsimp only
  rw [modifyLink_queues, if_neg hempty, if_pos hfull, modifyLink_modifyLink]

/-- The Work of the link when it moves an entry. -/
theorem workLink_exec (hworked : (w.links p).lastWorkEpoch ≠ some epoch)
    (hempty : (w.queues (w.links p).source).isEmpty = false)
    (hfull : (w.queues (w.links p).destination).isFull = false) (hbound : (w.links p).system.isSome)
    (hsourceBound : (w.queues (w.links p).source).system.isSome)
    (hsame : (w.queues (w.links p).source).system = (w.queues (w.links p).destination).system)
    (hnext : (w.queues (w.links p).source).nextEntry = some element)
    (hadmits : (w.queues (w.links p).destination).admits = true)
    (hlink : CanRegister c s (w.links p).id)
    (hsource : CanRegister c s (w.queues (w.links p).source).id)
    (hdestination : CanRegister c s (w.queues (w.links p).destination).id) :
    ∃ w', (w.workLink p epoch).exec c s =
        (((s.enroll (w.links p).id).enroll (w.queues (w.links p).source).id).enroll
          (w.queues (w.links p).destination).id, w') ∧
      w'.queues = moveEntry (w.links p).source (w.links p).destination element w.queues ∧
      w'.links = Function.update w.links p
        { w.links p with lastWorkEpoch := some epoch, pendingTransfer := true } := by
  unfold QueueWorld.workLink
  rw [if_neg hworked]
  rw [if_neg (by simp [hempty]), if_neg (by simp [hfull]), exec_bind,
    QueueLink.register_exec hbound hlink]
  have htransfer := worldTransfer_exec (s := s.enroll (w.links p).id)
    (w := w.modifyLink p fun l => { l with lastWorkEpoch := some epoch })
    hsame hsourceBound hnext hadmits hsource.enroll hdestination.enroll
  rw [if_pos rfl, exec_bind, htransfer]
  refine ⟨_, rfl, rfl, ?_⟩
  simp [modifyLink, logRead]

end work

section linkWork

omit [PacketTraits α] in
theorem Phase.holding_of_unworked (hw : Phase j c sys w)
    (hworked : (w.links j.link).lastWorkEpoch ≠ some sys.epoch) : Holding j w 0 0 0 := by
  cases hw with
  | idle h => exact h
  | proposed _ _ _ h | committing _ _ h => exact absurd h hworked

omit [PacketTraits α] in
theorem Stamped.lt_of_unworked {now : Epoch} (hw : Stamped j now w)
    (hworked : (w.links j.link).lastWorkEpoch ≠ some now) :
    ∀ e ∈ (w.queues j.destination).past.publishedAt, e < now := by
  intro e he
  rcases hw.past e he with hlt | ⟨_, h, _⟩
  · exact hlt
  · exact absurd h hworked

omit [PacketTraits α] in
theorem moveEntry_source (hne : source ≠ destination) (element : α) (h : Heap α) :
    moveEntry source destination element h source = (h source).handOut element := by
  simp [moveEntry, hne]

omit [PacketTraits α] in
theorem moveEntry_destination (hne : source ≠ destination) (element : α) (h : Heap α) :
    moveEntry source destination element h destination = (h destination).acceptPush element := by
  simp [moveEntry, hne.symm]

variable {sys : SimSystem} {destination source : Ptr}

/-- A link that only marks its Work. -/
theorem LinkInv.stalled {f : QueueLink → QueueLink} (hs : LinkInv j c s)
    (hworked : (s.world.links j.link).lastWorkEpoch ≠ some s.sys.epoch)
    (hf : ∀ l, f l = { l with
      lastWorkEpoch := (f l).lastWorkEpoch
      stalledEmpty := (f l).stalledEmpty
      stalledFull := (f l).stalledFull }) :
    LinkInv j c ⟨s.sys, s.world.modifyLink j.link f⟩ := by
  have hidle := hs.phase.holding_of_unworked hworked
  have hpast := hs.stamped.lt_of_unworked hworked
  have hlink : (s.world.modifyLink j.link f).links j.link = f (s.world.links j.link) :=
    modifyLink_links_self
  constructor
  · refine hs.joined.congr (fun p => ?_) ?_ ⟨rfl, rfl⟩ ⟨rfl, rfl⟩
    · by_cases hp : p = j.link
      · rw [hp, hlink, hf]
        exact ⟨rfl, rfl⟩
      · rw [modifyLink_links_of_ne hp]
        exact ⟨rfl, rfl⟩
    · rw [hlink, hf]
      exact ⟨rfl, rfl⟩
  · refine ⟨hs.coupled.fifo, hs.coupled.source, hs.coupled.destination, hs.coupled.moved, ?_,
      hs.coupled.stamps, ?_⟩
    · rw [hlink, hf]
      exact hs.coupled.count
    · rw [hlink, hf]
      exact hs.coupled.code
  · exact ⟨hs.stamped.same, hs.stamped.increasing, fun e he => inl (hpast e he)⟩
  · refine .idle ⟨hidle.pops, hidle.pushes, ?_⟩
    rw [hlink, hf]
    exact hidle.pending

/-- A link that moves an entry. -/
theorem LinkInv.moves {element : α} (hplaced : j.Placed c) (hs : LinkInv j c s)
    (hworked : (s.world.links j.link).lastWorkEpoch ≠ some s.sys.epoch)
    (hnext : (s.world.queues j.source).nextEntry = some element)
    (hqueues : w.queues = moveEntry j.source j.destination element s.world.queues)
    (hlinks : w.links =
      Function.update s.world.links j.link { s.world.links j.link with
        lastWorkEpoch := some s.sys.epoch
        pendingTransfer := true })
    (hepoch : sys.epoch = s.sys.epoch) (executing : sys.executingEpoch = true)
    (hopen : sys.trail.gathered = false) (hnone : sys.trail.xferDone = [])
    (henrolled : ∀ p ∈ j.members, (c.info p).id ∈ sys.commitParticipants) :
    LinkInv j c ⟨sys, w⟩ := by
  have hidle := hs.phase.holding_of_unworked hworked
  have hpast := hs.stamped.lt_of_unworked hworked
  have hempty := List.length_eq_zero_iff.mp hidle.pushes
  have hsource : w.queues j.source = (s.world.queues j.source).handOut element := by
    rw [hqueues, moveEntry_source hplaced.distinct]
  have hdestination : w.queues j.destination =
      (s.world.queues j.destination).acceptPush element := by
    rw [hqueues, moveEntry_destination hplaced.distinct]
  have hlink : w.links j.link = { s.world.links j.link with
      lastWorkEpoch := some s.sys.epoch
      pendingTransfer := true } := by
    rw [hlinks, Function.update_self]
  constructor
  · refine hs.joined.congr (fun p => ?_) ?_ ?_ ?_
    · by_cases hp : p = j.link
      · rw [hp, hlink]
        exact ⟨rfl, rfl⟩
      · rw [hlinks, Function.update_of_ne hp]
        exact ⟨rfl, rfl⟩
    · rw [hlink]
      exact ⟨rfl, rfl⟩
    · rw [hsource]
      exact ⟨rfl, rfl⟩
    · rw [hdestination]
      exact ⟨rfl, rfl⟩
  · have hcount := hs.coupled.count
    rw [hidle.pending] at hcount
    constructor
    · rw [hsource]
      exact hs.coupled.fifo.handOut hnext
    · rw [hsource]
      exact hs.coupled.source
    · rw [hdestination]
      simp [acceptPush, ← hs.coupled.destination]
    · rw [hsource, hdestination]
      simp [acceptPush, handOut, hs.coupled.moved]
    · rw [hsource, hlink]
      simp [handOut, ← hcount]
    · rw [hdestination]
      exact hs.coupled.stamps
    · rw [hlink]
      exact hs.coupled.code
  · have hsame := hs.stamped.same
    rw [hepoch]
    constructor
    · rw [hsource, hdestination]
      simpa [acceptPush, handOut, hidle.pops, hempty] using hsame
    · rw [hdestination]
      exact hs.stamped.increasing
    · rw [hdestination]
      exact fun e he => inl (hpast e he)
  · refine .proposed (fun _ => executing) hopen hnone ?_ ?_ henrolled
    · rw [hlink, hepoch]
    · constructor
      · rw [hsource]
        simp [handOut, hidle.pops]
      · rw [hdestination]
        simp [acceptPush, hempty]
      · rw [hlink]
        rfl

/-- The Work of the link in an executing epoch. -/
theorem LinkInv.workLink (hplaced : j.Placed c) (hs : LinkInv j c s)
    (live : s.sys.terminated = false) (executing : s.sys.executingEpoch = true)
    (hopen : s.sys.trail.gathered = false) (hnone : s.sys.trail.xferDone = [])
    (howner : s.sys.activeProposalOwner.isSome) :
    LinkInv j c ⟨((s.world.workLink j.link s.sys.epoch).exec c s.sys).1,
      ((s.world.workLink j.link s.sys.epoch).exec c s.sys).2⟩ := by
  by_cases hworked : (s.world.links j.link).lastWorkEpoch = some s.sys.epoch
  · rw [QueueWorld.workLink, if_pos hworked]
    exact hs
  by_cases hempty : (s.world.queues (s.world.links j.link).source).isEmpty = true
  · rw [workLink_stalledEmpty hworked hempty, exec_done]
    dsimp only
    refine hs.stalled hworked ?_
    exact fun _ => rfl
  by_cases hfull : (s.world.queues (s.world.links j.link).destination).isFull = true
  · rw [workLink_stalledFull hworked hempty hfull, exec_done]
    dsimp only
    refine hs.stalled hworked ?_
    exact fun _ => rfl
  rw [Bool.not_eq_true] at hempty hfull
  have hidle := hs.phase.holding_of_unworked hworked
  have hregister (p : Ptr) (hp : p ∈ j.members) : CanRegister c s.sys (c.info p).id := by
    refine ⟨live, executing, howner, ?_⟩
    rw [hplaced.found p hp]
    rfl
  obtain ⟨element, hnext⟩ : ∃ element, (s.world.queues j.source).nextEntry = some element := by
    rw [nextEntry, hidle.pops]
    rw [hs.joined.source] at hempty
    cases hcommitted : (s.world.queues j.source).committed with
    | nil => simp [isEmpty, hcommitted] at hempty
    | cons element rest => exact ⟨element, rfl⟩
  have hadmits : (s.world.queues j.destination).admits = true := by
    rw [hs.joined.destination] at hfull
    rw [admits_of_idle (List.length_eq_zero_iff.mp hidle.pushes), hfull]
    rfl
  obtain ⟨w, hexec, hqueues, hlinks⟩ := workLink_exec (c := c) (s := s.sys) (w := s.world)
    hworked hempty hfull hs.joined.linkBound (by rw [hs.joined.source]; exact hs.joined.sourceBound)
    (by rw [hs.joined.source, hs.joined.destination]; exact hs.joined.sameSystem)
    (by rw [hs.joined.source]; exact hnext) (by rw [hs.joined.destination]; exact hadmits)
    (by rw [hs.joined.linkId]; exact hregister _ j.link_mem)
    (by rw [hs.joined.source, hs.joined.sourceId]; exact hregister _ j.source_mem)
    (by rw [hs.joined.destination, hs.joined.destinationId]; exact hregister _ j.destination_mem)
  rw [hexec]
  rw [hs.joined.source, hs.joined.destination] at hqueues
  refine hs.moves hplaced hworked hnext hqueues hlinks rfl executing hopen hnone fun p hp => ?_
  rw [SimSystem.mem_enroll, SimSystem.mem_enroll, SimSystem.mem_enroll, hs.joined.source,
    hs.joined.destination, hs.joined.linkId, hs.joined.sourceId, hs.joined.destinationId]
  have hcases : p = j.source ∨ p = j.link ∨ p = j.destination := by
    simpa [Junction.members] using hp
  rcases hcases with rfl | rfl | rfl
  · exact inr (inl rfl)
  · exact inr (inr (inl rfl))
  · exact inl rfl

end linkWork

/-! ### Steps -/

section trans

omit [PacketTraits α] in
theorem Phase.xferOther {sys : SimSystem} {id : ObjectId} (hw : Phase j c sys w)
    (gathered : sys.trail.gathered = true) (hid : ∀ q ∈ j.members, (c.info q).id ≠ id) :
    Phase j c (sys.markXfer id) w :=
  hw.xfer gathered rfl fun _ _ _ h => h.xferOther hid

section

variable (hagents : agents.Respects j.mayPush j.mayPop)

include hagents

theorem doWork_elsewhere (hw : j.Joined c w) (hp : p ≠ j.link)
    (hleaf : ((queueModel c agents).hooks.doWork p epoch w).Leaf w') : Elsewhere j w w' := by
  simp only [queueModel] at hleaf
  split at hleaf
  · cases leaf_done.mp hleaf
    exact elsewhere_of_eq rfl rfl
  · rename_i hkind
    obtain ⟨hpop, hpush⟩ := hw.others p hp hkind
    exact elsewhere_clocked (fun u hu => elsewhere_workLink hp hpop hpush hu) hleaf
  · exact elsewhere_clocked (fun u hu => elsewhere_of_uses
      (Prog.compile_uses (fun _ _ => trivial) (hagents.doWork p epoch w.agents) hu)) hleaf

theorem doArbitrate_elsewhere
    (hleaf : ((queueModel c agents).hooks.doArbitrate p epoch w).Leaf w') : Elsewhere j w w' := by
  simp only [queueModel] at hleaf
  split at hleaf
  · obtain ⟨q, hq, hleaf⟩ := (leaf_bind _).mp hleaf
    cases leaf_pure.mp hleaf
    exact elsewhere_of_quiet (doArbitrate_uses hq)
  · cases leaf_done.mp hleaf
    exact elsewhere_of_eq rfl rfl
  · exact elsewhere_of_uses (Prog.compile_uses (fun _ _ => trivial) (hagents.doArbitrate p epoch w.agents) hleaf)

theorem doXfer_elsewhere (hp : p ∉ j.members)
    (hleaf : ((queueModel c agents).hooks.doXfer p epoch w).Leaf w') : Elsewhere j w w' := by
  have hne : p ≠ j.source ∧ p ≠ j.link ∧ p ≠ j.destination := by
    simpa [Junction.members] using hp
  simp only [queueModel] at hleaf
  split at hleaf
  · cases leaf_done.mp hleaf
    exact elsewhere_setQueue hne.1 hne.2.2
  · cases leaf_done.mp hleaf
    exact elsewhere_modifyLink hne.2.1 fun l => ⟨l.doXfer_source epoch, l.doXfer_destination epoch⟩
  · exact elsewhere_of_uses (Prog.compile_uses (fun _ _ => trivial) (hagents.doXfer p epoch w.agents) hleaf)

end

theorem Junction.Placed.id_ne_of_lookup (hplaced : j.Placed c) {id : ObjectId}
    (hp : ∀ q ∈ j.members, c.lookup id ≠ some q) : ∀ q ∈ j.members, (c.info q).id ≠ id := by
  intro q hq hid
  have hfound := hplaced.found q hq
  rw [hid] at hfound
  exact hp q hq hfound

section

variable (hplaced : j.Placed c) (hagents : agents.Respects j.mayPush j.mayPop) {id : ObjectId}

include hplaced hagents

/-- The Work of an object of the system. -/
theorem LinkInv.work (hs : LinkInv j c s) (live : s.sys.terminated = false)
    (executing : s.sys.executingEpoch = true) (hopen : s.sys.trail.gathered = false)
    (hnone : s.sys.trail.xferDone = []) (howner : s.sys.activeProposalOwner.isSome) :
    LinkInv j c (s.call (queueModel c agents) (queueModel c agents).hooks.doWork p) := by
  by_cases hp : p = j.link
  · have hwork : (queueModel c agents).hooks.doWork p s.sys.epoch s.world =
        s.world.clocked s.sys.epoch fun w => w.workLink j.link s.sys.epoch := by
      simp only [queueModel, hp, hplaced.link]
    -- the clock is none of the junction's business
    let clocked : State (QueueWorld A α) :=
      ⟨s.sys, { s.world with clock := some s.sys.epoch }⟩
    have hclocked : LinkInv j c clocked := hs.elsewhere (elsewhere_of_eq rfl rfl) hs.phase rfl
    have hnext := hclocked.workLink hplaced live executing hopen hnone howner
    rw [State.call, hwork, QueueWorld.clocked, exec_bind]
    exact hnext.elsewhere (elsewhere_of_eq rfl rfl) hnext.phase rfl
  · exact hs.elsewhere (doWork_elsewhere hagents hs.joined hp (exec_leaf c _ s.sys))
      (hs.phase.calls (exec_calls c _ s.sys)) (epoch_eq_of_exec c _ s.sys)

theorem LinkInv.xfer (hs : LinkInv j c s) (hp : c.lookup id = some p)
    (gathered : s.sys.trail.gathered = true) :
    LinkInv j c (State.call (queueModel c agents) (queueModel c agents).hooks.doXfer p
      { s with sys := s.sys.markXfer id }) := by
  have hid : (c.info p).id = id := hplaced.own id p hp
  by_cases hmember : p ∈ j.members
  · have hcases : p = j.source ∨ p = j.link ∨ p = j.destination := by
      simpa [Junction.members] using hmember
    rcases hcases with rfl | rfl | rfl
    · have hnext := hs.xferSource hplaced gathered
      rw [hid] at hnext
      simp only [State.call, queueModel, hplaced.source]
      exact hnext
    · have hnext := hs.xferLink hplaced gathered
      rw [hid] at hnext
      simp only [State.call, queueModel, hplaced.link]
      exact hnext
    · have hnext := hs.xferDestination hplaced gathered
      rw [hid] at hnext
      simp only [State.call, queueModel, hplaced.destination]
      exact hnext
  · have hphase : Phase j c (s.sys.markXfer id) s.world := by
      refine hs.phase.xferOther gathered (hplaced.id_ne_of_lookup fun q hq h => hmember ?_)
      rw [hp] at h
      rw [some.inj h]
      exact hq
    exact hs.elsewhere (doXfer_elsewhere hagents hmember (exec_leaf c _ _))
      (hphase.calls (exec_calls c _ _)) (epoch_eq_of_exec c _ _)

variable (id) in
/-- The Xfer of a participant takes its part of the transfer, if it has one. -/
theorem Holding.xferObject {pops pushes pending : ℕ} (hs : Holding j s.world pops pushes pending) :
    HoldingWithout j c id (xferObject (queueModel c agents) id s).2.world pops pushes pending := by
  cases hp : (queueModel c agents).config.lookup id with
  | none =>
    rw [xferObject_of_none hp]
    refine hs.xferOther (hplaced.id_ne_of_lookup fun q _ hq => ?_)
    cases hp.symm.trans hq
  | some p =>
    have hid : (c.info p).id = id := hplaced.own id p hp
    rw [xferObject_of_some hp]
    by_cases hmember : p ∈ j.members
    swap
    · refine (hs.elsewhere (doXfer_elsewhere hagents hmember (exec_leaf c _ _))).xferOther
        (hplaced.id_ne_of_lookup fun q hq h => hmember ?_)
      cases hp.symm.trans h
      exact hq
    have hcases : p = j.source ∨ p = j.link ∨ p = j.destination := by
      simpa [Junction.members] using hmember
    rw [← hid]
    rcases hcases with rfl | rfl | rfl
    · simp only [State.call, queueModel, hplaced.source]
      exact hs.xferSource hplaced
    · simp only [State.call, queueModel, hplaced.link]
      exact hs.xferLink hplaced
    · simp only [State.call, queueModel, hplaced.destination]
      exact hs.xferDestination hplaced

/-- In the commit loop the three objects hold their parts until their Xfers. -/
theorem Holding.commitLoop {l : List ObjectId} {n : ℕ} (hs : Holding j s.world n n n) :
    Ends (forEach l (commitOne (queueModel c agents))) s fun o t =>
      (o = some () ∧ cut (queueModel c agents) l s = none) ∨
        (o = none ∧ ∃ done, cut (queueModel c agents) l s = some done ∧
          Holding j t.world (n * left c done j.source) (n * left c done j.destination)
            (n * left c done j.link)) := by
  have hnone (p : Ptr) : left c [] p = 1 := by simp [left]
  have hstart : Holding j s.world (n * left c [] j.source) (n * left c [] j.destination)
      (n * left c [] j.link) := by
    rw [hnone, hnone, hnone, mul_one]
    exact hs
  have hloop := forEach_commitOne_cut (P := fun done w => Holding j w (n * left c done j.source)
    (n * left c done j.destination) (n * left c done j.link)) (fun done id s hs => by
      have hnext := hs.xferObject hplaced hagents id
      rw [left_append, left_append, left_append]
      simpa only [HoldingWithout, mul_ite, mul_zero] using hnext) l hstart
  exact hloop

theorem LinkInv.trans (h : Trans (queueModel c agents) s t) (hs : LinkInv j c s) :
    LinkInv j c t := by
  have hkeep {w : QueueWorld A α} (hqueues : w.queues = s.world.queues)
      (hlinks : w.links = s.world.links) : LinkInv j c ⟨s.sys, w⟩ :=
    hs.elsewhere (elsewhere_of_eq hqueues hlinks) hs.phase rfl
  cases h with
  | move h hown => exact hs.elsewhere (elsewhere_of_eq rfl rfl) (hs.phase.move h hown.xferDone) h.epoch_eq
  | work live executing hopen hnone howner =>
    refine hs.work hplaced hagents live executing hopen hnone ?_
    rw [howner]
    rfl
  | arbitrate =>
    exact hs.elsewhere (doArbitrate_elsewhere hagents (exec_leaf c _ s.sys))
      (hs.phase.calls (exec_calls c _ s.sys)) (epoch_eq_of_exec c _ s.sys)
  | xfer live executing gathered _ _ _ hp => exact hs.xfer hplaced hagents hp gathered
  | skipXfer live executing gathered _ hp =>
    refine hs.elsewhere (elsewhere_of_eq rfl rfl) (hs.phase.xferOther gathered
      (hplaced.id_ne_of_lookup fun q _ h => ?_)) rfl
    cases hp.symm.trans h
  | deliver | activate | traceEnd =>
    simp only [queueModel]
    split
    · exact hs
    · exact hs
    · exact hkeep rfl rfl

end

end trans

/-! ### Runs -/

section run

omit [PacketTraits α] in
theorem SimQueue.Fresh.empty {q : SimQueue α} (h : q.Fresh) :
    q.past = {} ∧ q.pushProposals = [] ∧ q.popProposalCount = 0 := by
  rw [h]
  exact ⟨rfl, rfl, rfl⟩

omit [PacketTraits α] in
theorem Stamped.later {now next : Epoch} (hw : Stamped j now w) (h : Holding j w 0 0 0)
    (hlt : now < next) : Stamped j next w := by
  have hsame := hw.same
  rw [h.pops, h.pushes] at hsame
  refine ⟨?_, hw.increasing, fun e he => inl ?_⟩
  · rw [h.pops, h.pushes]
    exact hsame
  · rcases hw.past e he with hpast | ⟨hnow, _⟩
    · exact lt_trans hpast hlt
    · rw [hnow]
      exact hlt

/-- Every entry is moved exactly once. -/
structure MovedOnce (j : Junction) (w : QueueWorld A α) : Prop where
  /-- The destination has received what the source has received first. -/
  moved : (w.queues j.destination).past.published =
    (w.queues j.source).past.published.take (w.links j.link).transferred
  counted : (w.queues j.destination).past.published.length = (w.links j.link).transferred
  stamped : (w.queues j.destination).past.publishedAt.length = (w.links j.link).transferred
  /-- The pop and the push of a transfer are published in the same epoch. -/
  sameEpoch : (w.queues j.source).past.poppedAt = (w.queues j.destination).past.publishedAt
  /-- No two transfers are published in the same epoch. -/
  oncePerEpoch : (w.queues j.destination).past.publishedAt.Pairwise (· < ·)
  proposed : (w.links j.link).runtimeFailureCode ≠ "queue_link_atomic_proposal_failed"

/-- The invariant of a junction when its transfers are whole. -/
structure Whole (j : Junction) (c : Config) (w : QueueWorld A α) : Prop where
  joined : j.Joined c w
  coupled : Coupled j w
  sameEpoch : (w.queues j.source).past.poppedAt = (w.queues j.destination).past.publishedAt
  increasing : (w.queues j.destination).past.publishedAt.Pairwise (· < ·)
  held : (w.queues j.destination).pushProposals.length = (w.links j.link).pendingTransfer.toNat

theorem Whole.elsewhere (hw : Whole j c w) (h : Elsewhere j w w') : Whole j c w' := by
  have hsource := pushedOnly_of_uses h.source
  have hdestination := poppedOnly_of_uses h.destination
  refine ⟨hw.joined.elsewhere h, hw.coupled.elsewhere h, ?_, ?_, ?_⟩
  · rw [hsource.poppedAt, hdestination.publishedAt]
    exact hw.sameEpoch
  · rw [hdestination.publishedAt]
    exact hw.increasing
  · rw [hdestination.pushes, h.link]
    exact hw.held

theorem LinkInv.whole {n : ℕ} (hs : LinkInv j c s) (h : Holding j s.world n n n) :
    Whole j c s.world := by
  refine ⟨hs.joined, hs.coupled, ?_, hs.stamped.increasing, h.pushes.trans h.pending.symm⟩
  have hsame := hs.stamped.same
  rw [h.pops, h.pushes] at hsame
  exact List.append_cancel_right hsame

theorem Whole.movedOnce (hw : Whole j c w) : MovedOnce j w := by
  have hpublished : (w.queues j.source).past.published = (w.queues j.source).past.handedOut ++
      (w.queues j.source).committed.drop (w.queues j.source).popProposalCount :=
    List.append_cancel_right (hw.coupled.source.trans hw.coupled.fifo.order.symm)
  have hreceived : (w.queues j.destination).past.published ++
      (w.queues j.destination).pushProposals = (w.queues j.source).past.handedOut :=
    hw.coupled.destination.trans hw.coupled.moved
  have hlength : (w.queues j.destination).past.published.length = (w.links j.link).transferred := by
    have hcount := hw.coupled.count
    rw [← hreceived, List.length_append, hw.held] at hcount
    omega
  refine ⟨?_, hlength, hw.coupled.stamps.trans hlength, hw.sameEpoch, hw.increasing,
    hw.coupled.code⟩
  rw [hpublished, ← hreceived, List.append_assoc, ← hlength, List.take_left]

/-- The step from `s` comes to its Xfer barrier with a transfer of the link pending, and the
commit loop ends between its parts: one of the three objects has come to its Xfer by then, and
another one has not. -/
def Torn (m : Model (QueueWorld A α)) (j : Junction) (s : State (QueueWorld A α)) : Prop :=
  ∃ q done, AtXfer m s q ∧ (q.world.links j.link).pendingTransfer = true ∧
    cut m q.sys.xferObjects q = some done ∧
    (∃ p ∈ j.members, (m.config.info p).id ∈ done) ∧ ∃ p ∈ j.members, (m.config.info p).id ∉ done

theorem Halt.marks_eq {s t : SimSystem} (h : Halt c s t) : t.tally.marks = s.tally.marks := by
  cases h with
  | returnedXfer committed => cases committed <;> rfl
  | _ => rfl

/-- The three objects hold nothing, or the whole transfer. -/
theorem LinkInv.holding_of_unmarked (hs : LinkInv j c s) (hnone : s.sys.tally.Unmarked) :
    Holding j s.world (s.world.links j.link).pendingTransfer.toNat
      (s.world.links j.link).pendingTransfer.toNat
      (s.world.links j.link).pendingTransfer.toNat := by
  have hnone : s.sys.trail.xferDone = [] := hnone
  cases hs.phase with
  | idle h | proposed _ _ _ _ h =>
    rw [h.pending]
    exact h
  | committing _ _ _ h =>
    rw [hnone] at h
    rw [h.pending]
    exact h

theorem LinkInv.whole_of_outsideLoop (hs : LinkInv j c s) (houtside : s.sys.tally.OutsideLoop) :
    Whole j c s.world := by
  rcases houtside with hopen | hnone | hall
  · cases hs.phase with
    | idle h | proposed _ _ _ _ h => exact hs.whole h
    | committing _ gathered => cases (show s.sys.trail.gathered = false from hopen).symm.trans gathered
  · exact hs.whole (hs.holding_of_unmarked hnone)
  · cases hgathered : s.sys.trail.gathered with
    | true => exact hs.whole (hs.phase.holding_of_xferred hgathered hall)
    | false =>
      cases hs.phase with
      | idle h | proposed _ _ _ _ h => exact hs.whole h
      | committing _ gathered => cases hgathered.symm.trans gathered

/-- Either all three objects have come to their Xfers, or none has. -/
theorem left_eq_of_not_split {done : List ObjectId}
    (h : ¬ ((∃ p ∈ j.members, (c.info p).id ∈ done) ∧ ∃ p ∈ j.members, (c.info p).id ∉ done)) :
    ∃ k, ∀ p ∈ j.members, left c done p = k := by
  by_cases hany : ∃ p ∈ j.members, (c.info p).id ∈ done
  · refine ⟨0, fun p hp => if_pos ?_⟩
    by_contra hnot
    exact h ⟨hany, p, hp, hnot⟩
  · exact ⟨1, fun p hp => if_neg fun hmem => hany ⟨p, hp, hmem⟩⟩

omit [PacketTraits α] in
theorem not_torn_of_cut {m : Model (QueueWorld A α)}
    (h : cut m (proposeEpoch m s).2.sys.xferObjects (proposeEpoch m s).2 = none) :
    ¬ Torn m j s := by
  rintro ⟨q, done, hq, _, hcut, _⟩
  rw [hq.reached, hcut] at h
  cases h

section barrier

variable (hplaced : j.Placed c) (hagents : agents.Respects j.mayPush j.mayPop)
  (hs : LinkInv j c s) (hboundary : AtBoundary s.sys)

include hplaced hagents hs hboundary

/-- What the three objects hold at the barrier, and what is left of it when the commit loop
ends early. -/
theorem LinkInv.atXfer {q : State (QueueWorld A α)} (hq : AtXfer (queueModel c agents) s q) :
    Ends (forEach q.sys.xferObjects (commitOne (queueModel c agents))) q fun o t =>
      (o = some () ∧ cut (queueModel c agents) q.sys.xferObjects q = none) ∨
        (o = none ∧ ∃ done, cut (queueModel c agents) q.sys.xferObjects q = some done ∧
          Holding j t.world
            ((q.world.links j.link).pendingTransfer.toNat * left c done j.source)
            ((q.world.links j.link).pendingTransfer.toNat * left c done j.destination)
            ((q.world.links j.link).pendingTransfer.toNat * left c done j.link)) := by
  obtain ⟨hpath, hinside⟩ := (along_proposeEpoch hboundary).next () q hq.reached
  have hinv : LinkInv j c q :=
    preserved_of_trans (fun _ _ h hs => hs.trans hplaced hagents h) hpath hs
  have hnone : q.sys.tally.Unmarked := List.self_eq_append_left.mp (hinside.xfer hinside.gathered)
  exact (hinv.holding_of_unmarked hnone).commitLoop hplaced hagents

/-- An early return from a step that does not tear a transfer. -/
theorem LinkInv.halt {r t : State (QueueWorld A α)} (hr : LinkInv j c r)
    (hstep : step (queueModel c agents) s = (none, t)) (hhalt : Halts (queueModel c agents) r t)
    (hok : ¬ Torn (queueModel c agents) j s) : Whole j c t.world := by
  rw [hhalt.world]
  rcases (step_interrupted hboundary).of_eq hstep rfl with houtside | ⟨q, hq, hloop⟩
  · refine hr.whole_of_outsideLoop ?_
    unfold Tally.OutsideLoop Tally.Ungathered Tally.Unmarked Tally.AllMarked
    rw [← hhalt.halt.marks_eq]
    exact houtside
  rcases (hs.atXfer hplaced hagents hboundary hq).of_eq hloop with ⟨ho, _⟩ | ⟨_, done, hcut, hheld⟩
  · cases ho
  rw [hhalt.world] at hheld
  cases hpending : (q.world.links j.link).pendingTransfer with
  | false =>
    rw [hpending] at hheld
    simp only [Bool.toNat_false, zero_mul] at hheld
    exact hr.whole hheld
  | true =>
    have hwhole := left_eq_of_not_split (c := c) fun hsplit => hok ⟨q, done, hq, hpending, hcut, hsplit⟩
    obtain ⟨k, hk⟩ := hwhole
    rw [hk _ j.source_mem, hk _ j.destination_mem, hk _ j.link_mem] at hheld
    exact hr.whole hheld

end barrier

/-- The states of runs of a system with a junction, when nobody else pops from its source or
pushes to its destination and every step is taken from a state that satisfies `ok`. -/
def LinkRun (c : Config) (j : Junction) (agents : Agents A α)
    (ok : State (QueueWorld A α) → Prop) (s : State (QueueWorld A α)) : Prop :=
  Runs (queueModel c agents) (queueHost (j.Joined c) j.mayPush j.mayPop) ok s

theorem QueueLink.Fresh.unused {l : QueueLink} (h : l.Fresh) :
    l.transferred = 0 ∧ l.pendingTransfer = false ∧ l.runtimeFailureCode = "" := by
  rw [h]
  exact ⟨rfl, rfl, rfl⟩

theorem LinkInv.fresh (hw : w.Fresh) (hjoined : j.Joined c w) :
    LinkInv j c (State.fresh (queueModel c agents) w) := by
  obtain ⟨hsource, hpushes, hpops⟩ := (hw.queues j.source).empty
  obtain ⟨hdestination, hnone, _⟩ := (hw.queues j.destination).empty
  obtain ⟨hcount, hpending, hcode⟩ := (hw.links j.link).unused
  constructor
  · exact hjoined
  · refine ⟨.fresh (hw.queues j.source), ?_, ?_, ?_, ?_, ?_, ?_⟩
    · simp [State.fresh, hsource, hpushes]
    · simp [State.fresh, hdestination, hnone]
    · simp [State.fresh, hsource, hdestination]
    · simp [State.fresh, hsource, hcount, hpending]
    · simp [State.fresh, hdestination]
    · simp [State.fresh, hcode]
  · refine ⟨?_, ?_, ?_⟩
    · simp [State.fresh, hsource, hdestination, hpops, hnone]
    · simp [State.fresh, hdestination]
    · simp [State.fresh, hdestination]
  · refine .idle ⟨hpops, ?_, ?_⟩
    · simp [State.fresh, hnone]
    · simp [State.fresh, hpending]

/-- After the commit loop nothing is on its way. -/
theorem LinkInv.holding_of_afterXfer (hs : LinkInv j c s) (hafter : AfterXfer s.sys) :
    Holding j s.world 0 0 0 := by
  refine hs.phase.holding_of_xferred hafter.1.gathered ?_
  rw [← List.append_nil s.sys.trail.xferDone]
  exact hafter.1.xfer hafter.1.gathered

theorem LinkInv.holding_of_drained (hs : LinkInv j c s) (hdrained : Drained c s.sys) :
    Holding j s.world 0 0 0 :=
  hs.holding_of_afterXfer ⟨hdrained.position, hdrained.committed⟩

section

variable (hplaced : j.Placed c) (hagents : agents.Respects j.mayPush j.mayPop)
    (h : LinkRun c j agents (fun s => ¬ Torn (queueModel c agents) j s) s)

include hplaced hagents h

theorem LinkRun.invariant : (s.sys.terminated = true → Whole j c s.world) ∧
      (s.sys.terminated = false → LinkInv j c s ∧ AtBoundary s.sys) := by
  refine Runs.invariant (J := fun s => Whole j c s.world) ?_ ?_ ?_ ?_ ?_ ?_ ?_ ?_ h
  · exact fun w hw => .fresh hw.1 hw.2
  · exact fun s t ht hs => hs.trans hplaced hagents ht
  · rintro s _ ⟨prog, hprog, rfl⟩ _ hs
    exact hs.elsewhere (elsewhere_of_uses (Prog.compile_uses (fun _ _ => trivial) (hprog _)
      (exec_leaf c _ s.sys))) (hs.phase.calls (exec_calls c _ s.sys))
      (epoch_eq_of_exec c _ s.sys)
  · rintro s _ ⟨prog, hprog, rfl⟩ _ hw
    exact hw.elsewhere (elsewhere_of_uses (Prog.compile_uses (fun _ _ => trivial) (hprog _) (exec_leaf c _ s.sys)))
  · intro s hs hopen _
    cases hs.phase with
    | idle h | proposed _ _ _ _ h => exact hs.whole h
    | committing _ gathered => cases hopen.symm.trans gathered
  · exact fun s r t hok hs hboundary hstep hr hhalt =>
      hs.halt hplaced hagents hboundary hr hstep hhalt hok
  · exact fun _ r _ _ _ _ hr hafter _ _ => hr.whole (hr.holding_of_afterXfer hafter)
  · intro _ r o t _ _ _ _ hr hdrained hsel
    obtain ⟨hworld, q, hq, hout⟩ := selectNext_selected hsel
    have hidle := hr.holding_of_drained hdrained
    rw [hworld]
    refine ⟨?_, fun _ => hr.whole hidle⟩
    rintro rfl
    obtain ⟨next, _, _, hlt, _, _, ht⟩ := hout.advance_inv
    have hepoch : q.epoch = r.sys.epoch := by cases hq <;> rfl
    have hstamped : Stamped j next r.world := by
      refine hr.stamped.later hidle ?_
      rw [← hepoch]
      exact hlt
    refine ⟨hworld ▸ hr.joined, hworld ▸ hr.coupled, ?_, .idle (hworld ▸ hidle)⟩
    rw [hworld, ht]
    exact hstamped

theorem LinkRun.whole : Whole j c s.world := by
  have hs := h.invariant hplaced hagents
  cases hterm : s.sys.terminated with
  | true => exact hs.1 hterm
  | false =>
    obtain ⟨hI, hboundary⟩ := hs.2 hterm
    exact hI.whole (hI.phase.holding hboundary.live hboundary.closed)

end

/-- A transfer in parts shows: the epochs of the pop and the push or the counter disagree. -/
theorem LinkInv.holding_of_movedOnce {pops pushes pending : ℕ} (hs : LinkInv j c s)
    (h : Holding j s.world pops pushes pending) (hmoved : MovedOnce j s.world) :
    pops = pushes ∧ pushes = pending := by
  constructor
  · have hlength := congrArg List.length hs.stamped.same
    rw [hmoved.sameEpoch, h.pops, h.pushes] at hlength
    simpa using hlength
  · have hlength := congrArg List.length (hs.coupled.destination.trans hs.coupled.moved)
    rw [List.length_append, ← hs.coupled.count, hmoved.counted, h.pushes, h.pending] at hlength
    omega

theorem Torn.not_movedOnce (hplaced : j.Placed c) (hagents : agents.Respects j.mayPush j.mayPop)
    (hs : LinkInv j c s) (hboundary : AtBoundary s.sys) (h : Torn (queueModel c agents) j s) :
    ¬ MovedOnce j (step (queueModel c agents) s).2.world := by
  obtain ⟨q, done, hq, hpending, hcut, ⟨p, hp, hmem⟩, p', hp', hnot⟩ := h
  rcases hloop : forEach q.sys.xferObjects (commitOne (queueModel c agents)) q with ⟨o, t⟩
  rcases (hs.atXfer hplaced hagents hboundary hq).of_eq hloop with
    ⟨_, hnone⟩ | ⟨rfl, done', hcut', hheld⟩
  · cases hnone.symm.trans hcut
  cases hcut.symm.trans hcut'
  obtain ⟨hcommit, hstep⟩ := step_of_interrupted hq hloop
  obtain ⟨r, hpath, hhalt⟩ := (along_commitEpoch hboundary).ret t hcommit
  have hr : LinkInv j c r :=
    preserved_of_trans (fun _ _ h hs => hs.trans hplaced hagents h) hpath hs
  rw [hstep, hhalt.world]
  rw [hhalt.world, hpending] at hheld
  simp only [Bool.toNat_true, one_mul] at hheld
  intro hmoved
  -- the parts of the three objects are equal, but one has published its part and one has not
  obtain ⟨hpops, hpushes⟩ := hr.holding_of_movedOnce hheld hmoved
  have hequal (p : Ptr) (hp : p ∈ j.members) : left c done p = left c done j.link := by
    have hcases : p = j.source ∨ p = j.link ∨ p = j.destination := by
      simpa [Junction.members] using hp
    rcases hcases with rfl | rfl | rfl
    · exact hpops.trans hpushes
    · rfl
    · exact hpushes
  have hzero : left c done p = 0 := if_pos hmem
  have hone : left c done p' = 1 := if_neg hnot
  have hlink := (hequal p hp).symm.trans hzero
  rw [hequal p' hp', hlink] at hone
  cases hone

/-- **Links move every entry exactly once.**  Consider a run in which nobody but the link pops
from its source or pushes to its destination, and in which no step ends the run in its commit
loop between the parts of a transfer.  In every state of the run the destination has received a
prefix of what the source has received, as long as the link's counter says; the pop and the push
of a transfer have been published in the same epoch, each transfer in an epoch of its own; the
proposal of a transfer has never failed.  The next step keeps this up if and only if it does not
end the run between the parts of a transfer.  A full destination leaves all queues unchanged. -/
theorem queueLink_exactly_once (hplaced : j.Placed c)
    (hagents : agents.Respects j.mayPush j.mayPop)
    (h : LinkRun c j agents (fun s => ¬ Torn (queueModel c agents) j s) s) :
    MovedOnce j s.world ∧
    (s.sys.terminated = false →
      (MovedOnce j (step (queueModel c agents) s).2.world ↔ ¬ Torn (queueModel c agents) j s)) ∧
    ∀ (w w' : QueueWorld A α) (epoch : Epoch),
      (w.queues (w.links j.link).destination).isFull = true →
      (w.workLink j.link epoch).Leaf w' → w'.queues = w.queues := by
  refine ⟨(h.whole hplaced hagents).movedOnce, fun live => ⟨fun hmoved htorn => ?_, fun hok => ?_⟩,
    fun _ _ _ => workLink_of_isFull⟩
  · obtain ⟨hs, hboundary⟩ := (h.invariant hplaced hagents).2 live
    exact htorn.not_movedOnce hplaced hagents hs hboundary hmoved
  · have hnext : LinkRun c j agents _ (step (queueModel c agents) s).2 := Runs.step h hok
    exact (hnext.whole hplaced hagents).movedOnce

end run

/-- A process that pushes twice to queue 0 in the first tick and pops from queue 2 later. -/
def relayAgents : Agents Unit ℕ where
  doWork p epoch a :=
    if p ≠ 3 then .done a
    else if epoch.time = 0 then .proposePush 0 7 fun _ => .proposePush 0 8 fun _ => .done a
    else .proposePop 2 fun _ => .done a

def relay : Junction := { link := 1, source := 0, destination := 2 }

def relayConfig : Config := .ofKinds [.queue, .link, .queue, .process]

def relayWorld : QueueWorld Unit ℕ where
  queues p := { id := p, entryCapacity := 4, system := some 0 }
  links p := { id := p, source := 0, destination := 2, system := some 0 }
  agents := ()

/-- The host schedules the Work of objects. -/
def scheduleAll : List WorkItem → Unit → Prog Unit ℕ
  | [], a => .done a
  | i :: items, a => .scheduleWork i.id i.epoch fun _ => scheduleAll items a

def relayStart (items : List WorkItem) : State (QueueWorld Unit ℕ) :=
  let m := queueModel relayConfig relayAgents
  hostCall m (fun w => (scheduleAll items w.agents).compile w) (State.fresh m relayWorld)

/-- The state after `n` steps. -/
def relayAt (items : List WorkItem) : ℕ → State (QueueWorld Unit ℕ)
  | 0 => relayStart items
  | n + 1 => (step (queueModel relayConfig relayAgents) (relayAt items n)).2

theorem relay_placed : relay.Placed relayConfig := by
  refine ⟨rfl, rfl, rfl, by decide, by decide, fun id p hp => ?_⟩
  exact Config.eq_of_lookup_ofKinds hp

theorem relayAgents_respects : relayAgents.Respects relay.mayPush relay.mayPop := by
  refine ⟨fun p epoch a => ?_, fun _ _ _ => trivial, fun _ _ _ => trivial⟩
  unfold relayAgents
  dsimp only
  split
  · trivial
  split
  · exact ⟨rfl, fun _ => ⟨rfl, fun _ => trivial⟩⟩
  · exact ⟨rfl, fun _ => trivial⟩

theorem relayStart_run (items : List WorkItem) (ok : State (QueueWorld Unit ℕ) → Prop) :
    LinkRun relayConfig relay relayAgents ok (relayStart items) := by
  have hjoined : relay.Joined relayConfig relayWorld := by
    refine ⟨rfl, rfl, rfl, rfl, rfl, rfl, rfl, rfl, fun p hp hkind => ?_⟩
    match p, hp, hkind with
    | 1, hp, _ => exact absurd rfl hp
    | 0, _, hkind | 2, _, hkind | 3, _, hkind | p + 4, _, hkind => cases hkind
  refine .host _ ⟨scheduleAll items, fun a => ?_, rfl⟩
    (.fresh relayWorld ⟨⟨?_, ?_, rfl, rfl⟩, hjoined⟩)
  · induction items with
    | nil => trivial
    | cons i items ih => exact fun _ => ih
  · exact fun _ => rfl
  · exact fun _ => rfl

/-- The first entry reaches queue 2 in the second tick. -/
theorem queueLink_exactly_once_relay :
    ((relayAt [⟨⟨0, 0⟩, 3⟩, ⟨⟨1, 0⟩, 1⟩] 2).world.queues 2).past.published = [7] ∧
    MovedOnce relay (relayAt [⟨⟨0, 0⟩, 3⟩, ⟨⟨1, 0⟩, 1⟩] 2).world := by
  have hrun : LinkRun relayConfig relay relayAgents
      (fun s => ¬ Torn (queueModel relayConfig relayAgents) relay s)
      (relayAt [⟨⟨0, 0⟩, 3⟩, ⟨⟨1, 0⟩, 1⟩] 2) := by
    refine .step (.step (relayStart_run _ _) ?_) ?_
    · exact not_torn_of_cut (by decide)
    · exact not_torn_of_cut (by decide)
  exact ⟨by decide, (queueLink_exactly_once relay_placed relayAgents_respects hrun).1⟩

/-- Queue 2 has committed a pop in the tick when the link moves the second entry: the commit
loop publishes the pop of queue 0 and the count of the link, and then rejects queue 2. -/
theorem rejected_destination_loses_entry :
    LinkRun relayConfig relay relayAgents (fun _ => True)
      (relayAt [⟨⟨0, 0⟩, 3⟩, ⟨⟨1, 0⟩, 1⟩, ⟨⟨2, 0⟩, 3⟩, ⟨⟨2, 1⟩, 1⟩] 4) ∧
    ((relayAt [⟨⟨0, 0⟩, 3⟩, ⟨⟨1, 0⟩, 1⟩, ⟨⟨2, 0⟩, 3⟩, ⟨⟨2, 1⟩, 1⟩] 4).world.links 1).transferred = 2 ∧
    ((relayAt [⟨⟨0, 0⟩, 3⟩, ⟨⟨1, 0⟩, 1⟩, ⟨⟨2, 0⟩, 3⟩, ⟨⟨2, 1⟩, 1⟩] 4).world.queues
      2).past.published = [7] ∧
    ¬ MovedOnce relay (relayAt [⟨⟨0, 0⟩, 3⟩, ⟨⟨1, 0⟩, 1⟩, ⟨⟨2, 0⟩, 3⟩, ⟨⟨2, 1⟩, 1⟩] 4).world := by
  refine ⟨?_, by decide, by decide, fun h => absurd h.counted (by decide)⟩
  exact .step (.step (.step (.step (relayStart_run _ _) trivial) trivial) trivial) trivial

end AgenticCircuit.Gfsim
