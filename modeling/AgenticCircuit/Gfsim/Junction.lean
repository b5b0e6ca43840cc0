import AgenticCircuit.Gfsim.QueueSystem

/-! # Junctions

A junction is a link with the two queues it joins.  The link is the only one that pops from the
source and the only one that pushes to the destination.

* **`Placed`** and **`Joined`** say that the three objects are wired up.
* **`Elsewhere`** is what all other objects can do to a junction.
* **`Phase`** follows the three parts of a transfer (a pop, a push and a pending count) through
  the epoch: they are proposed together and published one after the other.
* **`Coupled`** relates the histories of the two queues and the counter of the link, and
  **`Stamped`** the epochs of their commits. -/

namespace AgenticCircuit.Gfsim

open QueueWorld

open Relation (ReflTransGen)

/-! ### Junctions -/

/-- A link and the queues it joins. -/
structure Junction where
  link : Ptr
  source : Ptr
  destination : Ptr

namespace Junction

variable {A α : Type} (j : Junction) (c : Config)

def members : List Ptr := [j.source, j.link, j.destination]

/-- Nobody but the link pushes to the destination. -/
def mayPush (p : Ptr) : Bool := decide (p ≠ j.destination)

/-- Nobody but the link pops from the source. -/
def mayPop (p : Ptr) : Bool := decide (p ≠ j.source)

/-- The three objects are registered under their own IDs. -/
structure Placed : Prop where
  link : (c.info j.link).kind = .link
  source : (c.info j.source).kind = .queue
  destination : (c.info j.destination).kind = .queue
  distinct : j.source ≠ j.destination
  found : ∀ p ∈ j.members, c.lookup (c.info p).id = some p
  own : ∀ id p, c.lookup id = some p → (c.info p).id = id

/-- The three objects are bound to one system, and the other links end elsewhere. -/
structure Joined (w : QueueWorld A α) : Prop where
  source : (w.links j.link).source = j.source
  destination : (w.links j.link).destination = j.destination
  linkId : (w.links j.link).id = (c.info j.link).id
  sourceId : (w.queues j.source).id = (c.info j.source).id
  destinationId : (w.queues j.destination).id = (c.info j.destination).id
  linkBound : (w.links j.link).system.isSome
  sourceBound : (w.queues j.source).system.isSome
  sameSystem : (w.queues j.source).system = (w.queues j.destination).system
  others : ∀ p, p ≠ j.link → (c.info p).kind = .link →
    j.mayPop (w.links p).source = true ∧ j.mayPush (w.links p).destination = true

end Junction

/-- No method of an agent exceeds the allowance. -/
structure Agents.Respects {A α : Type} (agents : Agents A α) (mayPush mayPop : Ptr → Bool) :
    Prop where
  doWork : ∀ p epoch a, (agents.doWork p epoch a).Respects mayPush mayPop
  doArbitrate : ∀ p epoch a, (agents.doArbitrate p epoch a).Respects mayPush mayPop
  doXfer : ∀ p epoch a, (agents.doXfer p epoch a).Respects mayPush mayPop

/-! ### The two ends -/

section ends

variable {α : Type} [PacketTraits α] {q q' : SimQueue α}

/-- What is left alone when entries are pushed only. -/
structure PushedOnly (q q' : SimQueue α) : Prop where
  id : q'.id = q.id
  system : q'.system = q.system
  pops : q'.popProposalCount = q.popProposalCount
  handedOut : q'.past.handedOut = q.past.handedOut
  poppedAt : q'.past.poppedAt = q.past.poppedAt
  accounted : q.past.published ++ q.pushProposals = q.past.accepted →
    q'.past.published ++ q'.pushProposals = q'.past.accepted
  fifo : FifoInv q → FifoInv q'

/-- What is left alone when entries are popped only. -/
structure PoppedOnly (q q' : SimQueue α) : Prop where
  id : q'.id = q.id
  system : q'.system = q.system
  pushes : q'.pushProposals = q.pushProposals
  accepted : q'.past.accepted = q.past.accepted
  published : q'.past.published = q.past.published
  publishedAt : q'.past.publishedAt = q.past.publishedAt

theorem pushedOnly_of_uses (h : ReflTransGen (QueueUse true false) q q') : PushedOnly q q' := by
  induction h with
  | refl => exact ⟨rfl, rfl, rfl, rfl, rfl, fun h => h, fun h => h⟩
  | tail _ huse ih =>
    have hfifo := fun h => (ih.fifo h).use huse
    cases huse with
    | push element _ hadmits =>
      refine ⟨ih.id, ih.system, ih.pops, ih.handedOut, ih.poppedAt, fun h => ?_, hfifo⟩
      have haccounted := ih.accounted h
      simp [SimQueue.acceptPush, ← haccounted]
    | pop hmay => cases hmay
    | code =>
      exact ⟨ih.id, ih.system, ih.pops, ih.handedOut, ih.poppedAt, ih.accounted, hfifo⟩

theorem poppedOnly_of_uses (h : ReflTransGen (QueueUse false true) q q') : PoppedOnly q q' := by
  induction h with
  | refl => exact ⟨rfl, rfl, rfl, rfl, rfl, rfl⟩
  | tail _ huse ih =>
    cases huse with
    | push _ hmay => cases hmay
    | pop | code => exact ⟨ih.id, ih.system, ih.pushes, ih.accepted, ih.published, ih.publishedAt⟩

end ends

/-! ### The other objects -/

section elsewhere

variable {A α : Type} [PacketTraits α] {j : Junction} {c : Config} {w w' u : QueueWorld A α}

/-- A change of the world by an object that is not part of the junction. -/
structure Elsewhere (j : Junction) (w w' : QueueWorld A α) : Prop where
  link : w'.links j.link = w.links j.link
  ends : ∀ p, (w'.links p).source = (w.links p).source ∧
    (w'.links p).destination = (w.links p).destination
  source : ReflTransGen (QueueUse true false) (w.queues j.source) (w'.queues j.source)
  destination : ReflTransGen (QueueUse false true) (w.queues j.destination)
    (w'.queues j.destination)

variable {p : Ptr} {q : SimQueue α} {epoch : Epoch}

theorem Elsewhere.trans (h : Elsewhere j w u) (h' : Elsewhere j u w') : Elsewhere j w w' :=
  ⟨h'.link.trans h.link, fun p => ⟨(h'.ends p).1.trans (h.ends p).1, (h'.ends p).2.trans (h.ends p).2⟩,
    h.source.trans h'.source, h.destination.trans h'.destination⟩

theorem elsewhere_of_eq (hqueues : w'.queues = w.queues) (hlinks : w'.links = w.links) :
    Elsewhere j w w' := by
  refine ⟨by rw [hlinks], fun p => by rw [hlinks]; exact ⟨rfl, rfl⟩, ?_, ?_⟩
  · rw [hqueues]
  · rw [hqueues]

theorem elsewhere_of_uses {mayRead : Ptr → Prop}
    (h : ReflTransGen (WorldUse mayRead j.mayPush j.mayPop) w w') :
    Elsewhere j w w' := by
  have hlinks := links_eq_of_uses h
  refine ⟨by rw [hlinks], fun p => by rw [hlinks]; exact ⟨rfl, rfl⟩, ?_, ?_⟩
  · refine uses_mono (queues_of_uses h j.source) (fun _ => rfl) fun hpop => ?_
    simp [Junction.mayPop] at hpop
  · refine uses_mono (queues_of_uses h j.destination) (fun hpush => ?_) fun _ => rfl
    simp [Junction.mayPush] at hpush

theorem elsewhere_setQueue (hsource : p ≠ j.source) (hdestination : p ≠ j.destination) :
    Elsewhere j w (w.setQueue p q) := by
  refine ⟨rfl, fun _ => ⟨rfl, rfl⟩, ?_, ?_⟩
  · rw [setQueue_queues_of_ne hsource.symm]
  · rw [setQueue_queues_of_ne hdestination.symm]

theorem elsewhere_of_quiet (h : ReflTransGen (QueueUse false false) (w.queues p) q) :
    Elsewhere j w (w.setQueue p q) := by
  have huses : ReflTransGen (WorldUse (fun _ => True) j.mayPush j.mayPop) w (w.setQueue p q) :=
    .single (.queues (update_uses (uses_mono h nofun nofun)))
  exact elsewhere_of_uses huses

theorem elsewhere_modifyLink {f : QueueLink → QueueLink} (hp : p ≠ j.link)
    (hf : QueueLink.KeepsEnds f) : Elsewhere j w (w.modifyLink p f) := by
  refine ⟨modifyLink_links_of_ne hp.symm, fun p' => ?_, .refl, .refl⟩
  by_cases hp' : p' = p
  · rw [hp', modifyLink_links_self]
    exact hf (w.links p)
  · rw [modifyLink_links_of_ne hp']
    exact ⟨rfl, rfl⟩

theorem elsewhere_workLink (hp : p ≠ j.link) (hpop : j.mayPop (w.links p).source = true)
    (hpush : j.mayPush (w.links p).destination = true) (hleaf : (w.workLink p epoch).Leaf w') :
    Elsewhere j w w' := by
  obtain ⟨f, f', u, hf, hf', huses, rfl⟩ := workLink_uses hpop hpush hleaf
  have hfirst : Elsewhere j w (w.modifyLink p f) := elsewhere_modifyLink hp hf
  exact (hfirst.trans (elsewhere_of_uses huses)).trans (elsewhere_modifyLink hp hf')

theorem elsewhere_clocked {b : QueueWorld A α → Body (QueueWorld A α)}
    (hb : ∀ u', (b { w with clock := some epoch }).Leaf u' →
      Elsewhere j { w with clock := some epoch } u') (hleaf : (w.clocked epoch b).Leaf w') :
    Elsewhere j w w' := by
  obtain ⟨u, hu, hleaf⟩ := (Body.leaf_bind _).mp hleaf
  cases Body.leaf_pure.mp hleaf
  have hmiddle := hb u hu
  exact ⟨hmiddle.link, hmiddle.ends, hmiddle.source, hmiddle.destination⟩

omit [PacketTraits α] in
/-- The wiring depends on the identities of the objects only. -/
theorem Junction.Joined.congr (hw : j.Joined c w)
    (hends : ∀ p, (w'.links p).source = (w.links p).source ∧
      (w'.links p).destination = (w.links p).destination)
    (hlink : (w'.links j.link).id = (w.links j.link).id ∧
      (w'.links j.link).system = (w.links j.link).system)
    (hsource : (w'.queues j.source).id = (w.queues j.source).id ∧
      (w'.queues j.source).system = (w.queues j.source).system)
    (hdestination : (w'.queues j.destination).id = (w.queues j.destination).id ∧
      (w'.queues j.destination).system = (w.queues j.destination).system) : j.Joined c w' := by
  constructor
  · rw [(hends j.link).1]
    exact hw.source
  · rw [(hends j.link).2]
    exact hw.destination
  · rw [hlink.1]
    exact hw.linkId
  · rw [hsource.1]
    exact hw.sourceId
  · rw [hdestination.1]
    exact hw.destinationId
  · rw [hlink.2]
    exact hw.linkBound
  · rw [hsource.2]
    exact hw.sourceBound
  · rw [hsource.2, hdestination.2]
    exact hw.sameSystem
  · intro p hp hkind
    rw [(hends p).1, (hends p).2]
    exact hw.others p hp hkind

theorem Junction.Joined.elsewhere (hw : j.Joined c w) (h : Elsewhere j w w') : j.Joined c w' := by
  have hsource := pushedOnly_of_uses h.source
  have hdestination := poppedOnly_of_uses h.destination
  refine hw.congr h.ends ?_ ⟨hsource.id, hsource.system⟩ ⟨hdestination.id, hdestination.system⟩
  rw [h.link]
  exact ⟨rfl, rfl⟩

end elsewhere

/-! ### The phases of a transfer -/

section phases

variable {A α : Type} {j : Junction} {c : Config} {sys sys' : SimSystem} {w w' : QueueWorld A α}

/-- The parts of a transfer that the three objects hold. -/
structure Holding (j : Junction) (w : QueueWorld A α) (pops pushes pending : ℕ) : Prop where
  pops : (w.queues j.source).popProposalCount = pops
  pushes : (w.queues j.destination).pushProposals.length = pushes
  pending : (w.links j.link).pendingTransfer.toNat = pending

/-- What an object still holds in the commit loop: one part until its Xfer. -/
def left (c : Config) (done : List ObjectId) (p : Ptr) : ℕ :=
  if (c.info p).id ∈ done then 0 else 1

/-- A transfer in the course of an epoch. -/
inductive Phase (j : Junction) (c : Config) (sys : SimSystem) (w : QueueWorld A α) : Prop
  | idle (h : Holding j w 0 0 0)
  | proposed (executing : sys.terminated = false → sys.executingEpoch = true)
      (hopen : sys.trail.gathered = false) (hnone : sys.trail.xferDone = [])
      (hworked : (w.links j.link).lastWorkEpoch = some sys.epoch) (h : Holding j w 1 1 1)
      (henrolled : ∀ p ∈ j.members, (c.info p).id ∈ sys.commitParticipants)
  | committing (executing : sys.terminated = false → sys.executingEpoch = true)
      (gathered : sys.trail.gathered = true)
      (hworked : (w.links j.link).lastWorkEpoch = some sys.epoch)
      (h : Holding j w (left c sys.trail.xferDone j.source)
        (left c sys.trail.xferDone j.destination) (left c sys.trail.xferDone j.link))
      (henrolled : ∀ p ∈ j.members, (c.info p).id ∈ sys.xferObjects)

/-- What a phase reads of the system. -/
structure SamePhase (sys sys' : SimSystem) : Prop where
  epoch : sys'.epoch = sys.epoch
  executing : sys'.terminated = false → sys.terminated = false ∧
    sys'.executingEpoch = sys.executingEpoch
  gathered : sys'.trail.gathered = sys.trail.gathered
  done : sys'.trail.xferDone = sys.trail.xferDone
  objects : sys'.xferObjects = sys.xferObjects
  participants : sys.commitParticipants ⊆ sys'.commitParticipants

theorem Phase.same (hw : Phase j c sys w) (h : SamePhase sys sys') : Phase j c sys' w := by
  cases hw with
  | idle hw => exact .idle hw
  | proposed executing hopen hnone hworked hw henrolled =>
    refine .proposed (fun live => ?_) (h.gathered.trans hopen) (h.done.trans hnone) ?_ hw
      fun p hp => h.participants (henrolled p hp)
    · rw [(h.executing live).2]
      exact executing (h.executing live).1
    · rw [h.epoch]
      exact hworked
  | committing executing gathered hworked hw henrolled =>
    refine .committing (fun live => ?_) (h.gathered.trans gathered) ?_ ?_ ?_
    · rw [(h.executing live).2]
      exact executing (h.executing live).1
    · rw [h.epoch]
      exact hworked
    · rw [h.done]
      exact hw
    · rw [h.objects]
      exact henrolled

theorem samePhase_of_call (h : Call c sys sys') : SamePhase sys sys' := by
  cases h with
  | register live executing howner htarget =>
    exact ⟨rfl, fun h => ⟨h, rfl⟩, rfl, rfl, rfl, fun id hid => (mem_insertSet _).mpr (Or.inr hid)⟩
  | fail live hd => exact ⟨rfl, nofun, rfl, rfl, rfl, fun _ h => h⟩
  | _ => exact ⟨rfl, fun h => ⟨h, rfl⟩, rfl, rfl, rfl, fun _ h => h⟩

theorem Phase.calls (hw : Phase j c sys w) (h : ReflTransGen (Call c) sys sys') :
    Phase j c sys' w := by
  induction h with
  | refl => exact hw
  | tail _ hstep ih => exact ih.same (samePhase_of_call hstep)

theorem Phase.holding (hw : Phase j c sys w) (live : sys.terminated = false)
    (hclosed : sys.executingEpoch = false) : Holding j w 0 0 0 := by
  cases hw with
  | idle hw => exact hw
  | proposed executing | committing executing => cases hclosed.symm.trans (executing live)

/-- At the end of the commit loop everything is published. -/
theorem Phase.holding_of_xferred (hw : Phase j c sys w) (gathered : sys.trail.gathered = true)
    (hxfer : sys.xferObjects = sys.trail.xferDone) : Holding j w 0 0 0 := by
  cases hw with
  | idle hw => exact hw
  | proposed _ hopen => cases hopen.symm.trans gathered
  | committing _ _ _ hw henrolled =>
    have hleft (p : Ptr) (hp : p ∈ j.members) : left c sys.trail.xferDone p = 0 := by
      rw [left, if_pos]
      rw [← hxfer]
      exact henrolled p hp
    rw [hleft j.source (by simp [Junction.members]),
      hleft j.destination (by simp [Junction.members]),
      hleft j.link (by simp [Junction.members])] at hw
    exact hw

theorem Phase.move (hw : Phase j c sys w) (h : Move c sys sys')
    (hdone : sys'.trail.xferDone <+: sys.trail.xferDone) : Phase j c sys' w := by
  have hsame {t : SimSystem} (hepoch : t.epoch = sys.epoch)
      (hterm : t.terminated = sys.terminated) (hexec : t.executingEpoch = sys.executingEpoch)
      (hgathered : t.trail.gathered = sys.trail.gathered)
      (hxferred : t.trail.xferDone = sys.trail.xferDone)
      (hobjects : t.xferObjects = sys.xferObjects)
      (hparticipants : t.commitParticipants = sys.commitParticipants) : Phase j c t w :=
    hw.same ⟨hepoch, fun h => ⟨hterm ▸ h, hexec⟩, hgathered, hxferred, hobjects,
      hparticipants ▸ fun _ h => h⟩
  cases h with
  | call h => exact hw.same (samePhase_of_call h)
  | openEpoch live hclosed => exact .idle (hw.holding live hclosed)
  | gather live executing hwork hopen hnone =>
    cases hw with
    | idle hw => exact .idle hw
    | proposed executing _ _ hworked hw henrolled =>
      refine .committing executing rfl hworked ?_ fun p hp =>
        (mem_unionSet _).mpr (Or.inr (henrolled p hp))
      have hleft (p : Ptr) : left c (sys.gatherParticipants).trail.xferDone p = 1 := by
        change left c sys.trail.xferDone p = 1
        rw [hnone]
        rfl
      rw [hleft, hleft, hleft]
      exact hw
    | committing _ gathered => cases hopen.symm.trans gathered
  | markXfer => exact absurd hdone.length_le (by simp [SimSystem.markXfer])
  | commitEvents =>
    unfold SimSystem.commitEvents
    split <;> exact hsame rfl rfl rfl rfl rfl rfl rfl
  | close live executing hfree hwork gathered hxfer =>
    exact .idle (hw.holding_of_xferred gathered hxfer)
  | note | mark | take | count | startWork | publish | asked =>
    exact hsame rfl rfl rfl rfl rfl rfl rfl

theorem left_append (c : Config) (done : List ObjectId) (id : ObjectId) (p : Ptr) :
    left c (done ++ [id]) p = if (c.info p).id = id then 0 else left c done p := by
  by_cases hid : (c.info p).id = id
  · simp [left, hid]
  · simp [left, hid]

/-- The three parts, less that of the object `id`. -/
def HoldingWithout (j : Junction) (c : Config) (id : ObjectId) (w : QueueWorld A α)
    (pops pushes pending : ℕ) : Prop :=
  Holding j w (if (c.info j.source).id = id then 0 else pops)
    (if (c.info j.destination).id = id then 0 else pushes)
    (if (c.info j.link).id = id then 0 else pending)

/-- The Xfer of a participant takes its part of the transfer. -/
theorem Phase.xfer {id : ObjectId} (hw : Phase j c sys w) (gathered : sys.trail.gathered = true)
    (hworked : (w'.links j.link).lastWorkEpoch = (w.links j.link).lastWorkEpoch)
    (h : ∀ pops pushes pending, Holding j w pops pushes pending →
      HoldingWithout j c id w' pops pushes pending) : Phase j c (sys.markXfer id) w' := by
  cases hw with
  | idle hw =>
    have hnext := h 0 0 0 hw
    rw [HoldingWithout, ite_self, ite_self, ite_self] at hnext
    exact .idle hnext
  | proposed _ hopen => cases hopen.symm.trans gathered
  | committing executing gathered hlast hw henrolled =>
    refine .committing executing gathered (hworked.trans hlast) ?_ henrolled
    have hdone : (sys.markXfer id).trail.xferDone = sys.trail.xferDone ++ [id] := rfl
    rw [hdone, left_append, left_append, left_append]
    exact h _ _ _ hw

end phases

/-! ### The invariant -/

section invariant

/-- The epochs in which the source has published pops and the destination pushes. -/
structure Stamped (j : Junction) (now : Epoch) (w : QueueWorld A α) : Prop where
  same : (w.queues j.source).past.poppedAt ++
      List.replicate (w.queues j.source).popProposalCount now =
    (w.queues j.destination).past.publishedAt ++
      List.replicate (w.queues j.destination).pushProposals.length now
  increasing : (w.queues j.destination).past.publishedAt.Pairwise (· < ·)
  past : ∀ e ∈ (w.queues j.destination).past.publishedAt, e < now ∨
    (e = now ∧ (w.links j.link).lastWorkEpoch = some now ∧
      (w.queues j.destination).pushProposals = [])

variable {A α : Type} [PacketTraits α] {j : Junction} {c : Config} {now : Epoch}
  {sys : SimSystem} {w w' : QueueWorld A α}

/-- The histories of the two queues and the counter of the link. -/
structure Coupled (j : Junction) (w : QueueWorld A α) : Prop where
  fifo : FifoInv (w.queues j.source)
  source : (w.queues j.source).past.published ++ (w.queues j.source).pushProposals =
    (w.queues j.source).past.accepted
  destination : (w.queues j.destination).past.published ++ (w.queues j.destination).pushProposals =
    (w.queues j.destination).past.accepted
  moved : (w.queues j.destination).past.accepted = (w.queues j.source).past.handedOut
  count : (w.links j.link).transferred + (w.links j.link).pendingTransfer.toNat =
    (w.queues j.source).past.handedOut.length
  stamps : (w.queues j.destination).past.publishedAt.length =
    (w.queues j.destination).past.published.length
  code : (w.links j.link).runtimeFailureCode ≠ "queue_link_atomic_proposal_failed"

theorem Coupled.elsewhere (hw : Coupled j w) (h : Elsewhere j w w') : Coupled j w' := by
  have hsource := pushedOnly_of_uses h.source
  have hdestination := poppedOnly_of_uses h.destination
  constructor
  · exact hsource.fifo hw.fifo
  · exact hsource.accounted hw.source
  · rw [hdestination.published, hdestination.pushes, hdestination.accepted]
    exact hw.destination
  · rw [hdestination.accepted, hsource.handedOut]
    exact hw.moved
  · rw [h.link, hsource.handedOut]
    exact hw.count
  · rw [hdestination.publishedAt, hdestination.published]
    exact hw.stamps
  · rw [h.link]
    exact hw.code

theorem Stamped.elsewhere (hw : Stamped j now w) (h : Elsewhere j w w') : Stamped j now w' := by
  have hsource := pushedOnly_of_uses h.source
  have hdestination := poppedOnly_of_uses h.destination
  constructor
  · rw [hsource.poppedAt, hsource.pops, hdestination.publishedAt, hdestination.pushes]
    exact hw.same
  · rw [hdestination.publishedAt]
    exact hw.increasing
  · rw [hdestination.publishedAt, h.link, hdestination.pushes]
    exact hw.past

theorem Holding.elsewhere {pops pushes pending : ℕ} (hw : Holding j w pops pushes pending)
    (h : Elsewhere j w w') : Holding j w' pops pushes pending := by
  constructor
  · rw [(pushedOnly_of_uses h.source).pops]
    exact hw.pops
  · rw [(poppedOnly_of_uses h.destination).pushes]
    exact hw.pushes
  · rw [h.link]
    exact hw.pending

theorem Phase.elsewhere (hw : Phase j c sys w) (h : Elsewhere j w w') : Phase j c sys w' := by
  cases hw with
  | idle hw => exact .idle (hw.elsewhere h)
  | proposed executing hopen hnone hworked hw henrolled =>
    exact .proposed executing hopen hnone (h.link ▸ hworked) (hw.elsewhere h) henrolled
  | committing executing gathered hworked hw henrolled =>
    exact .committing executing gathered (h.link ▸ hworked) (hw.elsewhere h) henrolled

/-- The invariant of a junction inside a step. -/
structure LinkInv (j : Junction) (c : Config) (s : State (QueueWorld A α)) : Prop where
  joined : j.Joined c s.world
  coupled : Coupled j s.world
  stamped : Stamped j s.sys.epoch s.world
  phase : Phase j c s.sys s.world

variable {s : State (QueueWorld A α)}

theorem LinkInv.elsewhere {t : SimSystem} (hs : LinkInv j c s) (h : Elsewhere j s.world w)
    (hphase : Phase j c t s.world) (hepoch : t.epoch = s.sys.epoch) : LinkInv j c ⟨t, w⟩ :=
  ⟨hs.joined.elsewhere h, hs.coupled.elsewhere h, by rw [hepoch]; exact hs.stamped.elsewhere h,
    hphase.elsewhere h⟩

end invariant

end AgenticCircuit.Gfsim
