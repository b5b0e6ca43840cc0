import AgenticCircuit.Gfsim.Activation
import AgenticCircuit.Gfsim.Stagewise

/-! # The Xfer barrier when a pending commit is rejected

At the barrier all participants validate their pending state and then commit in ascending ID; the
check that a stateful object commits once in a tick is part of the second loop.

* A rejection by **validation** leaves everything as it was at the barrier.
* A rejection by the **once-per-tick check** does so exactly when the first participant with a
  pending commit is one that has committed in the tick before: any other participant that comes
  first has already published (`xfer_barrier_atomic`).

The commit loop can also end in the Xfer of a participant itself.  `cut` is how far it comes, and
`step_interrupted` says that all other early returns of a step are outside the loop. -/

namespace AgenticCircuit.Gfsim

open Exit SimSystem Occurrence List Or

open Relation (ReflTransGen)

/-- The diagnostics of a rejected pending commit. -/
def Diagnostic.ofRejection : Diagnostic → Bool
  | .pendingRejected _ | .multipleStatefulCommits => true
  | _ => false

variable {c : Config} {s t : SimSystem}

theorem Diagnostic.ofRejection_of_ofCall {d : Diagnostic} (h : d.ofCall = true) :
    d.ofRejection = false := by
  cases d with
  | pendingRejected | multipleStatefulCommits => cases h
  | _ => rfl

theorem Call.publishedAt_eq (h : Call c s t) (id : ObjectId) :
    t.publishedAt id = s.publishedAt id := by
  have hrecord (o : Occurrence) (ho : o.publishedEpoch id = none) :
      (s.trail.history ++ [o]).filterMap (publishedEpoch id) = s.publishedAt id := by
    rw [filterMap_append, filterMap_cons_none ho, filterMap_nil, append_nil]
    rfl
  cases h with
  | schedule | accept => exact hrecord _ rfl
  | _ => rfl

theorem publishedAt_eq_of_calls (h : ReflTransGen (Call c) s t) (id : ObjectId) :
    t.publishedAt id = s.publishedAt id := by
  induction h with
  | refl => rfl
  | tail _ hstep ih => rw [hstep.publishedAt_eq, ih]

@[simp] theorem publishedAt_markXfer (s : SimSystem) (id id' : ObjectId) :
    (s.markXfer id).publishedAt id' = s.publishedAt id' := by
  simp [publishedAt, markXfer, publishedEpoch]

theorem publishedAt_markCommitted (c : Config) (s : SimSystem) (id id' : ObjectId) :
    (s.markCommitted c id).publishedAt id' =
      s.publishedAt id' ++ if id = id' then [s.epoch] else [] := by
  by_cases h : id = id'
  · simp [publishedAt, markCommitted, publishedEpoch, h]
  · simp [publishedAt, markCommitted, publishedEpoch, h]

theorem diagnostic_of_calls (h : ReflTransGen (Call c) s t) (hs : s.terminated = false)
    (ht : t.terminated = true) :
    ∃ d : Diagnostic, d.ofCall = true ∧ t.result.diagnostic = some d := by
  cases h with
  | refl =>
    rw [hs] at ht
    cases ht
  | tail _ hstep =>
    have hlive := hstep.live
    cases hstep with
    | @fail d _ hd => exact ⟨d, hd, rfl⟩
    | _ =>
      have hterm := hlive.symm.trans ht
      cases hterm

section barrier

variable {W : Type} {m : Model W} {s q r t : State W} {id : ObjectId}

/-- The pending state of a participant passes the participant's own check. -/
def pendingValid (m : Model W) (w : W) (id : ObjectId) : Bool :=
  (m.config.lookup id).all (fun p => m.hooks.validatePendingCommit p w)

/-- The first participant with a pending commit, when they are visited in order from `s`. -/
def firstPending (m : Model W) : List ObjectId → State W → Option ObjectId
  | [], _ => none
  | id :: rest, s =>
    if willCommit m s id then some id else firstPending m rest (commitOne m id s).2

/-- The step from `s` reaches its Xfer barrier in `q` and fails there, in `t`, because a
pending commit is rejected. -/
structure Rejection (m : Model W) (s q t : State W) : Prop where
  reached : proposeEpoch m s = (some (), q)
  returned : xfer m q = (none, t)
  diagnosed : ∃ d : Diagnostic, t.sys.result.diagnostic = some d ∧ d.ofRejection = true

/-- A reading of the committed state of the objects: an Xfer with nothing pending leaves it
alone. -/
def ReadsCommitted (m : Model W) {C : Type} (view : W → C) : Prop :=
  ∀ p e w sys, m.hooks.hasPendingCommit p w = false →
    view ((m.hooks.doXfer p e w).exec m.config sys).2 = view w

/-- Between `q` and `t` no participant has applied its commit. -/
structure Atomic (m : Model W) (q t : State W) : Prop where
  unpublished : ∀ id, t.sys.publishedAt id = q.sys.publishedAt id
  unchanged : ∀ (C : Type) (view : W → C), ReadsCommitted m view → view t.world = view q.world

variable {Φ : Option Unit → State W → Prop}

theorem Atomic.trans (h : Atomic m q r) (h' : Atomic m r t) : Atomic m q t :=
  ⟨fun id => (h'.unpublished id).trans (h.unpublished id), fun C view hview =>
    (h'.unchanged C view hview).trans (h.unchanged C view hview)⟩

/-! ### Validation -/

theorem validateOne_ends (id : ObjectId) : Ends (validateOne m id) s fun o t =>
    (o = some () ∧ s = t ∧ pendingValid m s.world id = true) ∨
    (o = none ∧ Atomic m s t ∧ pendingValid m s.world id = false) := by
  refine ends_get_bind ?_
  dsimp only
  unfold pendingValid
  split
  · rename_i hp
    rw [hp]
    exact ends_pure (inl ⟨rfl, rfl, rfl⟩)
  rename_i p hp
  rw [hp]
  split
  · rename_i hvalid
    exact ends_pure (inl ⟨rfl, rfl, hvalid⟩)
  · rename_i hvalid
    exact ends_stop (inr ⟨rfl, ⟨fun _ => rfl, fun _ _ _ => rfl⟩,
      (Bool.not_eq_true _).mp hvalid⟩)

/-- The first loop of the barrier changes nothing. -/
theorem forEach_validateOne_ends (l : List ObjectId) : Ends (forEach l (validateOne m)) s fun o t =>
      (o = some () ∧ s = t ∧ ∀ id ∈ l, pendingValid m s.world id = true) ∨
      (o = none ∧ Atomic m s t ∧ ∃ id ∈ l, pendingValid m s.world id = false) := by
  induction l with
  | nil => exact ends_pure (inl ⟨rfl, rfl, nofun⟩)
  | cons id rest ih =>
    refine ends_bind (Ends.mono (validateOne_ends id) ?_)
    rintro o t (⟨rfl, rfl, hvalid⟩ | ⟨rfl, hatomic, hinvalid⟩)
    · refine Ends.mono ih ?_
      rintro o t (⟨ho, ht, hall⟩ | ⟨ho, hatomic, id', hid', hinvalid⟩)
      · refine inl ⟨ho, ht, fun id' hid' => ?_⟩
        rcases mem_cons.mp hid' with rfl | hid'
        · exact hvalid
        · exact hall id' hid'
      · exact inr ⟨ho, hatomic, id', mem_cons_of_mem _ hid', hinvalid⟩
    · exact inr ⟨rfl, hatomic, id, mem_cons_self, hinvalid⟩

/-! ### The commit loop -/

/-- What a round of the commit loop that goes on has done. -/
structure CommitRound (m : Model W) (id : ObjectId) (s t : State W) : Prop where
  live : t.sys.terminated = false
  epoch : t.sys.epoch = s.sys.epoch
  lastCommit : willCommit m s id = false → t.sys.lastCommitTick = s.sys.lastCommitTick
  published : ∀ id', t.sys.publishedAt id' = s.sys.publishedAt id' ++
    if willCommit m s id = true ∧ id = id' then [s.sys.epoch] else []
  quiet : willCommit m s id = false → Atomic m s t

/-- The Xfer of `id` ends the run: a call made by its method fails, it leaves a failure code, or
its observations cannot be committed. -/
def failsInXfer (m : Model W) (s : State W) (id : ObjectId) : Bool :=
  let t := (xferObject m id s).2
  t.sys.terminated ||
    (m.config.lookup id).any (fun p => !(m.hooks.runtimeFailureCode p t.world).isEmpty) ||
    willCommit m s id && !(t.sys.observations.commitOwner id t.sys.epoch).2

theorem callObject_ends {method : Ptr → Epoch → W → Body W}
    (hnone : m.config.lookup id = none → Φ (some ()) s)
    (hsome : ∀ p, m.config.lookup id = some p → Φ (some ()) (s.call m method p)) :
    Ends (callObject m method id) s Φ := by
  unfold callObject
  split
  · rename_i hp
    exact ends_pure (hnone hp)
  · rename_i p hp
    exact ends_modify (hsome p hp)

theorem xferObject_ends : Ends (xferObject m id) s fun o t =>
    o = some () ∧ ReflTransGen (Call m.config) (s.sys.markXfer id) t.sys ∧
      (willCommit m s id = false → Atomic m s t) := by
  have hsame (id' : ObjectId) : (s.sys.markXfer id).publishedAt id' = s.sys.publishedAt id' :=
    publishedAt_markXfer s.sys id id'
  refine ends_bind (ends_modify (callObject_ends (fun _ => ?_) fun p hp => ?_))
  · exact ⟨rfl, .refl, fun _ => ⟨hsame, fun _ _ _ => rfl⟩⟩
  have hcalls : ReflTransGen (Call m.config) (s.sys.markXfer id)
      (State.call m m.hooks.doXfer p { s with sys := s.sys.markXfer id }).sys :=
    Body.exec_calls _ _ _
  refine ⟨rfl, hcalls, fun hpending => ⟨fun id' => ?_, fun C view hview => ?_⟩⟩
  · exact (publishedAt_eq_of_calls hcalls id').trans (hsame id')
  · have hnone : m.hooks.hasPendingCommit p s.world = false := by
      rw [willCommit, hp] at hpending
      exact hpending
    exact hview p _ _ _ hnone

theorem returnIfTerminated_ends (hterm : s.sys.terminated = true → Φ none s)
    (hlive : s.sys.terminated = false → Φ (some ()) s) : Ends returnIfTerminated s Φ := by
  refine ends_get_bind ?_
  split
  · rename_i h
    exact ends_stop (hterm h)
  · rename_i h
    exact ends_pure (hlive ((Bool.not_eq_true _).mp h))

/-- The end of a round: a failure here is not a rejection. -/
theorem closeRound_ends {committed : Bool} :
    Ends (do returnIfFailed m id; publishObservations id committed) s fun o t =>
      t.world = s.world ∧ (o = none ↔
        ((m.config.lookup id).any (fun p => !(m.hooks.runtimeFailureCode p s.world).isEmpty) ||
          committed && !(s.sys.observations.commitOwner id s.sys.epoch).2) = true) ∧
      (o = some () → t.sys.control = s.sys.control ∧ t.sys.trail = s.sys.trail) ∧
      (o = none → ∃ d : Diagnostic, t.sys.result.diagnostic = some d ∧ d.ofRejection = false) := by
  have hpublish : Ends (publishObservations id committed) s fun o t =>
      t.world = s.world ∧
      (o = none ↔ (committed && !(s.sys.observations.commitOwner id s.sys.epoch).2) = true) ∧
      (o = some () → t.sys.control = s.sys.control ∧ t.sys.trail = s.sys.trail) ∧
      (o = none → ∃ d : Diagnostic, t.sys.result.diagnostic = some d ∧ d.ofRejection = false) := by
    refine ends_get_bind ?_
    dsimp only
    split
    · rename_i hcommitted
      split
      · rename_i haccepted
        exact ends_modify ⟨rfl, by simp [haccepted], fun _ => ⟨rfl, rfl⟩, nofun⟩
      · rename_i hrefused
        exact ends_stop ⟨rfl, by simp [hcommitted, hrefused], nofun, fun _ => ⟨_, rfl, rfl⟩⟩
    · rename_i hquiet
      exact ends_modify ⟨rfl, by simp [hquiet], fun _ => ⟨rfl, rfl⟩, nofun⟩
  refine ends_bind (ends_get_bind ?_)
  dsimp only
  split
  · rename_i hnone
    refine ends_pure (Ends.mono hpublish fun o t ht => ⟨ht.1, ht.2.1.trans ?_, ht.2.2⟩)
    simp [hnone]
  rename_i p hp
  split
  · rename_i hempty
    refine ends_pure (Ends.mono hpublish fun o t ht => ⟨ht.1, ht.2.1.trans ?_, ht.2.2⟩)
    simp [hp, hempty]
  · rename_i hcode
    exact ends_stop ⟨rfl, by simp [hp, hcode], nofun, fun _ => ⟨_, rfl, rfl⟩⟩

/-- A round whose commit is not rejected ends the loop if and only if its own Xfer fails, which is
not a rejection either. -/
theorem commitOne_ends
    (hfirst : (willCommit m s id && s.sys.committedThisTick m.config id) = false) :
    Ends (commitOne m id) s fun o t => t.world = (xferObject m id s).2.world ∧
      (o = none ↔ failsInXfer m s id = true) ∧ (o = some () → CommitRound m id s t) ∧
      (s.sys.terminated = false → o = none →
        ∃ d : Diagnostic, t.sys.result.diagnostic = some d ∧ d.ofRejection = false) := by
  have hxfer : Ends (xferObject m id) s fun o t => (xferObject m id s).2 = t ∧ o = some () ∧
      ReflTransGen (Call m.config) (s.sys.markXfer id) t.sys ∧
        (willCommit m s id = false → Atomic m s t) := ⟨rfl, xferObject_ends⟩
  refine ends_congr (commitOne_eq id hfirst) (ends_bind (Ends.mono hxfer ?_))
  rintro o u ⟨hu, rfl, hcalls, hquiet⟩
  unfold failsInXfer
  rw [hu]
  have hcontrol := control_eq_of_calls hcalls
  have hepoch : u.sys.epoch = s.sys.epoch := congrArg Control.epoch hcontrol
  have hlast : u.sys.lastCommitTick = s.sys.lastCommitTick :=
    congrArg Control.lastCommitTick hcontrol
  -- the state in which the end of the round starts
  let v : SimSystem := if willCommit m s id then u.sys.markCommitted m.config id else u.sys
  have hrecord : Ends (recordCommit m id (willCommit m s id)) u
      fun o t => o = some () ∧ t = ⟨v, u.world⟩ := by
    unfold recordCommit
    split
    · rename_i h
      exact ends_modify ⟨rfl, by simp [v, h]⟩
    · rename_i h
      exact ends_pure ⟨rfl, by simp only [v, h]; rfl⟩
  have hv : v.terminated = u.sys.terminated ∧ v.epoch = u.sys.epoch ∧ v.result = u.sys.result ∧
      v.observations = u.sys.observations := by
    simp only [v]
    split
    · exact ⟨rfl, rfl, rfl, rfl⟩
    · exact ⟨rfl, rfl, rfl, rfl⟩
  obtain ⟨hvterm, hvepoch, hvresult, hvobservations⟩ := hv
  refine ends_bind (Ends.mono hrecord ?_)
  rintro _ _ ⟨rfl, rfl⟩
  refine ends_bind (returnIfTerminated_ends (fun hterm => ⟨rfl, ?_, nofun, fun live _ => ?_⟩)
    fun hlive => ?_)
  · simp [← hvterm, show v.terminated = true from hterm]
  · obtain ⟨d, hd, hdiagnostic⟩ := diagnostic_of_calls hcalls live (hvterm ▸ hterm)
    exact ⟨d, (congrArg TerminationResult.diagnostic hvresult).trans hdiagnostic,
      Diagnostic.ofRejection_of_ofCall hd⟩
  refine Ends.mono closeRound_ends fun o t ⟨htworld, hreturns, hgoes, hd⟩ =>
    ⟨htworld, hreturns.trans ?_, fun ho => ?_, fun _ => hd⟩
  · dsimp only
    rw [hvepoch, hvobservations, ← hvterm, show v.terminated = false from hlive, Bool.false_or]
  obtain ⟨htcontrol, httrail⟩ := hgoes ho
  have hpublished (id' : ObjectId) : t.sys.publishedAt id' = s.sys.publishedAt id' ++
      if willCommit m s id = true ∧ id = id' then [s.sys.epoch] else [] := by
    have hsame : t.sys.publishedAt id' = v.publishedAt id' := by
      rw [publishedAt, httrail]
      rfl
    rw [hsame, ← publishedAt_markXfer s.sys id, ← publishedAt_eq_of_calls hcalls id', ← hepoch]
    by_cases hpending : willCommit m s id = true
    · simp [v, hpending, publishedAt_markCommitted]
    · simp [v, hpending]
  refine ⟨(congrArg Control.terminated htcontrol).trans hlive,
    (congrArg Control.epoch htcontrol).trans (hvepoch.trans hepoch), fun hpending => ?_,
    hpublished, fun hpending => ⟨fun id' => ?_, fun C view hview => ?_⟩⟩
  · refine (congrArg Control.lastCommitTick htcontrol).trans ?_
    simp only [v, hpending]
    exact hlast
  · rw [hpublished id']
    simp [hpending]
  · rw [htworld]
    exact (hquiet hpending).unchanged C view hview

theorem commitOne_goes_on {rest : List ObjectId} (live : s.sys.terminated = false)
    (hfirst : (willCommit m s id && s.sys.committedThisTick m.config id) = false)
    (h : forEach (id :: rest) (commitOne m) s = (none, t))
    (hrejected : ∃ d : Diagnostic, t.sys.result.diagnostic = some d ∧ d.ofRejection = true) :
    ∃ r, commitOne m id s = (some (), r) ∧ CommitRound m id s r ∧
      forEach rest (commitOne m) r = (none, t) := by
  have hround := commitOne_ends hfirst
  rcases bind_eq_none.mp h with hone | ⟨_, r, hone, hloop⟩
  · obtain ⟨d, hd, hnot⟩ := (hround.of_eq hone).2.2.2 live rfl
    obtain ⟨d', hd', hrej⟩ := hrejected
    cases hd.symm.trans hd'
    cases hnot.symm.trans hrej
  · exact ⟨r, hone, (hround.of_eq hone).2.2.1 rfl, hloop⟩

/-- A commit loop that ends in a rejection: the first participant with a pending commit decides
whether anything has been published. -/
theorem forEach_commitOne_rejected : ∀ (l : List ObjectId) {s : State W},
    s.sys.terminated = false → forEach l (commitOne m) s = (none, t) →
    (∃ d : Diagnostic, t.sys.result.diagnostic = some d ∧ d.ofRejection = true) →
    (∀ id, (s.sys.publishedAt id).length ≤ (t.sys.publishedAt id).length) ∧
    ∃ id, firstPending m l s = some id ∧
      ((s.sys.committedThisTick m.config id = true ∧ Atomic m s t) ∨
        (s.sys.committedThisTick m.config id = false ∧
          (s.sys.publishedAt id).length < (t.sys.publishedAt id).length))
  | [], _, _, h, _ => by cases h
  | id :: rest, s, live, h, hrejected => by
    cases hreject : willCommit m s id && s.sys.committedThisTick m.config id with
    | true =>
      obtain ⟨hpending, hagain⟩ := Bool.and_eq_true_iff.mp hreject
      have hone : commitOne m id s = failWith .multipleStatefulCommits s := by
        change (if _ then _ else _ : Exit (State W) Unit) s = _
        rw [if_pos hreject]
      have hfail : forEach (id :: rest) (commitOne m) s =
          (none, { s with sys := s.sys.fail .multipleStatefulCommits }) :=
        bind_of_eq_none hone
      cases h.symm.trans hfail
      refine ⟨fun _ => le_refl _, id, ?_, inl ⟨hagain, fun _ => rfl, fun _ _ _ => rfl⟩⟩
      rw [firstPending, if_pos hpending]
    | false =>
      obtain ⟨r, hone, hr, hloop⟩ := commitOne_goes_on live hreject h hrejected
      obtain ⟨hgrows, first, hfirst, hcases⟩ :=
        forEach_commitOne_rejected rest hr.live hloop hrejected
      have hmono (id' : ObjectId) :
          (s.sys.publishedAt id').length ≤ (r.sys.publishedAt id').length := by
        rw [hr.published id', length_append]
        omega
      refine ⟨fun id' => le_trans (hmono id') (hgrows id'), ?_⟩
      cases hpending : willCommit m s id with
      | true =>
        rw [hpending, Bool.true_and] at hreject
        refine ⟨id, by rw [firstPending, if_pos hpending], inr ⟨hreject, ?_⟩⟩
        have hself : (r.sys.publishedAt id).length = (s.sys.publishedAt id).length + 1 := by
          rw [hr.published id, if_pos ⟨hpending, rfl⟩, length_append]
          rfl
        have hle := hgrows id
        omega
      | false =>
        have hquiet := hr.quiet hpending
        have hsame := committedThisTick_congr (c := m.config) (hr.lastCommit hpending)
          hr.epoch first
        refine ⟨first, ?_, ?_⟩
        · rw [firstPending, if_neg (by rw [hpending]; exact Bool.false_ne_true), hone]
          exact hfirst
        · rw [hsame, hquiet.unpublished first] at hcases
          exact hcases.imp_left fun h => ⟨h.1, hquiet.trans h.2⟩

/-- **The Xfer barrier and rejected commits.**  When a step fails because a pending commit is
rejected, no participant has applied its commit if and only if the rejection comes from the
validation of pending state, or the first participant with a pending commit is one that has
already committed in the tick. -/
theorem xfer_barrier_atomic (hs : Reachable m s) (h : Rejection m s q t) :
    Atomic m q t ↔ (∃ id ∈ q.sys.xferObjects, pendingValid m q.world id = false) ∨
      ∃ id, firstPending m q.sys.xferObjects q = some id ∧
        q.sys.committedThisTick m.config id = true := by
  have live : q.sys.terminated = false := by
    cases hterm : s.sys.terminated with
    | true =>
      have hreached := h.reached
      rw [proposeEpoch_of_terminated hterm] at hreached
      cases hreached
    | false =>
      exact ((along_proposeEpoch ((reaches_timely hs).2 hterm).2).next () q h.reached).2.live
  have hvalidate := forEach_validateOne_ends (m := m) (s := q) q.sys.xferObjects
  have hreturned : (do
      forEach q.sys.xferObjects (validateOne m)
      forEach (← Exit.get).sys.xferObjects (commitOne m)
      onSys (fun s => s.commitEvents)) q = (none, t) := h.returned
  rcases bind_eq_none.mp hreturned with hstop | ⟨_, r, hgo, hrest⟩
  · rcases hvalidate.of_eq hstop with ⟨ho, _⟩ | ⟨_, hatomic, hinvalid⟩
    · cases ho
    · exact ⟨fun _ => Or.inl hinvalid, fun _ => hatomic⟩
  rcases hvalidate.of_eq hgo with ⟨_, rfl, hvalid⟩ | ⟨ho, _⟩
  swap
  · cases ho
  have hnot : ¬ ∃ id ∈ q.sys.xferObjects, pendingValid m q.world id = false := by
    rintro ⟨id, hid, hinvalid⟩
    cases (hvalid id hid).symm.trans hinvalid
  have hcommits : (do
      forEach q.sys.xferObjects (commitOne m)
      onSys (fun s => s.commitEvents)) q = (none, t) := hrest
  rcases bind_eq_none.mp hcommits with hloop | ⟨_, r, _, hevents⟩
  swap
  · cases hevents
  obtain ⟨_, id, hfirst, ⟨hagain, hatomic⟩ | ⟨hfresh, hpublished⟩⟩ :=
    forEach_commitOne_rejected _ live hloop h.diagnosed
  · exact ⟨fun _ => Or.inr ⟨id, hfirst, hagain⟩, fun _ => hatomic⟩
  · constructor
    · intro hatomic
      rw [hatomic.unpublished id] at hpublished
      exact absurd hpublished (lt_irrefl _)
    · rintro (hinvalid | ⟨id', hfirst', hagain⟩)
      · exact absurd hinvalid hnot
      · cases hfirst.symm.trans hfirst'
        cases hfresh.symm.trans hagain

/-! ### Where the commit loop ends -/

/-- The step from `s` stands at its Xfer barrier in `q`, and every participant has passed its
own check. -/
structure AtXfer (m : Model W) (s q : State W) : Prop where
  reached : proposeEpoch m s = (some (), q)
  valid : ∀ id ∈ q.sys.xferObjects, pendingValid m q.world id = true

/-- The participants that come to their Xfer before the commit loop ends early, if it does. -/
def cut (m : Model W) : List ObjectId → State W → Option (List ObjectId)
  | [], _ => none
  | id :: rest, s =>
    if willCommit m s id && s.sys.committedThisTick m.config id then some []
    else if failsInXfer m s id then some [id]
    else (cut m rest (commitOne m id s).2).map (id :: ·)

/-- The rule for the commit loop: what each Xfer does to the world, up to the point where the
loop ends. -/
theorem forEach_commitOne_cut {P : List ObjectId → W → Prop}
    (hxfer : ∀ done id s, P done s.world → P (done ++ [id]) (xferObject m id s).2.world) :
    ∀ (l : List ObjectId) {s : State W} {done : List ObjectId}, P done s.world →
      Ends (forEach l (commitOne m)) s fun o t => (o = some () ∧ cut m l s = none) ∨
        (o = none ∧ ∃ more, cut m l s = some more ∧ P (done ++ more) t.world)
  | [], _, _, _ => ends_pure (inl ⟨rfl, rfl⟩)
  | id :: rest, s, done, hs => by
    cases hreject : willCommit m s id && s.sys.committedThisTick m.config id with
    | true =>
      have hone : commitOne m id s = failWith .multipleStatefulCommits s := by
        change (if _ then _ else _ : Exit (State W) Unit) s = _
        rw [if_pos hreject]
      refine ends_bind (ends_congr hone (ends_stop (inr ⟨rfl, [], ?_, ?_⟩)))
      · rw [cut, if_pos hreject]
      · rw [append_nil]
        exact hs
    | false =>
      have hcut : cut m (id :: rest) s = if failsInXfer m s id then some [id]
          else (cut m rest (commitOne m id s).2).map (id :: ·) := by
        rw [cut, if_neg (by rw [hreject]; exact Bool.false_ne_true)]
      have hnext := hxfer done id s hs
      have hround : Ends (commitOne m id) s fun o t => t.world = (xferObject m id s).2.world ∧
          (o = none ↔ failsInXfer m s id = true) ∧ (commitOne m id s).2 = t :=
        ⟨(commitOne_ends hreject).1, (commitOne_ends hreject).2.1, rfl⟩
      refine ends_bind (Ends.mono hround ?_)
      rintro o t ⟨hworld, hreturns, ht⟩
      rw [ht] at hcut
      rw [← hworld] at hnext
      cases o with
      | none =>
        refine inr ⟨rfl, [id], ?_, hnext⟩
        rw [hcut, if_pos (hreturns.mp rfl)]
      | some _ =>
        have hgoes : ¬ failsInXfer m s id = true := fun h => by cases hreturns.mpr h
        rw [if_neg hgoes] at hcut
        refine Ends.mono (forEach_commitOne_cut hxfer rest hnext) ?_
        rintro o u (⟨ho, hnone⟩ | ⟨ho, more, hmore, hu⟩)
        · refine inl ⟨ho, ?_⟩
          rw [hcut, hnone]
          rfl
        · refine inr ⟨ho, id :: more, ?_, ?_⟩
          · rw [hcut, hmore]
            rfl
          · rw [append_cons]
            exact hu

namespace Tally

def Ungathered (t : Tally) : Prop := t.marks.gathered = false

def Unmarked (t : Tally) : Prop := t.marks.xferDone = []

def AllMarked (t : Tally) : Prop := t.marks.xferObjects = t.marks.xferDone

/-- The commit loop is not under way. -/
def OutsideLoop (t : Tally) : Prop := t.Ungathered ∨ t.Unmarked ∨ t.AllMarked

end Tally

open Tally

theorem keeps_ungathered : m.Keeps (fun t _ => t.Ungathered) fun t _ => t.Ungathered :=
  Model.keeps_tally fun _ ht => ht

theorem keeps_unmarked : m.Keeps (fun t _ => t.Unmarked) fun t _ => t.Unmarked :=
  Model.keeps_tally fun _ ht => ht

theorem ungathered_preflight : Unseen Ungathered (preflight m) :=
  kept_preflight keeps_ungathered (carries_modify fun _ hs => hs) fun _ _ _ _ ht => ht

/-- Work and arbitration mark nobody. -/
theorem propose_unmarked : Ends (propose m) s fun _ t => t.sys.tally.Unmarked := by
  have hopened : Unseen Unmarked (do
      forEach (← Exit.get).sys.currentWork (workOne m)
      onSys (fun s => s.gatherParticipants)
      forEach (← Exit.get).sys.xferObjects (arbitrateOne m)) := by
    refine carries_get_bind fun _ _ =>
      carries_bind (carries_forEach (fun _ => kept_workOne keeps_unmarked fun _ _ _ _ _ ht _ => ht) _) fun _ => ?_
    refine carries_bind (kept_onSys fun _ _ hs => hs) fun _ => carries_get_bind fun _ _ => ?_
    exact carries_forEach (fun _ => kept_arbitrateOne keeps_unmarked) _
  exact Carries.always hopened (s := { s with sys := s.sys.openEpoch }) rfl

theorem proposeEpoch_outside (hs : s.sys.tally.Ungathered) :
    Ends (proposeEpoch m) s fun o t =>
      (o = none → t.sys.tally.OutsideLoop) ∧ (o = some () → t.sys.tally.Unmarked) := by
  have hdeliver : Unseen Ungathered (deliverEvents m) := kept_deliverEvents keeps_ungathered
  have hchecked : Ends (preflight m) s fun _ t => t.sys.tally.Ungathered :=
    Carries.always ungathered_preflight hs
  refine ends_bind (Ends.mono hchecked ?_)
  rintro (_ | _) r hr
  · exact ⟨fun _ => inl hr, nofun⟩
  have hdelivered : Ends (deliverEvents m) r fun _ t => t.sys.tally.Ungathered :=
    Carries.always hdeliver hr
  refine ends_bind (Ends.mono hdelivered ?_)
  rintro (_ | _) q _
  · rename_i hq
    exact ⟨fun _ => inl hq, nofun⟩
  · exact Ends.mono propose_unmarked fun _ t ht => ⟨fun _ => inr (inl ht), fun _ => ht⟩

/-- What a step does after its commit loop leaves all participants marked. -/
theorem allMarked_afterCommits : Unseen AllMarked (afterCommits m) :=
  kept_afterCommits (Model.keeps_tally fun _ ht => ht) (carries_modify fun _ hs => hs)
    fun _ _ ht => ht

theorem step_eq_loop : step m = (do
    proposeEpoch m
    forEach (← Exit.get).sys.xferObjects (validateOne m)
    forEach (← Exit.get).sys.xferObjects (commitOne m)
    afterCommits m) := by
  simp only [step, executeEpoch, commitEpoch, xfer, afterCommits, bind_assoc]

/-- A step that returns early does so outside the commit loop, or in the loop at the barrier. -/
theorem step_interrupted (hs : AtBoundary s.sys) : Ends (step m) s fun o t => o = none →
    t.sys.tally.OutsideLoop ∨
      ∃ q, AtXfer m s q ∧ forEach q.sys.xferObjects (commitOne m) q = (none, t) := by
  rw [step_eq_loop]
  have hpropose : Ends (proposeEpoch m) s fun o t => proposeEpoch m s = (o, t) ∧
      (o = none → t.sys.tally.OutsideLoop) ∧ (o = some () → t.sys.tally.Unmarked) :=
    ⟨rfl, proposeEpoch_outside hs.ungathered⟩
  refine ends_bind (Ends.mono hpropose ?_)
  rintro (_ | _) q ⟨hreached, houtside, hunmarked⟩
  · exact fun ho => inl (houtside ho)
  have hq : InEpoch q.sys.control [] true q.sys.xferObjects :=
    ((along_proposeEpoch hs).next () q hreached).2
  have hvalidate : Unseen Unmarked (forEach q.sys.xferObjects (validateOne m)) :=
    carries_forEach (fun _ => kept_validateOne keeps_unmarked) _
  have hvalidated : Ends (forEach q.sys.xferObjects (validateOne m)) q fun o t =>
      t.sys.tally.Unmarked ∧ ((o = some () ∧ q = t ∧ AtXfer m s q) ∨ o = none) := by
    refine ⟨Carries.always hvalidate (hunmarked rfl), ?_⟩
    rcases forEach_validateOne_ends (m := m) (s := q) q.sys.xferObjects with
      ⟨ho, ht, hvalid⟩ | ⟨ho, _⟩
    · exact inl ⟨ho, ht, hreached, hvalid⟩
    · exact inr ho
  refine ends_get_bind (ends_bind (Ends.mono hvalidated ?_))
  rintro _ t ⟨ht, ⟨rfl, rfl, hatXfer⟩ | rfl⟩
  swap
  · exact fun _ => inl (inr (inl ht))
  have hcommit : Ends (forEach q.sys.xferObjects (commitOne m)) q fun o t =>
      forEach q.sys.xferObjects (commitOne m) q = (o, t) := rfl
  refine ends_get_bind (ends_bind (Ends.mono hcommit ?_))
  rintro (_ | _) t hloop
  · exact fun _ => inr ⟨q, hatXfer, hloop⟩
  have hdone : InEpoch t.sys.control [] true [] :=
    ((along_forEach (fun is r => InEpoch r.sys.control [] true is)
      (fun _ _ _ hr => along_commitOne hr) _ hq).next () t hloop).2
  have hall : t.sys.tally.AllMarked := by
    have hxfer := hdone.xfer hdone.gathered
    rw [append_nil] at hxfer
    exact hxfer
  exact fun _ => inl (inr (inr (Carries.always allMarked_afterCommits hall)))

/-- A step whose commit loop ends early returns from there. -/
theorem step_of_interrupted (hq : AtXfer m s q)
    (hloop : forEach q.sys.xferObjects (commitOne m) q = (none, t)) :
    commitEpoch m s = (none, t) ∧ step m s = (none, t) := by
  have hvalidated : forEach q.sys.xferObjects (validateOne m) q = (some (), q) := by
    rcases hvalidate : forEach q.sys.xferObjects (validateOne m) q with ⟨o, t⟩
    rcases (forEach_validateOne_ends (m := m) _).of_eq hvalidate with
      ⟨rfl, rfl, _⟩ | ⟨_, _, id, hid, hinvalid⟩
    · rfl
    · cases (hq.valid id hid).symm.trans hinvalid
  have hbarrier : (do
      forEach q.sys.xferObjects (commitOne m)
      onSys (fun s => s.commitEvents)) q = (none, t) := bind_of_eq_none hloop
  have hxfer : xfer m q = (none, t) := (bind_of_eq_some hvalidated).trans hbarrier
  have hcommit : commitEpoch m s = (none, t) :=
    (bind_of_eq_some hq.reached).trans (bind_of_eq_none hxfer)
  exact ⟨hcommit, bind_of_eq_none (bind_of_eq_none hcommit)⟩

end barrier

/-- Two objects that always have a commit pending; the first counts its commits. -/
def pairModel : Model ℕ where
  config := .ofKinds [.compute, .compute]
  hooks :=
    { doXfer := fun p _ w => .done (if p = 0 then w + 1 else w)
      hasPendingCommit := fun _ _ => true }

/-- The host schedules both objects for the second delta of the first tick, and `early` for its
first delta. -/
def pairStart (early : ObjectId) : State ℕ :=
  hostCall pairModel (fun w => .scheduleWork 0 ⟨0, 1⟩ fun _ => .scheduleWork 1 ⟨0, 1⟩ fun _ =>
    .scheduleWork early ⟨0, 0⟩ fun _ => .done w) (State.fresh pairModel 0)

/-- The state after the first delta, in which `early` has committed. -/
def pairNext (early : ObjectId) : State ℕ := (step pairModel (pairStart early)).2

def pairBarrier (early : ObjectId) : State ℕ := (proposeEpoch pairModel (pairNext early)).2

def pairEnd (early : ObjectId) : State ℕ := (step pairModel (pairNext early)).2

/-- Both objects take part and the rejected one comes first. -/
theorem xfer_barrier_atomic_pair :
    Reachable pairModel (pairNext 0) ∧
    Rejection pairModel (pairNext 0) (pairBarrier 0) (pairEnd 0) ∧
    (pairBarrier 0).sys.xferObjects = [0, 1] ∧
    Atomic pairModel (pairBarrier 0) (pairEnd 0) := by
  have hs : Reachable pairModel (pairNext 0) := .step (.host _ trivial (.fresh 0 trivial)) trivial
  have h : Rejection pairModel (pairNext 0) (pairBarrier 0) (pairEnd 0) :=
    ⟨rfl, rfl, .multipleStatefulCommits, by decide, rfl⟩
  exact ⟨hs, h, by decide, (xfer_barrier_atomic hs h).mpr (Or.inr ⟨0, by decide, by decide⟩)⟩

/-- The first object has published when the second one is rejected. -/
theorem rejected_commit_leaves_earlier_commit :
    Reachable pairModel (pairNext 1) ∧
    Rejection pairModel (pairNext 1) (pairBarrier 1) (pairEnd 1) ∧
    (pairBarrier 1).world = 0 ∧ (pairEnd 1).world = 1 ∧
    ¬ Atomic pairModel (pairBarrier 1) (pairEnd 1) := by
  refine ⟨.step (.host _ trivial (.fresh 0 trivial)) trivial,
    ⟨rfl, rfl, .multipleStatefulCommits, by decide, rfl⟩, by decide, by decide, fun h => ?_⟩
  have hpublished := h.unpublished 0
  revert hpublished
  decide

end AgenticCircuit.Gfsim
