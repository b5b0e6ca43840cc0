import AgenticCircuit.Dialect.Protocol

/-! # Ownership on the paths of a protocol

The worklist of the verifier stops at illegal steps, and the discipline of ownership is about all paths.
When no step that leaves a marked state is illegal, every path is marked (`marked_of_path`), and what is
marked is reached by a path (`path_of_marked`); so the checks on the marks are the discipline
(`ownership_exact`). -/

namespace AgenticCircuit.Dialect.Protocol

open List Option ProtocolOp
open Relation (ReflTransGen)
open Worklist (flood)
variable {p : ProtocolOp} {s : String} {ts : List TransitionOp} {t : TransitionOp}

/-! ### Overlapping transitions -/

theorem verifyPriorities_ok {priorities : List Int64} : verifyPriorities priorities ts = .ok () ↔
      (∀ t ∈ ts, ∃ a, t.priority = some a ∧ a.toInt64 ∉ priorities) ∧
        ts.Pairwise fun t u => t.priority ≠ u.priority := by
  induction ts generalizing priorities with
  | nil => simp [verifyPriorities]
  | cons t rest ih =>
    rw [forall_mem_cons, pairwise_cons, verifyPriorities]
    cases hpriority : t.priority with
    | none => simp
    | some a =>
      by_cases ha : a.toInt64 ∈ priorities
      · simp [ha]
      · simp only [ha, ↓reduceIte, ih, mem_cons, not_or, some.injEq, exists_eq_left',
          not_false_eq_true, true_and]
        constructor
        · rintro ⟨hrest, hpairwise⟩
          refine ⟨fun u hu => ?_, fun u hu => ?_, hpairwise⟩
          · obtain ⟨b, hb, -, hnot⟩ := hrest u hu
            exact ⟨b, hb, hnot⟩
          · obtain ⟨b, hb, hne, -⟩ := hrest u hu
            rintro h
            obtain rfl : a = b := some.inj (h.trans hb)
            exact hne rfl
        · rintro ⟨hrest, hne, hpairwise⟩
          refine ⟨fun u hu => ?_, hpairwise⟩
          obtain ⟨b, hb, hnot⟩ := hrest u hu
          refine ⟨b, hb, fun h => hne u hu ?_, hnot⟩
          rw [hb, ← UInt64.toUInt64_toInt64 b, h, UInt64.toUInt64_toInt64]

theorem verifyOverlap_ok : verifyOverlap ts = .ok () ↔ DistinctPriorities ts := by
  unfold DistinctPriorities
  induction ts with
  | nil => simp [verifyOverlap]
  | cons t rest ih =>
    have hsame {u : TransitionOp} :
        u ∈ (rest.filter fun u => t.source = u.source ∧ t.event = u.event) ↔
          u ∈ rest ∧ t.source = u.source ∧ t.event = u.event := by
      simp
    rw [verifyOverlap, Checks.seq_ok, ih, pairwise_cons]
    refine and_congr_left fun hpairwise => ?_
    rw [verifyOverlapping]
    split
    · rename_i hoverlap
      have hnone : rest.filter (fun u => t.source = u.source ∧ t.event = u.event) = [] := by
        refine eq_nil_of_length_eq_zero ?_
        simp only [length_cons] at hoverlap
        omega
      refine iff_of_true rfl fun u hu hsource hevent => ?_
      have hmem := hsame.2 ⟨hu, hsource, hevent⟩
      rw [hnone] at hmem
      exact absurd hmem not_mem_nil
    · rename_i hoverlap
      rw [verifyPriorities_ok, forall_mem_cons, pairwise_cons]
      constructor
      · rintro ⟨⟨⟨a, ha, -⟩, hrest⟩, hne, -⟩ u hu hsource hevent
        have hmem := hsame.2 ⟨hu, hsource, hevent⟩
        obtain ⟨b, hb, -⟩ := hrest u hmem
        exact ⟨a, b, ha, hb, fun hab => hne u hmem (by rw [ha, hb, hab])⟩
      · intro h
        have hdistinct {u : TransitionOp}
            (hu : u ∈ rest.filter fun u => t.source = u.source ∧ t.event = u.event) :=
          h u (hsame.1 hu).1 (hsame.1 hu).2.1 (hsame.1 hu).2.2
        have hsome : ∃ u, u ∈ rest.filter fun u => t.source = u.source ∧ t.event = u.event := by
          refine exists_mem_of_length_pos ?_
          simp only [length_cons] at hoverlap
          omega
        refine ⟨⟨?_, fun u hu => ?_⟩, fun u hu => ?_, ?_⟩
        · obtain ⟨u, hu⟩ := hsome
          obtain ⟨a, -, ha, -⟩ := hdistinct hu
          exact ⟨a, ha, not_mem_nil⟩
        · obtain ⟨-, b, -, hb, -⟩ := hdistinct hu
          exact ⟨b, hb, not_mem_nil⟩
        · obtain ⟨a, b, ha, hb, hab⟩ := hdistinct hu
          rw [ha, hb]
          exact fun h => hab (some.inj h)
        · refine (hpairwise.filter _).imp_of_mem fun {u v} hu hv huv => ?_
          obtain ⟨-, hsource, hevent⟩ := hsame.1 hu
          obtain ⟨-, hsource', hevent'⟩ := hsame.1 hv
          obtain ⟨a, b, ha, hb, hab⟩ := huv (hsource.symm.trans hsource') (hevent.symm.trans hevent')
          rw [ha, hb]
          exact fun h => hab (some.inj h)

/-! ### One step -/

/-- The ownership of a state, as whether an item is pending. -/
def owned (pending : Bool) : Ownership := if pending then .pending else .noPending

theorem owned_surjective (o : Ownership) : ∃ pending, o = owned pending := by
  cases o with
  | noPending => exact ⟨false, rfl⟩
  | pending => exact ⟨true, rfl⟩

theorem owned_injective {a b : Bool} (h : owned a = owned b) : a = b := by
  revert h
  cases a <;> cases b <;> decide

section steps

variable (p : ProtocolOp)

/-- An offer while an item is pending, or an answer to an offer while none is. -/
def Illegal (t : TransitionOp) (pending : Bool) : Prop :=
  (p.action t = some .offer ∧ pending = true) ∨
    (p.action t ≠ some .offer ∧ (p.action t = some .retry ∨ Resolves p t) ∧ pending = false)

variable {p} {t : TransitionOp} {pending : Bool}

theorem transferOwnership_eq_some (hlocal : p.verifyLocal t = .ok ())
    {output : Ownership} : p.transferOwnership t (owned pending) = some output ↔
      ¬ Illegal p t pending ∧ output = owned (effect p t pending) := by
  -- an offer either transfers or retains
  have hoffer : p.action t = some .offer → t.retain = !t.transfer := by
    intro haction
    cases htransfer : t.transfer <;> cases hretain : t.retain <;>
      simp [verifyLocal, haction, htransfer, hretain] at hlocal ⊢
  have hretry : p.action t = some .retry → t.transfer = false := by
    intro haction
    cases htransfer : t.transfer <;> cases hretain : t.retain <;>
      simp [verifyLocal, haction, htransfer, hretain] at hlocal ⊢
  rcases haction : p.action t with _ | action
  · cases htransfer : t.transfer <;> cases pending <;>
      simp [transferOwnership, Illegal, effect, Resolves, haction, htransfer, owned, eq_comm]
  · cases action <;> cases htransfer : t.transfer <;> cases pending <;>
      simp [transferOwnership, Illegal, effect, Resolves, haction, htransfer, owned,
        hoffer, eq_comm] at hretry ⊢

theorem mem_next_iff {reached : String × Ownership}
    (hlocal : ∀ t ∈ p.transitions, p.verifyLocal t = .ok ()) : reached ∈ p.next (s, owned pending) ↔
      ∃ t ∈ p.transitions, t.source = s ∧ ¬ Illegal p t pending ∧
        reached = (t.target, owned (effect p t pending)) := by
  simp only [ProtocolOp.next, outgoing, mem_filterMap, mem_filter,
    decide_eq_true_eq, map_eq_some_iff]
  constructor
  · rintro ⟨t, ⟨ht, hsource⟩, output, houtput, rfl⟩
    obtain ⟨hlegal, rfl⟩ := (transferOwnership_eq_some (hlocal t ht)).1 houtput
    exact ⟨t, ht, hsource, hlegal, rfl⟩
  · rintro ⟨t, ht, hsource, hlegal, rfl⟩
    exact ⟨t, ⟨ht, hsource⟩, _, (transferOwnership_eq_some (hlocal t ht)).2 ⟨hlegal, rfl⟩, rfl⟩

end steps

/-! ### What is marked -/

section marks

variable {p : ProtocolOp} (hlocal : ∀ t ∈ p.transitions, p.verifyLocal t = .ok ())
  (hreferences : ∀ t ∈ p.transitions, p.verifyReferences t = .ok ())

/-- A state is marked with an ownership. -/
def Marked (p : ProtocolOp) (s : String) (pending : Bool) : Prop :=
  p.hasOwnership s (owned pending) = true

include hreferences in
theorem target_mem {t : TransitionOp} (ht : t ∈ p.transitions) :
    ∃ s ∈ p.states, s.symName = t.target := by
  have h := hreferences t ht
  unfold verifyReferences at h
  split_ifs at h with hsource htarget hevent
  rw [isNone_iff_eq_none, ← ne_eq, ne_none_iff_exists'] at htarget
  obtain ⟨s, hs⟩ := htarget
  unfold lookupState at hs
  have hname := find?_some hs
  exact ⟨s, mem_of_find?_eq_some hs, of_decide_eq_true hname⟩

variable {pending : Bool}

include hlocal hreferences in
theorem marked_iff : Marked p s pending ↔ ∃ i ∈ p.states, i.initial = true ∧
      ReflTransGen (fun x y => y ∈ p.next x) (i.symName, owned false) (s, owned pending) := by
  let univ : List (String × Ownership) :=
    p.states.flatMap fun s => [(s.symName, .noPending), (s.symName, .pending)]
  have hall {i : StateOp} (hi : i ∈ p.states) (o : Ownership) : (i.symName, o) ∈ univ := by
    refine mem_flatMap.2 ⟨i, hi, ?_⟩
    cases o <;> simp
  have huniv (a : String × Ownership)
      (ha : ∃ r ∈ (p.states.filter StateOp.initial).map fun s => (s.symName, .noPending),
        ReflTransGen (fun x y => y ∈ p.next x) r a) : a ∈ univ := by
    obtain ⟨r, hr, hreach⟩ := ha
    induction hreach with
    | refl =>
      obtain ⟨i, hi, rfl⟩ := mem_map.1 hr
      exact hall (mem_of_mem_filter hi) _
    | @tail b c _ hnext _ =>
      obtain ⟨pending, hb⟩ := owned_surjective b.2
      obtain ⟨t, ht, -, -, rfl⟩ := (mem_next_iff hlocal).1
        (show c ∈ p.next (b.1, owned pending) from hb ▸ hnext)
      obtain ⟨i, hi, hname⟩ := target_mem hreferences ht
      exact hname ▸ hall hi _
  have hbudget : univ.length < p.budget := by
    have hlength : univ.length = 2 * p.states.length := by
      simp [univ, length_flatMap, Nat.mul_comm]
    simp [hlength, budget]
  refine (Worklist.flood_marked_iff huniv hbudget (s, owned pending)).trans ?_
  constructor
  · rintro ⟨r, hr, hreach⟩
    obtain ⟨i, hi, rfl⟩ := mem_map.1 hr
    exact ⟨i, mem_of_mem_filter hi, (mem_filter.1 hi).2, hreach⟩
  · rintro ⟨i, hi, hinitial, hreach⟩
    exact ⟨_, mem_map.2 ⟨i, mem_filter.2 ⟨hi, hinitial⟩, rfl⟩, hreach⟩

include hlocal hreferences in
theorem path_of_marked (h : Marked p s pending) : ∃ ts, Path p ts s pending := by
  obtain ⟨i, hi, hinitial, hreach⟩ := (marked_iff hlocal hreferences).1 h
  suffices h : ∀ a, ReflTransGen (fun x y => y ∈ p.next x) (i.symName, owned false) a →
      ∃ ts pending, a.2 = owned pending ∧ Path p ts a.1 pending by
    obtain ⟨ts, pending', howned, hpath⟩ := h _ hreach
    obtain rfl := owned_injective howned
    exact ⟨ts, hpath⟩
  intro a hreach
  induction hreach with
  | refl => exact ⟨[], false, rfl, .start hi hinitial⟩
  | @tail b c _ hnext ih =>
    obtain ⟨ts, pending, hb, hpath⟩ := ih
    obtain ⟨t, ht, hsource, -, rfl⟩ := (mem_next_iff hlocal).1
      (show c ∈ p.next (b.1, owned pending) from hb ▸ hnext)
    exact ⟨ts ++ [t], _, rfl, hpath.step ht hsource⟩

include hlocal hreferences in
theorem marked_of_path (hlegal : ∀ t ∈ p.transitions, ∀ pending, Marked p t.source pending →
      ¬ Illegal p t pending) (h : Path p ts s pending) : Marked p s pending := by
  induction h with
  | start hi hinitial =>
    exact (marked_iff hlocal hreferences).2 ⟨_, hi, hinitial, .refl⟩
  | @step ts state pending t _ ht hsource ih =>
    obtain ⟨i, hi, hinitial, hreach⟩ := (marked_iff hlocal hreferences).1 ih
    have hnext : (t.target, owned (effect p t pending)) ∈ p.next (state, owned pending) :=
      (mem_next_iff hlocal).2 ⟨t, ht, hsource, hlegal t ht pending (hsource ▸ ih), rfl⟩
    exact (marked_iff hlocal hreferences).2 ⟨i, hi, hinitial, hreach.tail hnext⟩

end marks

/-! ### The checks on the marks -/

/-- What `verifyOwnership` asks of the marks. -/
structure WellMarked (p : ProtocolOp) : Prop where
  determined : ∀ s ∈ p.states, ¬ (Marked p s.symName false ∧ Marked p s.symName true)
  legal : ∀ t ∈ p.transitions, ∀ pending, Marked p t.source pending → ¬ Illegal p t pending
  reached : ∀ t ∈ p.transitions, p.action t = some .retry ∨ Resolves p t →
    Marked p t.source false ∨ Marked p t.source true
  settled : ∀ s ∈ p.states, Marked p s.symName true →
    s.terminal = false ∧ ∃ t ∈ p.transitions, t.source = s.symName

theorem verifySettled_ok {s : StateOp} :
    p.verifySettled s = .ok () ↔ (Marked p s.symName true →
      s.terminal = false ∧ ∃ t ∈ p.transitions, t.source = s.symName) := by
  have hnone : p.outgoing s.symName = [] ↔ ¬ ∃ t ∈ p.transitions, t.source = s.symName := by
    simp [outgoing]
  unfold verifySettled Marked owned
  by_cases hmarked : p.hasOwnership s.symName .pending = true
  · cases hterminal : s.terminal <;> simp [hnone]
  · simp [hmarked]

/-- The four checks for illegal steps, at one transition. -/
theorem legal_iff : (∀ pending, Marked p t.source pending → ¬ Illegal p t pending) ↔
      ¬ (p.action t = some .offer && p.hasOwnership t.source .pending) = true ∧
      ¬ (p.action t = some .retry && p.hasOwnership t.source .noPending) = true ∧
      ¬ ((p.action t = some .cancel || p.action t = some .reject) &&
        p.hasOwnership t.source .noPending) = true ∧
      ¬ (t.transfer && p.action t ≠ some .offer && p.action t ≠ some .retry &&
        p.action t ≠ some .cancel && p.action t ≠ some .reject &&
        p.hasOwnership t.source .noPending) = true := by
  unfold Marked Illegal Resolves owned
  rcases haction : p.action t with _ | action
  · cases t.transfer <;> simp
  · cases action <;> cases t.transfer <;> simp

theorem reached_iff :
    (p.action t = some .retry ∨ Resolves p t → Marked p t.source false ∨ Marked p t.source true) ↔
      ¬ (!(p.hasOwnership t.source .noPending || p.hasOwnership t.source .pending) &&
        (t.transfer || p.action t = some .retry || p.action t = some .cancel ||
          p.action t = some .reject)) = true := by
  unfold Marked Resolves owned
  simp only [Bool.false_eq_true, ↓reduceIte]
  generalize p.hasOwnership t.source .noPending = unowned
  generalize p.hasOwnership t.source .pending = pending
  rcases p.action t with _ | action
  · cases t.transfer <;> cases unowned <;> cases pending <;> simp
  · cases action <;> cases t.transfer <;> cases unowned <;> cases pending <;> simp

theorem verifyOwnership_ok : p.verifyOwnership = .ok () ↔ WellMarked p := by
  unfold verifyOwnership
  simp only [Checks.seq_ok, Checks.refuse_ok, Checks.forM_ok, verifySettled_ok, find?_eq_none]
  constructor
  · rintro ⟨hconflict, hoffer, hretry, hresolve, htransfer, hreached, hsettled⟩
    refine ⟨fun s hs => ?_, fun t ht => ?_, fun t ht => ?_, hsettled⟩
    · simpa [Marked, owned] using hconflict s hs
    · exact legal_iff.2 ⟨hoffer t ht, hretry t ht, hresolve t ht, htransfer t ht⟩
    · exact reached_iff.2 (hreached t ht)
  · rintro ⟨hdetermined, hlegal, hreached, hsettled⟩
    refine ⟨fun s hs => ?_, fun t ht => ?_, fun t ht => ?_, fun t ht => ?_, fun t ht => ?_,
      fun t ht => ?_, hsettled⟩
    · simpa [Marked, owned] using hdetermined s hs
    · exact (legal_iff.1 (hlegal t ht)).1
    · exact (legal_iff.1 (hlegal t ht)).2.1
    · exact (legal_iff.1 (hlegal t ht)).2.2.1
    · exact (legal_iff.1 (hlegal t ht)).2.2.2
    · exact reached_iff.1 (hreached t ht)

section exactness

variable {p : ProtocolOp} (hreferences : ∀ t ∈ p.transitions, p.verifyReferences t = .ok ())
  (hlocal : ∀ t ∈ p.transitions, p.verifyLocal t = .ok ())

include hreferences in
theorem Path.exists_state {pending : Bool}
    (h : Path p ts s pending) : ∃ i ∈ p.states, i.symName = s := by
  cases h with
  | start hi _ => exact ⟨_, hi, rfl⟩
  | step _ ht _ => exact target_mem hreferences ht

include hlocal hreferences in
theorem wellMarked_iff : WellMarked p ↔ Owned p ∧ RetriesReachable p := by
  constructor
  · intro h
    have hmarked {ts : List TransitionOp} {s : String} {pending : Bool} (hpath : Path p ts s pending) :
        Marked p s pending := marked_of_path hlocal hreferences h.legal hpath
    have hreached {t : TransitionOp} (ht : t ∈ p.transitions)
        (hanswers : p.action t = some .retry ∨ Resolves p t) :
        ∃ ts pending, Path p ts t.source pending := by
      rcases h.reached t ht hanswers with hsource | hsource
      · obtain ⟨ts, hpath⟩ := path_of_marked hlocal hreferences hsource
        exact ⟨ts, _, hpath⟩
      · obtain ⟨ts, hpath⟩ := path_of_marked hlocal hreferences hsource
        exact ⟨ts, _, hpath⟩
    refine ⟨⟨fun {ts us state a b} ha hb => ?_, fun hpath ht hoffer => ?_,
      fun hpath ht hne hanswers => ?_, fun hs hpath => h.settled _ hs (hmarked hpath),
      fun t ht hresolves => hreached ht (.inr hresolves)⟩, fun t ht hretry => hreached ht (.inl hretry)⟩
    · obtain ⟨s, hs, rfl⟩ := ha.exists_state hreferences
      have hnot := h.determined s hs
      cases a <;> cases b
      · rfl
      · exact absurd ⟨hmarked ha, hmarked hb⟩ hnot
      · exact absurd ⟨hmarked hb, hmarked ha⟩ hnot
      · rfl
    · exact Bool.eq_false_iff.2 fun hpending =>
        h.legal _ ht _ (hmarked hpath) (.inl ⟨hoffer, hpending⟩)
    · exact Bool.eq_true_of_not_eq_false fun hpending =>
        h.legal _ ht _ (hmarked hpath) (.inr ⟨hne, hanswers, hpending⟩)
  · rintro ⟨h, hretries⟩
    have hlegal : ∀ t ∈ p.transitions, ∀ pending, Marked p t.source pending →
        ¬ Illegal p t pending := by
      intro t ht pending hmarked
      obtain ⟨ts, hpath⟩ := path_of_marked hlocal hreferences hmarked
      rintro (⟨hoffer, rfl⟩ | ⟨hne, hanswers, rfl⟩)
      · exact absurd (h.offers hpath ht hoffer) (by decide)
      · exact absurd (h.answers hpath ht hne hanswers) (by decide)
    refine ⟨fun s _ hboth => ?_, hlegal, fun t ht hanswers => ?_, fun s hs hmarked => ?_⟩
    · obtain ⟨ts, hnone⟩ := path_of_marked hlocal hreferences hboth.1
      obtain ⟨us, hsome⟩ := path_of_marked hlocal hreferences hboth.2
      exact absurd (h.determined hnone hsome) (by decide)
    · obtain ⟨ts, pending, hpath⟩ := hanswers.elim (hretries t ht) (h.resolved t ht)
      have hmarked := marked_of_path hlocal hreferences hlegal hpath
      cases pending
      · exact .inl hmarked
      · exact .inr hmarked
    · obtain ⟨ts, hpath⟩ := path_of_marked hlocal hreferences hmarked
      exact h.settles hs hpath

end exactness

/-- **Ownership of a protocol.**  Where the references resolve and the transitions keep the local rules,
the checks for overlaps and for ownership accept exactly when overlapping transitions have distinct
priorities, the ownership is respected on all paths, and every retry leaves a reachable state. -/
theorem ownership_exact
    (hreferences : ∀ t ∈ p.transitions, p.verifyReferences t = .ok ())
    (hlocal : ∀ t ∈ p.transitions, p.verifyLocal t = .ok ()) :
    (verifyOverlap p.transitions = .ok () ∧ p.verifyOwnership = .ok ()) ↔
      DistinctPriorities p.transitions ∧ Owned p ∧ RetriesReachable p := by
  rw [verifyOverlap_ok, verifyOwnership_ok, wellMarked_iff hreferences hlocal]

/-- An offer stays pending until it is accepted, is tried again or is cancelled. -/
def handshake : ProtocolOp where
  states := [⟨"idle", true, true⟩, ⟨"waiting", false, false⟩]
  events := [⟨"send", .offer⟩, ⟨"take", .accept⟩, ⟨"again", .retry⟩, ⟨"stop", .cancel⟩]
  transitions := [⟨"idle", "waiting", "send", none, false, true⟩,
    ⟨"waiting", "idle", "take", some 1, true, false⟩, ⟨"waiting", "idle", "take", some 0, true, false⟩,
    ⟨"waiting", "waiting", "again", none, false, true⟩,
    ⟨"waiting", "idle", "stop", none, false, false⟩]
  guarantees := [⟨"stable_pending", .boolean true⟩]
  symbols_nodup := by decide

theorem ownership_exact_handshake :
    DistinctPriorities handshake.transitions ∧ Owned handshake ∧ RetriesReachable handshake :=
  (ownership_exact (p := handshake) (by decide +kernel) (by decide +kernel)).1
    ⟨by decide +kernel, by decide +kernel⟩

/-- A retry in a state that is not reached. -/
def strayRetry : ProtocolOp where
  states := [⟨"idle", true, true⟩, ⟨"stray", false, false⟩]
  events := [⟨"again", .retry⟩]
  transitions := [⟨"stray", "stray", "again", none, false, true⟩]
  guarantees := []
  symbols_nodup := by decide

theorem strayRetry_path {pending : Bool}
    (h : Path strayRetry ts s pending) : s = "idle" ∧ pending = false := by
  induction h with
  | @start s hs hinitial =>
    have hall : ∀ s ∈ strayRetry.states, s.initial = true → s.symName = "idle" := by decide
    exact ⟨hall s hs hinitial, rfl⟩
  | @step _ state _ t _ ht hsource ih =>
    obtain rfl := mem_singleton.1 ht
    exact absurd (hsource.trans ih.1) (by decide)

/-- The ownership is respected on all paths of `strayRetry`, and no transition resolves a pending item;
the check for unreachable resolutions refuses its retry. -/
theorem stray_retry_refused :
    ¬ ∀ p : ProtocolOp, p.verifyInitial = .ok () →
      (∀ t ∈ p.transitions, p.verifyReferences t = .ok ()) →
      (∀ t ∈ p.transitions, p.verifyLocal t = .ok ()) →
      ((verifyOverlap p.transitions = .ok () ∧ p.verifyOwnership = .ok ()) ↔
        DistinctPriorities p.transitions ∧ Owned p) := by
  intro h
  have howned : Owned strayRetry := by
    have hsource : ∀ t ∈ strayRetry.transitions, t.source ≠ "idle" := by decide
    refine ⟨fun ha hb => ?_, fun hpath ht _ => ?_, fun hpath ht _ _ => ?_, fun _ hpath => ?_,
      fun t ht hresolves => ?_⟩
    · exact (strayRetry_path ha).2.trans (strayRetry_path hb).2.symm
    · exact absurd (strayRetry_path hpath).1 (hsource _ ht)
    · exact absurd (strayRetry_path hpath).1 (hsource _ ht)
    · exact absurd (strayRetry_path hpath).2 (by decide)
    · obtain rfl := mem_singleton.1 ht
      rcases hresolves with h | h | h
      · exact absurd h (by decide +kernel)
      · exact absurd h (by decide +kernel)
      · exact absurd h (by decide)
  have hdistinct : DistinctPriorities strayRetry.transitions := pairwise_singleton _ _
  have haccepts := (h strayRetry (by decide +kernel) (by decide +kernel) (by decide +kernel)).2
    ⟨hdistinct, howned⟩
  exact absurd haccepts.2 (by decide +kernel)

end AgenticCircuit.Dialect.Protocol
