import AgenticCircuit.Gfsim.Monotone
import AgenticCircuit.Gfsim.Stepping
import AgenticCircuit.Gfsim.Stagewise
import Mathlib.Data.Nat.Count
import Mathlib.Order.Bounds.Basic

/-! # The cycles of the time domains

A time domain with phase `p` and period `T` has its edges at the ticks `p`, `p + T`, `p + 2T`
and so on.  `step` counts an edge when it visits delta 0 of its tick, before it tests the cap
on events and delivers the events that are due.

* **Skipped edges.**  Time jumps to the next pending epoch, and the edges on the way are lost.
* **Early counts.**  A step that stops after the count, at a later domain's cap, at the event
  cap or in a delivery, has counted edges of an epoch it does not execute.
* **`Ticking.accounted`**: in a run whose steps do neither (`Faithful`), a domain has counted
  its edges before the current tick, and that of the tick itself once its epoch has opened. -/

namespace AgenticCircuit.Gfsim

open List Exit Epoch Or SimSystem
open Nat (count count_succ)
open Relation (ReflTransGen)

/-! ### Edges -/

/-- The domain has an edge at the tick. -/
def TimeDomainRuntime.edge (d : TimeDomainRuntime) (tick : ℕ) : Prop :=
  ∃ n, tick = d.phase + n * d.period

variable {W : Type} {m : Model W} {s : State W} {c : Config} {d : TimeDomainRuntime}

/-- The test of `step`. -/
theorem edge_iff {tick : ℕ} : d.edge tick ↔ d.phase ≤ tick ∧ (tick - d.phase) % d.period = 0 := by
  constructor
  · rintro ⟨n, rfl⟩
    rw [Nat.add_sub_cancel_left, Nat.mul_mod_left]
    exact ⟨Nat.le_add_right _ _, rfl⟩
  · rintro ⟨hle, hmod⟩
    obtain ⟨n, hn⟩ := Nat.dvd_of_mod_eq_zero hmod
    refine ⟨n, ?_⟩
    rw [Nat.mul_comm, ← hn]
    omega

instance (d : TimeDomainRuntime) : DecidablePred d.edge := fun _ => decidable_of_iff' _ edge_iff

theorem count_eq_of_forall_not {p : ℕ → Prop} [DecidablePred p] {a b : ℕ} (hab : a ≤ b)
    (h : ∀ k, a ≤ k → k < b → ¬ p k) : count p b = count p a := by
  induction b, hab using Nat.le_induction with
  | base => rfl
  | succ b hab ih =>
    rw [count_succ, if_neg (h b hab (Nat.lt_succ_self b)), Nat.add_zero]
    exact ih fun k hk hlt => h k hk (Nat.lt_succ_of_lt hlt)

theorem count_edge (hperiod : 0 < d.period) (n : ℕ) :
    count d.edge (d.phase + n * d.period) = n := by
  induction n with
  | zero =>
    rw [Nat.zero_mul, Nat.add_zero]
    refine count_eq_of_forall_not (Nat.zero_le _) fun k _ hlt => ?_
    rintro ⟨n, rfl⟩
    omega
  | succ n ih =>
    have hedge : d.edge (d.phase + n * d.period) := ⟨n, rfl⟩
    have hnext : count d.edge (d.phase + n * d.period + 1) = n + 1 := by
      rw [count_succ, if_pos hedge, ih]
    have hsucc : d.phase + (n + 1) * d.period = d.phase + n * d.period + d.period := by
      rw [Nat.succ_mul, Nat.add_assoc]
    rw [hsucc]
    refine (count_eq_of_forall_not (by omega) fun k hk hlt => ?_).trans hnext
    rintro ⟨j, rfl⟩
    have hlow : n < j := Nat.lt_of_mul_lt_mul_right (a := d.period) (by omega)
    have hhigh : j < n + 1 := Nat.lt_of_mul_lt_mul_right (a := d.period) (by
      omega)
    omega

/-! ### Configured domains -/

/-- The checks of `SimSystem::setTimeDomains` after the name `previous`; names that increase are
unique. -/
def timeDomainsValid : String → List TimeDomainRuntime → Bool
  | _, [] => true
  | previous, domain :: domains =>
    if domain.name = "" || domain.period = 0 || domain.tickScale = 0 ||
        (previous ≠ "" && decide (domain.name ≤ previous)) then false
    else timeDomainsValid domain.name domains

/-- What `setTimeDomains` has accepted. -/
structure Config.Domained (c : Config) : Prop where
  positive : ∀ d ∈ c.timeDomains, 0 < d.period
  sorted : c.timeDomains.Pairwise fun a b => a.name < b.name

theorem Config.Domained.nodup (h : c.Domained) : (c.timeDomains.map TimeDomainRuntime.name).Nodup :=
  pairwise_map.mpr (h.sorted.imp fun hlt => ne_of_lt hlt)

theorem timeDomainsValid_spec : ∀ {domains : List TimeDomainRuntime} {previous : String},
    timeDomainsValid previous domains = true → (∀ d ∈ domains, 0 < d.period) ∧
      (∀ d ∈ domains, previous ≠ "" → previous < d.name) ∧
      domains.Pairwise fun a b => a.name < b.name
  | [], _, _ => ⟨nofun, nofun, .nil⟩
  | domain :: domains, previous, h => by
    unfold timeDomainsValid at h
    split at h
    · cases h
    rename_i hvalid
    simp only [Bool.or_eq_true, decide_eq_true_eq, Bool.and_eq_true, not_or, not_and,
      not_le] at hvalid
    obtain ⟨⟨⟨hname, hperiod⟩, _⟩, hlt⟩ := hvalid
    obtain ⟨hpositive, habove, hsorted⟩ := timeDomainsValid_spec h
    refine ⟨?_, ?_, .cons (fun d hd => habove d hd hname) hsorted⟩
    · rintro d (_ | ⟨_, hd⟩)
      · exact Nat.pos_of_ne_zero hperiod
      · exact hpositive d hd
    · rintro d (_ | ⟨_, hd⟩) hprevious
      · exact hlt hprevious
      · exact (hlt hprevious).trans (habove d hd hname)

theorem domained_of_valid (h : timeDomainsValid "" c.timeDomains = true) :
    c.Domained :=
  ⟨(timeDomainsValid_spec h).1, (timeDomainsValid_spec h).2.2⟩

/-! ### Uncounted -/

section counting

variable {domains : List TimeDomainRuntime}

theorem lookup_assignKey {κ ν : Type} [LinearOrder κ] (k k' : κ) (v : ν) : ∀ l : List (κ × ν),
      (assignKey k v l).lookup k' = if k' = k then some v else l.lookup k'
  | [] => by
    by_cases h : k' = k
    · simp [assignKey, h]
    · simp [assignKey, h]
  | (k₁, v₁) :: l => by
    unfold assignKey
    split
    · by_cases h : k' = k
      · simp [h]
      · simp [lookup_cons, h, beq_false_of_ne h]
    split
    · rename_i hk
      subst hk
      by_cases h : k' = k
      · simp [h]
      · simp [lookup_cons, h, beq_false_of_ne h]
    · rename_i hk
      by_cases h : k' = k₁
      · subst h
        simp [Ne.symm hk]
      · have hne : (k' == k₁) = false := beq_false_of_ne h
        simp only [lookup_cons, hne]
        exact lookup_assignKey k k' v l

/-- The count of the domain has reached its configured maximum. -/
def AtCap (c : Config) (cycles : List (String × ℕ)) (d : TimeDomainRuntime) : Prop :=
  ∃ maximum, c.maxDomainCycles.lookup d.name = some maximum ∧
    maximum ≤ (cycles.lookup d.name).getD 0

/-- One more cycle of a domain. -/
def SimSystem.countEdge (s : SimSystem) (d : TimeDomainRuntime) : SimSystem :=
  { s with domainCycles :=
      assignKey d.name ((s.domainCycles.lookup d.name).getD 0 + 1) s.domainCycles }

theorem countDomainCycle_ends (d : TimeDomainRuntime) (s : State W) :
    Ends (countDomainCycle m d) s fun o t =>
      (¬ d.edge s.sys.epoch.time ∧ o = some () ∧ t = s) ∨
      (d.edge s.sys.epoch.time ∧ AtCap m.config s.sys.domainCycles d ∧ o = none ∧ ∃ maximum,
        t = { s with sys := s.sys.capped .maxDomainCyclesReached maximum }) ∨
      (d.edge s.sys.epoch.time ∧ ¬ AtCap m.config s.sys.domainCycles d ∧ o = some () ∧
        t = { s with sys := s.sys.countEdge d }) := by
  refine ends_get_bind ?_
  dsimp only
  split
  · rename_i hedge
    refine ends_pure (inl ⟨fun h => ?_, rfl, rfl⟩)
    obtain ⟨hle, hmod⟩ := edge_iff.mp h
    simp [hmod, not_lt.mpr hle] at hedge
  rename_i hedge
  have hedge : d.edge s.sys.epoch.time := by
    rw [edge_iff]
    simpa using hedge
  split
  · rename_i maximum hmaximum
    split
    · rename_i hcap
      exact ends_stop (inr (inl ⟨hedge, ⟨maximum, hmaximum, hcap⟩, rfl, maximum, rfl⟩))
    · rename_i hcap
      refine ends_modify (inr (inr ⟨hedge, ?_, rfl, rfl⟩))
      rintro ⟨maximum', hmaximum', hcap'⟩
      cases hmaximum.symm.trans hmaximum'
      exact hcap hcap'
  · rename_i hnone
    refine ends_modify (inr (inr ⟨hedge, ?_, rfl, rfl⟩))
    rintro ⟨maximum, hmaximum, _⟩
    cases hnone.symm.trans hmaximum

/-- Without an edge nothing is counted, at its cap a domain ends the run, and otherwise it
counts one cycle. -/
theorem countDomainCycle_cases (d : TimeDomainRuntime) (s : State W) :
    (¬ d.edge s.sys.epoch.time ∧ countDomainCycle m d s = (some (), s)) ∨
    (d.edge s.sys.epoch.time ∧ AtCap m.config s.sys.domainCycles d ∧ ∃ maximum,
      countDomainCycle m d s =
        (none, { s with sys := s.sys.capped .maxDomainCyclesReached maximum })) ∨
    (d.edge s.sys.epoch.time ∧ ¬ AtCap m.config s.sys.domainCycles d ∧
      countDomainCycle m d s = (some (), { s with sys := s.sys.countEdge d })) := by
  rcases countDomainCycle_ends (m := m) d s with ⟨hedge, ho, ht⟩ | ⟨hedge, hcap, ho, maximum, ht⟩ |
    ⟨hedge, hcap, ho, ht⟩
  · exact inl ⟨hedge, Prod.ext ho ht⟩
  · exact inr (inl ⟨hedge, hcap, maximum, Prod.ext ho ht⟩)
  · exact inr (inr ⟨hedge, hcap, Prod.ext ho ht⟩)

/-- From `cycles` to `cycles'` the domains of the list have counted the edges of the tick, each
below its cap, and nothing else has changed. -/
structure Counts (c : Config) (domains : List TimeDomainRuntime) (tick : ℕ)
    (cycles cycles' : List (String × ℕ)) : Prop where
  inside : ∀ d ∈ domains, ∀ n, cycles.lookup d.name = some n →
    cycles'.lookup d.name = some (n + if d.edge tick then 1 else 0)
  outside : ∀ name, name ∉ domains.map TimeDomainRuntime.name →
    cycles'.lookup name = cycles.lookup name
  below : ∀ d ∈ domains, d.edge tick → ¬ AtCap c cycles d

theorem Counts.refl {c : Config} {tick : ℕ} {cycles : List (String × ℕ)}
    (h : ∀ d ∈ domains, ¬ d.edge tick) : Counts c domains tick cycles cycles := by
  refine ⟨fun d hd n hn => ?_, fun _ _ => rfl, fun d hd hedge => absurd hedge (h d hd)⟩
  rw [if_neg (h d hd), Nat.add_zero]
  exact hn

theorem counts_of_forEach {t : State W} (hnodup : (domains.map TimeDomainRuntime.name).Nodup)
    (h : forEach domains (countDomainCycle m) s = (some (), t)) :
    t.sys.tally.atDomainCap = s.sys.tally.atDomainCap ∧
      Counts m.config domains s.sys.epoch.time s.sys.domainCycles t.sys.domainCycles := by
  induction domains generalizing s with
  | nil =>
    cases h
    exact ⟨rfl, .refl nofun⟩
  | cons d domains ih =>
    rw [map_cons, nodup_cons] at hnodup
    obtain ⟨_, r, hd, hrest⟩ := bind_eq_some.mp h
    obtain ⟨hflag, hr⟩ := ih hnodup.2 hrest
    rcases countDomainCycle_cases (m := m) d s with ⟨hedge, heq⟩ | ⟨_, _, _, heq⟩ |
      ⟨hedge, hcap, heq⟩
    · obtain ⟨_, rfl⟩ := Prod.mk.inj (heq.symm.trans hd)
      refine ⟨hflag, ?_, fun name hname => ?_, ?_⟩
      · rintro e (_ | ⟨_, he⟩) n hn
        · rw [hr.outside _ hnodup.1, hn, if_neg hedge, Nat.add_zero]
        · exact hr.inside e he n hn
      · exact hr.outside name fun hmem => hname (mem_cons_of_mem _ hmem)
      · rintro e (_ | ⟨_, he⟩) hnow
        · exact absurd hnow hedge
        · exact hr.below e he hnow
    · cases heq.symm.trans hd
    · obtain ⟨_, rfl⟩ := Prod.mk.inj (heq.symm.trans hd)
      have hother {name : String} (hname : name ≠ d.name) :
          (s.sys.countEdge d).domainCycles.lookup name = s.sys.domainCycles.lookup name := by
        rw [countEdge, lookup_assignKey, if_neg hname]
      refine ⟨hflag, ?_, fun name hname => ?_, ?_⟩
      · rintro e (_ | ⟨_, he⟩) n hn
        · rw [hr.outside _ hnodup.1, if_pos hedge]
          simp [countEdge, lookup_assignKey, hn]
        · have hne : e.name ≠ d.name := fun heq =>
            hnodup.1 (heq ▸ mem_map_of_mem he)
          exact hr.inside e he n ((hother hne).trans hn)
      · rw [map_cons, mem_cons, not_or] at hname
        exact (hr.outside name hname.2).trans (hother hname.1)
      · rintro e (_ | ⟨_, he⟩) hnow
        · exact hcap
        · have hne : e.name ≠ d.name := fun heq =>
            hnodup.1 (heq ▸ mem_map_of_mem he)
          rintro ⟨maximum, hmaximum, hle⟩
          exact hr.below e he hnow ⟨maximum, hmaximum, (hother hne).symm ▸ hle⟩

theorem forEach_count_of_cap {d : TimeDomainRuntime}
    (hfirst : domains.find? (fun d => decide (d.edge s.sys.epoch.time)) = some d)
    (hcap : AtCap m.config s.sys.domainCycles d) : ∃ maximum,
      forEach domains (countDomainCycle m) s =
        (none, { s with sys := s.sys.capped .maxDomainCyclesReached maximum }) := by
  induction domains with
  | nil => cases hfirst
  | cons e domains ih =>
    rw [find?_cons] at hfirst
    rcases countDomainCycle_cases (m := m) e s with ⟨hedge, heq⟩ | ⟨hedge, _, maximum, heq⟩ |
      ⟨hedge, hbelow, _⟩
    · rw [decide_eq_false hedge] at hfirst
      obtain ⟨maximum, hrest⟩ := ih hfirst
      exact ⟨maximum, (bind_of_eq_some heq).trans hrest⟩
    · exact ⟨maximum, bind_of_eq_none heq⟩
    · rw [decide_eq_true hedge] at hfirst
      cases hfirst
      exact absurd hcap hbelow

theorem forEach_count_of_none (hnone : ∀ d ∈ domains, ¬ d.edge s.sys.epoch.time) :
    forEach domains (countDomainCycle m) s = (some (), s) := by
  induction domains with
  | nil => rfl
  | cons d domains ih =>
    rcases countDomainCycle_cases (m := m) d s with ⟨_, heq⟩ | ⟨hedge, _⟩ | ⟨hedge, _⟩
    · exact (bind_of_eq_some heq).trans (ih fun e he => hnone e (mem_cons_of_mem _ he))
    · exact absurd hedge (hnone d mem_cons_self)
    · exact absurd hedge (hnone d mem_cons_self)

end counting

/-! ### One step -/

section step

/-- The step opens its epoch: no check stops it, and the events that are due are delivered. -/
def entered (m : Model W) (s : State W) : Bool :=
  ((do preflight m; deliverEvents m : Exit (State W) Unit) s).1.isSome

/-- The step jumps over no edge: none lies strictly between its epoch and the epoch after it. -/
def SkipsNone (m : Model W) (s : State W) : Prop :=
  ∀ d ∈ m.config.timeDomains, ∀ tick, d.edge tick → s.sys.epoch < ⟨tick, 0⟩ →
    (step m s).2.sys.epoch ≤ ⟨tick, 0⟩

/-- What the step counts it also executes: when the checks let it count an edge, its epoch opens
or the first domain to count is at its cap. -/
def CountsWhole (m : Model W) (s : State W) : Prop :=
  (checks m s).1.isSome = true → s.sys.epoch.delta = 0 → ∀ d, m.config.timeDomains.find?
      (fun d => decide (d.edge s.sys.epoch.time)) = some d →
    entered m s = true ∨ AtCap m.config s.sys.domainCycles d

/-- The step counts the edges its time passes, and no others. -/
structure Faithful (m : Model W) (s : State W) : Prop where
  skips : SkipsNone m s
  counts : CountsWhole m s

/-- The domains a step may count: all of them at delta 0 of a tick. -/
def Config.countedAt (c : Config) (epoch : Epoch) : List TimeDomainRuntime :=
  if epoch.delta = 0 then c.timeDomains else []

/-- The cycles are `cycles`, and no cap on them has ended the run. -/
def Tally.Holds (cycles : List (String × ℕ)) (t : Tally) : Prop :=
  t.domainCycles = cycles ∧ t.atDomainCap = false

variable {cycles : List (String × ℕ)}

theorem holds_stop (t : Tally) (ht : t.Holds cycles) :
    Tally.Holds cycles { t with atDomainCap := false } := ⟨ht.1, rfl⟩

theorem holds_refresh : Unseen (Tally.Holds cycles) (refreshRuntimeSummary m) :=
  carries_modify fun _ hs => hs

theorem holds_afterCount : Unseen (Tally.Holds cycles) (do stopAtEventCap m; afterPreflight m) :=
  carries_bind (kept_stopAtEventCap (Model.keeps_tally holds_stop)) fun _ =>
    kept_afterPreflight (Model.keeps_tally holds_stop) holds_refresh (fun _ _ _ ht => ht)
      fun _ _ _ _ _ ht _ => ht

theorem step_eq_count : step m = (do
    checks m
    countDomainCycles m
    stopAtEventCap m
    afterPreflight m) := by
  rw [step_eq, preflight_eq]
  simp only [bind_assoc]

theorem entered_eq_false_of_preflight {t : State W} (h : preflight m s = (none, t)) :
    entered m s = false := by
  unfold entered
  rw [bind_of_eq_none h]
  rfl

/-- A step that opens its epoch has counted to the end. -/
theorem count_of_entered {a : State W}
    (hpreflight : preflight m s = (do countDomainCycles m; stopAtEventCap m) a)
    (h : entered m s = true) : ∃ b, countDomainCycles m a = (some (), b) := by
  rcases hcount : countDomainCycles m a with ⟨_ | _, b⟩
  · have hnone : preflight m s = (none, b) := hpreflight.trans (bind_of_eq_none hcount)
    cases (entered_eq_false_of_preflight hnone).symm.trans h
  · exact ⟨b, rfl⟩

/-- What a step counts. -/
theorem step_counts (hs : AtBoundary s.sys) (hdomains : m.config.Domained)
    (hcap : s.sys.tally.atDomainCap = false) (hcounts : CountsWhole m s) :
    (entered m s = true ∧ (step m s).2.sys.tally.atDomainCap = false ∧
      Counts m.config (m.config.countedAt s.sys.epoch) s.sys.epoch.time s.sys.domainCycles
        (step m s).2.sys.domainCycles) ∨
    (entered m s = false ∧ (step m s).2.sys.domainCycles = s.sys.domainCycles ∧
      ((step m s).2.sys.tally.atDomainCap = true → s.sys.epoch.delta = 0 ∧
        ∃ d ∈ m.config.timeDomains, d.edge s.sys.epoch.time ∧
          AtCap m.config s.sys.domainCycles d)) := by
  have hhold : (s.sys.tally).Holds s.sys.domainCycles := ⟨rfl, hcap⟩
  have ha : (checks m s).2.sys.tally.Holds s.sys.domainCycles :=
    Carries.always (kept_checks (Model.keeps_tally holds_stop) holds_refresh) hhold
  rcases hchecks : checks m s with ⟨_ | _, a⟩
  · -- a check stops the step
    have hpreflight : preflight m s = (none, a) := by
      rw [preflight_eq]
      exact bind_of_eq_none hchecks
    have hstep : step m s = (none, a) := by
      rw [step_eq]
      exact bind_of_eq_none hpreflight
    rw [hchecks] at ha
    rw [hstep]
    refine inr ⟨entered_eq_false_of_preflight hpreflight, ha.1, fun h => ?_⟩
    cases ha.2.symm.trans h
  have hepoch : a.sys.epoch = s.sys.epoch :=
    congrArg Control.epoch ((along_checks hs.live hs.free).next () a hchecks).2.1.1
  rw [hchecks] at ha
  have hkept : a.sys.domainCycles = s.sys.domainCycles := ha.1
  have hstep : step m s = (do countDomainCycles m; stopAtEventCap m; afterPreflight m) a := by
    rw [step_eq_count]
    exact bind_of_eq_some hchecks
  have hpreflight : preflight m s = (do countDomainCycles m; stopAtEventCap m) a := by
    rw [preflight_eq]
    exact bind_of_eq_some hchecks
  -- when the count goes on, the rest of the step keeps its outcome
  have hgo {b : State W} (hcount : countDomainCycles m a = (some (), b))
      (hb : b.sys.tally.atDomainCap = false) :
      (step m s).2.sys.tally.Holds b.sys.domainCycles := by
    rw [hstep, bind_of_eq_some hcount]
    exact Carries.always holds_afterCount ⟨rfl, hb⟩
  by_cases hdelta : s.sys.epoch.delta = 0
  · have hcount : countDomainCycles m a =
        forEach m.config.timeDomains (countDomainCycle m) a := by
      change (if a.sys.epoch.delta = 0 then _ else _ : Exit (State W) Unit) a = _
      rw [hepoch, if_pos hdelta]
    have hcounted : m.config.countedAt s.sys.epoch = m.config.timeDomains := if_pos hdelta
    rw [hcounted]
    cases hfirst : m.config.timeDomains.find? (fun d => decide (d.edge s.sys.epoch.time)) with
    | none =>
      have hnone : ∀ d ∈ m.config.timeDomains, ¬ d.edge s.sys.epoch.time := by
        simpa using hfirst
      have hsame : countDomainCycles m a = (some (), a) := by
        rw [hcount]
        exact forEach_count_of_none fun d hd => hepoch ▸ hnone d hd
      obtain ⟨hcycles, hflag⟩ := hgo hsame ha.2
      have hcycles := hcycles.trans hkept
      cases hentered : entered m s with
      | true => exact inl ⟨rfl, hflag, hcycles ▸ .refl hnone⟩
      | false => exact inr ⟨rfl, hcycles, fun h => by cases hflag.symm.trans h⟩
    | some d =>
      have hedge : d ∈ m.config.timeDomains ∧ d.edge s.sys.epoch.time :=
        ⟨mem_of_find?_eq_some hfirst, by simpa using find?_some hfirst⟩
      rcases hcounts (by rw [hchecks]; rfl) hdelta d hfirst with hentered | hatcap
      · obtain ⟨b, hb⟩ := count_of_entered hpreflight hentered
        obtain ⟨hflag, hcounted⟩ := counts_of_forEach hdomains.nodup (hcount ▸ hb)
        obtain ⟨hcycles, hflag'⟩ := hgo hb (hflag.trans ha.2)
        rw [hepoch, hkept, ← hcycles] at hcounted
        exact inl ⟨hentered, hflag', hcounted⟩
      · have hatcap' : AtCap m.config a.sys.domainCycles d := hkept.symm ▸ hatcap
        obtain ⟨maximum, hstop⟩ := forEach_count_of_cap (hepoch.symm ▸ hfirst) hatcap'
        rw [← hcount] at hstop
        refine inr ⟨?_, ?_, fun _ => ⟨hdelta, d, hedge.1, hedge.2, hatcap⟩⟩
        · exact entered_eq_false_of_preflight (hpreflight.trans (bind_of_eq_none hstop))
        · rw [hstep, bind_of_eq_none hstop]
          exact hkept
  · have hsame : countDomainCycles m a = (some (), a) := by
      change (if a.sys.epoch.delta = 0 then _ else _ : Exit (State W) Unit) a = _
      rw [hepoch, if_neg hdelta]
      rfl
    have hcounted : m.config.countedAt s.sys.epoch = [] := if_neg hdelta
    obtain ⟨hcycles, hflag⟩ := hgo hsame ha.2
    have hcycles := hcycles.trans hkept
    rw [hcounted]
    cases hentered : entered m s with
    | true => exact inl ⟨rfl, hflag, hcycles ▸ .refl nofun⟩
    | false => exact inr ⟨rfl, hcycles, fun h => by cases hflag.symm.trans h⟩

end step

/-! ### Time -/

section time

/-- The deadline of the deadlock window is not behind, unless an event is due that will move
it. -/
def Punctual (c : Config) (s : SimSystem) : Prop :=
  ∀ window, c.deadlockWindow = some window → s.epoch.time ≤ s.lastProgressTick + window ∨
    (∃ event ∈ s.eventQueue.committed, event.readyTime = s.epoch) ∨ s.trail.inFlight.isSome

theorem Punctual.move {c : Config} {s t : SimSystem} (h : Move c s t) (hs : Punctual c s) :
    Punctual c t := by
  intro window hwindow
  have hnow := hs window hwindow
  cases h with
  | call h => cases h <;> exact hnow
  | @take event rest live hcommitted => exact inr (inr rfl)
  | count | publish => exact inl (Nat.le_add_right _ _)
  | commitEvents =>
    unfold commitEvents
    split
    · exact inl (Nat.le_add_right _ _)
    · rename_i hpending
      have hnil : s.eventQueue.pushProposals = [] := by
        simpa [EventQueue.hasPendingCommit] using hpending
      simpa [EventQueue.doXfer, hnil, insertAll] using hnow
  | _ => exact hnow

theorem Punctual.le_deadline {s : SimSystem} {window : ℕ} (hs : Punctual c s) (htimely : Timely s)
    (hdrained : Drained c s) (hwindow : c.deadlockWindow = some window) :
    s.epoch.time ≤ s.lastProgressTick + window := by
  rcases hs window hwindow with h | ⟨event, hevent, hready⟩ | hflight
  · exact h
  · obtain ⟨first, hfirst⟩ : ∃ first, s.eventQueue.committed.head? = some first := by
      cases hlist : s.eventQueue.committed with
      | nil => rw [hlist] at hevent; cases hevent
      | cons first rest => exact ⟨first, rfl⟩
    have hle : first.readyTime ≤ event.readyTime :=
      Event.readyTime_le_of_key_le (htimely.sortedEvents.head?_le _ hfirst hevent)
    have hge := htimely.committed_le first (mem_of_head? hfirst)
    exact absurd (le_antisymm (hready ▸ hle) hge) (hdrained.noneDue first hfirst)
  · have hfree : s.trail.inFlight = none := hdrained.position.free
    rw [hfree] at hflight
    cases hflight

theorem Selected.time_le {s t : SimSystem} {o : Option Unit} (h : Selected c s o t)
    (htime : s.epoch.time ≤ c.maxTicks)
    (hdeadline : ∀ window, c.deadlockWindow = some window → s.epoch.time ≤
      s.lastProgressTick + window) : s.epoch.time ≤ t.epoch.time := by
  cases h with
  | advance hnext hlt => exact time_le_of_le (le_of_lt hlt)
  | nonMonotonic | overflow => exact le_rfl
  | deadline _ _ hwindow => exact hdeadline _ hwindow
  | maxTicks => exact htime
  | exhausted _ hend =>
    cases hend with
    | traceOwners | traceCap => exact le_rfl
    | classified _ hend =>
      cases hend with
      | completed | noProgress | overflow => exact le_rfl
      | maxTicks => exact htime
      | deadline _ hwindow => exact hdeadline _ hwindow

/-- What every move keeps of the time. -/
structure OnTime (c : Config) (s : SimSystem) : Prop where
  timely : Timely s
  punctual : Punctual c s

theorem OnTime.fresh (w : W) : OnTime m.config (State.fresh m w).sys :=
  ⟨.fresh m w, fun _ _ => inl (Nat.zero_le _)⟩

theorem OnTime.move {s t : SimSystem} (h : Move c s t) (hs : OnTime c s) :
    OnTime c t := ⟨hs.timely.move h, hs.punctual.move h⟩

theorem OnTime.advance {s : SimSystem} {next : Epoch} {isEvent : Bool} (hs : OnTime c s)
    (hclosed : s.executingEpoch = false) (hproposals : s.eventQueue.pushProposals = [])
    (hnext : nextEpoch s = some (next, isEvent)) (hwithin : WithinWindow c s next isEvent) :
    OnTime c { s with epoch := next } := by
  refine ⟨hs.timely.advance hclosed hproposals hnext, fun window hwindow => ?_⟩
  cases isEvent with
  | false => exact inl (le_of_lt (hwithin window hwindow rfl).2)
  | true =>
    obtain ⟨_, hevent, _, _⟩ := nextEpoch_spec hs.timely hnext
    obtain ⟨event, hfirst, hready⟩ := hevent rfl
    exact inr (inl ⟨event, mem_of_head? hfirst, hready⟩)

theorem runs_onTime {host : Host W} {ok : State W → Prop} (h : Runs m host ok s) :
    (s.sys.terminated = true → Synced s.sys) ∧
      (s.sys.terminated = false → OnTime m.config s.sys ∧ AtBoundary s.sys) := by
  have hinv := Runs.sys_invariant (m := m)
    (I := fun s => OnTime m.config s ∧ (s.terminated = true → Synced s)) (J := Synced)
    (fun w => ⟨.fresh w, nofun⟩) (fun s t hst hs => ⟨hs.1.move hst, hst.synced⟩)
    (fun s t hs hst => hst.synced hs.2)
    (fun _ _ _ _ _ _ _ _ _ _ => ⟨rfl, rfl, rfl⟩) ?_ h
  · exact ⟨hinv.1, fun hlive => ⟨(hinv.2 hlive).1.1, (hinv.2 hlive).2⟩⟩
  · intro s r _ _ _ _ hr hdrained q o t hq hI hsel
    refine ⟨?_, ?_⟩
    · rintro rfl
      obtain ⟨next, isEvent, hnext, _, hwithin, _, rfl⟩ := hsel.advance_inv
      have hproposals := hq.noProposals hdrained
      have hboundary := hq.atBoundary hdrained
      refine ⟨hI.1.advance hboundary.closed hproposals hnext hwithin, fun hterm => ?_⟩
      cases hboundary.live.symm.trans hterm
    · rintro rfl
      exact hsel.synced

theorem time_le_of_step (hs : AtBoundary s.sys) (htime : OnTime m.config s.sys) :
    s.sys.epoch.time ≤ (step m s).2.sys.epoch.time := by
  have hcap {u : State W} (hcommit : commitEpoch m s = (some (), u)) :
      s.sys.epoch.time < m.config.maxTicks := by
    obtain ⟨_, v, hpropose, _⟩ := bind_eq_some.mp hcommit
    obtain ⟨_, w, hpreflight, _⟩ := bind_eq_some.mp hpropose
    exact ((along_preflight hs.live hs.free).next () w hpreflight).2.2
  have hcase := step_cases (m := m) hs
  generalize (step m s).1 = o, (step m s).2 = t at hcase
  cases hcase with
  | halts hpath hhalt =>
    rw [hhalt.halt.epoch_eq, epoch_eq_of_moves (moves_of_trans hpath)]
  | cut hcommit => exact le_of_lt (hcap hcommit)
  | @selects r _ _ hexecute hpath hdrained hselect =>
    obtain ⟨_, u, hcommit, _⟩ := bind_eq_some.mp hexecute
    have hr : OnTime m.config r.sys :=
      preserves_of_path (I := OnTime m.config) (fun _ _ h hs => hs.move h)
        (moves_of_trans hpath) htime
    have hepoch : r.sys.epoch = s.sys.epoch := epoch_eq_of_moves (moves_of_trans hpath)
    obtain ⟨_, q, hq, hsel⟩ := selectNext_selected hselect
    have hqepoch : q.epoch = r.sys.epoch := by cases hq <;> rfl
    have hqlast : q.lastProgressTick = r.sys.lastProgressTick := by cases hq <;> rfl
    have hle := hsel.time_le (by rw [hqepoch, hepoch]; exact le_of_lt (hcap hcommit))
      fun window hwindow => by
        rw [hqepoch, hqlast]
        exact hr.punctual.le_deadline hr.timely hdrained hwindow
    rw [hqepoch, hepoch] at hle
    exact hle

theorem step_of_not_entered (hs : AtBoundary s.sys) (h : entered m s = false) :
    (step m s).1 = none ∧ (step m s).2.sys.epoch = s.sys.epoch := by
  have hend {r : State W} (hstep : step m s = (none, r))
      (hhalts : ∃ q, ReflTransGen (Trans m) s q ∧ Halts m q r) :
      (step m s).1 = none ∧ (step m s).2.sys.epoch = s.sys.epoch := by
    obtain ⟨q, hpath, hhalt⟩ := hhalts
    rw [hstep]
    exact ⟨rfl, hhalt.halt.epoch_eq.trans (epoch_eq_of_moves (moves_of_trans hpath))⟩
  rcases hpreflight : preflight m s with ⟨_ | _, a⟩
  · refine hend ?_ ((along_preflight hs.live hs.free).ret a hpreflight)
    rw [step_eq]
    exact bind_of_eq_none hpreflight
  have hpassed := (along_preflight hs.live hs.free).next () a hpreflight
  rcases hdeliver : deliverEvents m a with ⟨_ | _, b⟩
  · obtain ⟨q, hpath, hhalt⟩ := (along_deliverEvents (hpassed.2.1.live hs.live)
      (hpassed.2.1.free hs.free)).ret b hdeliver
    refine hend ?_ ⟨q, hpassed.1.trans hpath, hhalt⟩
    rw [step_eq]
    exact (bind_of_eq_some hpreflight).trans (bind_of_eq_none hdeliver)
  · have htrue : entered m s = true := by
      unfold entered
      rw [bind_of_eq_some hpreflight, hdeliver]
      rfl
    cases h.symm.trans htrue

end time

/-! ### Runs -/

section run

variable {host : Host W}

/-- The states a system passes through at step boundaries when every step is taken from a
state that satisfies `ok`, with the epochs that have been opened. -/
inductive Ticking (m : Model W) (host : Host W) (ok : State W → Prop) :
    List Epoch → State W → Prop
  | fresh (w : W) (hw : host.initial w) : Ticking m host ok [] (State.fresh m w)
  | host {opened : List Epoch} {s : State W} (b : W → Body W) (hb : host.calls b) :
      Ticking m host ok opened s → Ticking m host ok opened (hostCall m b s)
  | start {opened : List Epoch} {s : State W} : Ticking m host ok opened s →
      s.sys.epoch = ⟨0, 0⟩ → Ticking m host ok opened (startRun m s)
  | step {opened : List Epoch} {s : State W} : Ticking m host ok opened s → ok s →
      Ticking m host ok (if entered m s then s.sys.epoch :: opened else opened) (step m s).2

variable {ok : State W → Prop}

theorem Ticking.runs {opened : List Epoch} {s : State W} (h : Ticking m host ok opened s) :
    Runs m host ok s := by
  induction h with
  | fresh w hw => exact .fresh w hw
  | host b hb _ ih => exact .host b hb ih
  | start _ hepoch ih => exact .start ih hepoch
  | step _ hok ih => exact .step ih hok

/-- The edges of a domain before the tick, and at the tick itself once its epoch has opened. -/
def edgesBy (d : TimeDomainRuntime) (opened : List Epoch) (tick : ℕ) : ℕ :=
  Nat.count d.edge tick + if d.edge tick ∧ (⟨tick, 0⟩ : Epoch) ∈ opened then 1 else 0

/-- The edges at which a cap on the cycles is reached. -/
def Config.capEdges (c : Config) : Set ℕ :=
  fun tick => ∃ d ∈ c.timeDomains, ∃ maximum, c.maxDomainCycles.lookup d.name = some maximum ∧
    tick = d.phase + maximum * d.period

/-- Every domain has counted its edges, none of them beyond its cap. -/
structure Accounts (c : Config) (opened : List Epoch) (tick : ℕ)
    (cycles : List (String × ℕ)) : Prop where
  counted : ∀ d ∈ c.timeDomains, cycles.lookup d.name = some (edgesBy d opened tick)
  within : ∀ d ∈ c.timeDomains, ∀ maximum, c.maxDomainCycles.lookup d.name = some maximum →
    edgesBy d opened tick ≤ maximum
  before : ∀ e ∈ opened, ∀ edge ∈ c.capEdges, e.time < edge

/-- What holds besides while the run goes on. -/
structure Going (c : Config) (opened : List Epoch) (s : SimSystem) : Prop where
  past : ∀ e ∈ opened, e < s.epoch
  whole : ∀ d ∈ c.timeDomains, d.edge s.epoch.time → 0 < s.epoch.delta →
    (⟨s.epoch.time, 0⟩ : Epoch) ∈ opened
  notCapped : s.tally.atDomainCap = false

/-- The cap on the cycles ends the run at the first edge at which one is reached. -/
def CappedAtEdge (c : Config) (s : SimSystem) : Prop :=
  s.tally.atDomainCap = true → s.epoch.delta = 0 ∧ IsLeast c.capEdges s.epoch.time

theorem lookup_zero {domains : List TimeDomainRuntime} {d : TimeDomainRuntime}
    (hd : d ∈ domains) : (domains.map fun d => (d.name, 0)).lookup d.name = some 0 := by
  induction domains with
  | nil => cases hd
  | cons e domains ih =>
    by_cases hname : d.name = e.name
    · simp [hname]
    · rw [map_cons, lookup_cons, beq_false_of_ne hname]
      rcases mem_cons.mp hd with rfl | hd
      · exact absurd rfl hname
      · exact ih hd

theorem accounts_fresh (w : W) : Accounts m.config [] 0 (State.fresh m w).sys.domainCycles := by
  have hzero (d : TimeDomainRuntime) : edgesBy d [] 0 = 0 := by simp [edgesBy]
  refine ⟨fun d hd => ?_, fun d _ _ _ => ?_, nofun⟩
  · rw [hzero]
    exact lookup_zero hd
  · rw [hzero]
    exact Nat.zero_le _

variable {opened : List Epoch} {tick : ℕ}

theorem edgesBy_of_notMem (h : (⟨tick, 0⟩ : Epoch) ∉ opened) :
    edgesBy d opened tick = count d.edge tick := by
  simp [edgesBy, h]

theorem edgesBy_of_whole (h : d.edge tick → (⟨tick, 0⟩ : Epoch) ∈ opened) :
    edgesBy d opened tick = count d.edge (tick + 1) := by
  rw [edgesBy, count_succ]
  by_cases hedge : d.edge tick
  · simp [h hedge]
  · simp [hedge]

theorem Going.notMem (h : Going m.config opened s.sys) (hdelta : s.sys.epoch.delta = 0) :
    (⟨s.sys.epoch.time, 0⟩ : Epoch) ∉ opened := by
  intro hmem
  have hlt := h.past _ hmem
  rw [← hdelta] at hlt
  exact lt_irrefl _ hlt

/-- An epoch that opens has counted all edges up to its tick. -/
theorem lookup_of_counts {cycles : List (String × ℕ)}
    (hs : Accounts m.config opened s.sys.epoch.time s.sys.domainCycles)
    (hgoing : Going m.config opened s.sys)
    (h :
      Counts m.config (m.config.countedAt s.sys.epoch) s.sys.epoch.time s.sys.domainCycles cycles)
    (hd : d ∈ m.config.timeDomains) :
    cycles.lookup d.name = some (count d.edge (s.sys.epoch.time + 1)) ∧
      ∀ maximum, m.config.maxDomainCycles.lookup d.name = some maximum →
        count d.edge (s.sys.epoch.time + 1) ≤ maximum := by
  have hcount := hs.counted d hd
  have hwithin := hs.within d hd
  by_cases hdelta : s.sys.epoch.delta = 0
  · have hall : m.config.countedAt s.sys.epoch = m.config.timeDomains := if_pos hdelta
    rw [hall] at h
    rw [edgesBy_of_notMem (hgoing.notMem hdelta)] at hcount hwithin
    rw [count_succ]
    refine ⟨h.inside d hd _ hcount, fun maximum hmaximum => ?_⟩
    by_cases hedge : d.edge s.sys.epoch.time
    · have hbelow := h.below d hd hedge
      rw [if_pos hedge]
      by_contra hover
      refine hbelow ⟨maximum, hmaximum, ?_⟩
      rw [hcount, Option.getD_some]
      omega
    · rw [if_neg hedge]
      exact hwithin maximum hmaximum
  · have hnone : m.config.countedAt s.sys.epoch = [] := if_neg hdelta
    rw [hnone] at h
    rw [edgesBy_of_whole fun hedge => hgoing.whole d hd hedge (Nat.pos_of_ne_zero hdelta)]
      at hcount hwithin
    exact ⟨(h.outside d.name not_mem_nil).trans hcount, hwithin⟩

theorem count_succ_edge (hperiod : 0 < d.period) (n : ℕ) :
    count d.edge (d.phase + n * d.period + 1) = n + 1 := by
  rw [count_succ, if_pos ⟨n, rfl⟩, count_edge hperiod]

theorem lt_capEdge (hdomains : m.config.Domained)
    (h : ∀ d ∈ m.config.timeDomains, ∀ maximum, m.config.maxDomainCycles.lookup d.name =
      some maximum → count d.edge tick ≤ maximum) {edge : ℕ}
    (hedge : edge ∈ m.config.capEdges) : tick ≤ edge := by
  obtain ⟨d, hd, maximum, hmaximum, rfl⟩ := hedge
  by_contra hlt
  have hmono : count d.edge (d.phase + maximum * d.period + 1) ≤ count d.edge tick :=
    Nat.count_monotone _ (not_le.mp hlt)
  rw [count_succ_edge (hdomains.positive d hd)] at hmono
  have hle := h d hd maximum hmaximum
  omega

/-- When a domain with an edge is at its cap, the tick is the first cap edge. -/
theorem isLeast_of_atCap (hdomains : m.config.Domained)
    (hs : Accounts m.config opened s.sys.epoch.time s.sys.domainCycles)
    (hgoing : Going m.config opened s.sys) (hdelta : s.sys.epoch.delta = 0)
    (hd : d ∈ m.config.timeDomains) (hedge : d.edge s.sys.epoch.time)
    (hcap : AtCap m.config s.sys.domainCycles d) : IsLeast m.config.capEdges s.sys.epoch.time := by
  have hnow {d : TimeDomainRuntime} :
      edgesBy d opened s.sys.epoch.time = count d.edge s.sys.epoch.time :=
    edgesBy_of_notMem (hgoing.notMem hdelta)
  refine ⟨?_, fun edge hmem => lt_capEdge hdomains (fun e he maximum hmaximum => ?_) hmem⟩
  · obtain ⟨maximum, hmaximum, hle⟩ := hcap
    have hwithin := hs.within d hd maximum hmaximum
    rw [hs.counted d hd, Option.getD_some] at hle
    obtain ⟨n, hn⟩ := hedge
    rw [hnow, hn, count_edge (hdomains.positive d hd)] at hle hwithin
    obtain rfl := le_antisymm hle hwithin
    exact ⟨d, hd, maximum, hmaximum, hn⟩
  · rw [← hnow]
    exact hs.within e he maximum hmaximum

theorem edgesBy_step (hgoing : Going m.config opened s.sys) (hskips : SkipsNone m s)
    (htime : s.sys.epoch.time ≤ (step m s).2.sys.epoch.time) (hd : d ∈ m.config.timeDomains) :
    edgesBy d (s.sys.epoch :: opened) (step m s).2.sys.epoch.time =
      count d.edge (s.sys.epoch.time + 1) := by
  rcases Nat.eq_or_lt_of_le htime with heq | hlt
  · rw [← heq]
    refine edgesBy_of_whole fun hedge => ?_
    rcases Nat.eq_zero_or_pos s.sys.epoch.delta with hdelta | hdelta
    · rw [← hdelta]
      exact mem_cons_self
    · exact mem_cons_of_mem _ (hgoing.whole d hd hedge hdelta)
  · have hnew : (⟨(step m s).2.sys.epoch.time, 0⟩ : Epoch) ∉ s.sys.epoch :: opened := by
      intro hmem
      have hle : (step m s).2.sys.epoch.time ≤ s.sys.epoch.time := by
        rcases mem_cons.mp hmem with heq | hmem
        · have htick := congrArg time heq
          exact le_of_eq htick
        · have hpast := hgoing.past _ hmem
          exact time_le_of_le (a := ⟨_, 0⟩) (le_of_lt hpast)
      omega
    rw [edgesBy_of_notMem hnew]
    refine count_eq_of_forall_not hlt fun k hk hbefore hedge => ?_
    have hle := hskips d hd k hedge (lt_def.mpr (inl hk))
    exact absurd (time_le_of_le hle) (not_le.mpr hbefore)

theorem Accounts.step (hdomains : m.config.Domained)
    (hs : Accounts m.config opened s.sys.epoch.time s.sys.domainCycles)
    (hgoing : Going m.config opened s.sys) (hskips : SkipsNone m s)
    (htime : s.sys.epoch.time ≤ (step m s).2.sys.epoch.time)
    (h : Counts m.config (m.config.countedAt s.sys.epoch) s.sys.epoch.time s.sys.domainCycles
      (Gfsim.step m s).2.sys.domainCycles) :
    Accounts m.config (s.sys.epoch :: opened) (Gfsim.step m s).2.sys.epoch.time
      (Gfsim.step m s).2.sys.domainCycles := by
  refine ⟨fun d hd => ?_, fun d hd => ?_, fun e he edge hedge => ?_⟩
  · rw [edgesBy_step hgoing hskips htime hd]
    exact (lookup_of_counts hs hgoing h hd).1
  · rw [edgesBy_step hgoing hskips htime hd]
    exact (lookup_of_counts hs hgoing h hd).2
  · rcases mem_cons.mp he with rfl | he
    · exact lt_capEdge hdomains (fun d hd => (lookup_of_counts hs hgoing h hd).2) hedge
    · exact hs.before e he edge hedge

/-- The same edges remain to be counted after a step that goes on. -/
theorem Going.step {t : State W} (hs : AtBoundary s.sys) (hgoing : Going m.config opened s.sys)
    (hskips : SkipsNone m s) (hcap : t.sys.tally.atDomainCap = false)
    (h : Gfsim.step m s = (some (), t)) : Going m.config (s.sys.epoch :: opened) t.sys := by
  obtain ⟨_, hlt⟩ := epoch_lt_of_step hs h
  refine ⟨fun e he => ?_, fun d hd hedge hdelta => ?_, hcap⟩
  · rcases mem_cons.mp he with rfl | he
    · exact hlt
    · exact (hgoing.past e he).trans hlt
  · have hskip := hskips d hd t.sys.epoch.time hedge
    rw [h] at hskip
    -- an edge at the tick of the new epoch is not behind it only when the tick goes on
    have hle : ¬ s.sys.epoch < ⟨t.sys.epoch.time, 0⟩ := fun hbefore => by
      rcases le_def.mp (hskip hbefore) with hlt | ⟨_, hle⟩
      · exact lt_irrefl _ hlt
      · exact absurd hle (not_le.mpr hdelta)
    have hsame : s.sys.epoch.time = t.sys.epoch.time := by
      refine le_antisymm (time_le_of_le (le_of_lt hlt)) ?_
      by_contra hbefore
      exact hle (lt_def.mpr (inl (not_le.mp hbefore)))
    rw [← hsame] at hedge ⊢
    rcases Nat.eq_zero_or_pos s.sys.epoch.delta with hzero | hpos
    · rw [← hzero]
      exact mem_cons_self
    · exact mem_cons_of_mem _ (hgoing.whole d hd hedge hpos)

/-- The induction over runs. -/
theorem Ticking.invariant (hdomains : m.config.Domained)
    (h : Ticking m host (Faithful m) opened s) :
    Accounts m.config opened s.sys.epoch.time s.sys.domainCycles ∧ CappedAtEdge m.config s.sys ∧
      (s.sys.terminated = false → Going m.config opened s.sys) := by
  -- calls between steps leave the epoch and the cycles alone
  have hcalls {opened : List Epoch} {s t : State W}
      (hpath : ReflTransGen (Call m.config) s.sys t.sys)
      (hs : Accounts m.config opened s.sys.epoch.time s.sys.domainCycles ∧
        CappedAtEdge m.config s.sys ∧ (s.sys.terminated = false → Going m.config opened s.sys)) :
      Accounts m.config opened t.sys.epoch.time t.sys.domainCycles ∧
        CappedAtEdge m.config t.sys ∧ (t.sys.terminated = false → Going m.config opened t.sys) := by
    cases hterm : s.sys.terminated with
    | true =>
      rw [eq_of_calls_of_terminated hpath hterm]
      exact hs
    | false =>
      obtain ⟨haccounts, _, hgoing⟩ := hs
      have hgoing := hgoing hterm
      have hhold : t.sys.tally.Holds s.sys.domainCycles :=
        tally_calls holds_stop hpath ⟨rfl, hgoing.notCapped⟩
      have hcycles : t.sys.domainCycles = s.sys.domainCycles := hhold.1
      have hepoch : t.sys.epoch = s.sys.epoch :=
        congrArg Control.epoch (control_eq_of_calls hpath)
      refine ⟨?_, fun hcap => ?_, fun _ => ⟨?_, ?_, hhold.2⟩⟩
      · rw [hepoch, hcycles]
        exact haccounts
      · cases hhold.2.symm.trans hcap
      · rw [hepoch]
        exact hgoing.past
      · rw [hepoch]
        exact hgoing.whole
  induction h with
  | fresh w => exact ⟨accounts_fresh w, nofun, fun _ => ⟨nofun, fun _ _ _ => nofun, rfl⟩⟩
  | host b hb _ ih => exact hcalls (Body.exec_calls _ _ _) ih
  | start hrun hepoch ih =>
    have hboundary := (runs_onTime hrun.runs).2
    exact hcalls (startRun_calls hepoch fun hlive => (hboundary hlive).2.closed) ih
  | @step opened s hrun hok ih =>
    cases hterm : s.sys.terminated with
    | true =>
      have hentered : entered m s = false :=
        entered_eq_false_of_preflight (preflight_of_terminated hterm)
      rw [step_of_terminated hterm, hentered]
      exact ih
    | false =>
      obtain ⟨haccounts, _, hgoing⟩ := ih
      have hgoing := hgoing hterm
      obtain ⟨hontime, hboundary⟩ := (runs_onTime hrun.runs).2 hterm
      rcases step_counts hboundary hdomains hgoing.notCapped hok.counts with
        ⟨hentered, hcap, hcounts⟩ | ⟨hentered, hcycles, hcap⟩
      · have htime := time_le_of_step hboundary hontime
        rw [hentered, if_pos rfl]
        refine ⟨haccounts.step hdomains hgoing hok.skips htime hcounts, fun h => ?_, ?_⟩
        · cases hcap.symm.trans h
        · intro hlive
          rcases hstep : Gfsim.step m s with ⟨_ | _, t⟩
          · rw [hstep, step_none_terminated hboundary hstep] at hlive
            cases hlive
          · rw [hstep] at hcap
            exact hgoing.step hboundary hok.skips hcap hstep
      · obtain ⟨hnone, hepoch⟩ := step_of_not_entered hboundary hentered
        rw [hentered, if_neg Bool.false_ne_true]
        refine ⟨?_, fun h => ?_, fun hlive => ?_⟩
        · rw [hepoch, hcycles]
          exact haccounts
        · obtain ⟨hdelta, d, hd, hedge, hatcap⟩ := hcap h
          rw [hepoch]
          exact ⟨hdelta, isLeast_of_atCap hdomains haccounts hgoing hdelta hd hedge hatcap⟩
        · have hended := step_none_terminated hboundary (t := (Gfsim.step m s).2)
            (Prod.ext hnone rfl)
          cases hended.symm.trans hlive

theorem atDomainCap_of_diagnostic {s : SimSystem}
    (h : s.result.diagnostic = some .maxDomainCyclesReached) : s.tally.atDomainCap = true := by
  rw [tally, h]
  rfl

/-- **The cycles of the time domains.**  In every run whose steps neither jump over an edge nor
stop after they have counted one: every domain has counted its edges before the current tick,
and the edge of that tick once its epoch has opened, and an ended run reports these counts; no
count exceeds its maximum; the cap on cycles ends the run at the first edge at which a maximum
is reached, and no epoch opens from that edge on; a step that does not open its epoch counts
nothing.  So two runs under the same domains agree: on the counts when they stand at the same
tick, whatever they executed on the way, and on the epoch at which the cap ends them. -/
theorem Ticking.accounted (hvalid : timeDomainsValid "" m.config.timeDomains = true)
    (h : Ticking m host (Faithful m) opened s) :
    (∀ d ∈ m.config.timeDomains, s.sys.domainCycles.lookup d.name =
      some (edgesBy d opened s.sys.epoch.time)) ∧
    (s.sys.terminated = true → s.sys.result.domainCycles = s.sys.domainCycles ∧
      s.sys.result.finalEpoch = s.sys.epoch) ∧
    (∀ d ∈ m.config.timeDomains, ∀ maximum,
      m.config.maxDomainCycles.lookup d.name = some maximum →
        edgesBy d opened s.sys.epoch.time ≤ maximum) ∧
    (s.sys.result.diagnostic = some .maxDomainCyclesReached →
      s.sys.epoch.delta = 0 ∧ IsLeast m.config.capEdges s.sys.epoch.time) ∧
    (∀ e ∈ opened, ∀ edge ∈ m.config.capEdges, e.time < edge) ∧
    (Faithful m s → entered m s = false →
      (Gfsim.step m s).2.sys.domainCycles = s.sys.domainCycles) ∧
    ∀ {W' : Type} (m' : Model W') (host' : Host W') (opened' : List Epoch) (s' : State W'),
      m'.config.timeDomains = m.config.timeDomains →
      m'.config.maxDomainCycles = m.config.maxDomainCycles →
      Ticking m' host' (Faithful m') opened' s' →
      (s'.sys.epoch.time = s.sys.epoch.time →
        ((⟨s.sys.epoch.time, 0⟩ : Epoch) ∈ opened' ↔ (⟨s.sys.epoch.time, 0⟩ : Epoch) ∈ opened) →
        ∀ d ∈ m.config.timeDomains,
          s'.sys.domainCycles.lookup d.name = s.sys.domainCycles.lookup d.name) ∧
      (s.sys.result.diagnostic = some .maxDomainCyclesReached →
        s'.sys.result.diagnostic = some .maxDomainCyclesReached →
        s'.sys.epoch = s.sys.epoch) := by
  have hdomains := domained_of_valid hvalid
  obtain ⟨haccounts, hcapped, hgoing⟩ := h.invariant hdomains
  have honTime := runs_onTime h.runs
  have hatCap := fun hdiagnostic => hcapped (atDomainCap_of_diagnostic hdiagnostic)
  refine ⟨haccounts.counted, fun hterm => ?_, haccounts.within, hatCap, haccounts.before,
    fun hfaithful hentered => ?_, fun m' host' opened' s' hsame hcaps h' => ⟨?_, ?_⟩⟩
  · have hsynced := honTime.1 hterm
    exact ⟨hsynced.domainCycles, hsynced.finalEpoch⟩
  · cases hterm : s.sys.terminated with
    | true => rw [step_of_terminated hterm]
    | false =>
      rcases step_counts (honTime.2 hterm).2 hdomains (hgoing hterm).notCapped hfaithful.counts
        with ⟨htrue, _⟩ | ⟨_, hcycles, _⟩
      · cases hentered.symm.trans htrue
      · exact hcycles
  · intro htime hopened d hd
    have haccounts' := (h'.invariant (domained_of_valid (hsame ▸ hvalid))).1
    rw [haccounts.counted d hd, haccounts'.counted d (hsame ▸ hd), htime]
    simp only [edgesBy, hopened]
  · intro hdiagnostic hdiagnostic'
    have hcapped' := (h'.invariant (domained_of_valid (hsame ▸ hvalid))).2.1
    obtain ⟨hdelta, hleast⟩ := hatCap hdiagnostic
    obtain ⟨hdelta', hleast'⟩ := hcapped' (atDomainCap_of_diagnostic hdiagnostic')
    have hedges : m'.config.capEdges = m.config.capEdges := by
      unfold Config.capEdges
      rw [hsame, hcaps]
    rw [hedges] at hleast'
    rw [eq_iff]
    exact ⟨hleast'.unique hleast, hdelta'.trans hdelta.symm⟩

/-! ### Fixed runs -/

/-- `n` steps, with the epochs they open. -/
def tickOn (m : Model W) : ℕ → List Epoch × State W → List Epoch × State W
  | 0, p => p
  | n + 1, p => tickOn m n
      (if entered m p.2 then p.2.sys.epoch :: p.1 else p.1, (step m p.2).2)

theorem Ticking.tickOn (hok : ∀ s, ok s) (n : ℕ) {p : List Epoch × State W}
    (h : Ticking m host ok p.1 p.2) :
    Ticking m host ok (Gfsim.tickOn m n p).1 (Gfsim.tickOn m n p).2 := by
  induction n generalizing p with
  | zero => exact h
  | succ n ih => exact ih (.step h (hok p.2))

end run

/-- One object whose Work does nothing, under the given time domains and caps. -/
def noopModel (domains : List TimeDomainRuntime) (caps : List (String × ℕ)) : Model Unit where
  config := { Config.ofKinds [.compute] with timeDomains := domains, maxDomainCycles := caps }
  hooks := {}

/-- The host wakes the object at the given ticks. -/
def wakeAt (ticks : List ℕ) : Body Unit :=
  ticks.foldr (fun tick rest => .scheduleWork 0 ⟨tick, 0⟩ fun _ => rest) (.done ())

def noopStart (domains : List TimeDomainRuntime) (caps : List (String × ℕ)) (ticks : List ℕ) :
    State Unit :=
  let m := noopModel domains caps
  hostCall m (fun _ => wakeAt ticks) (State.fresh m ())

theorem ticking_noopStart (domains : List TimeDomainRuntime) (caps : List (String × ℕ))
    (ticks : List ℕ) (ok : State Unit → Prop) :
    Ticking (noopModel domains caps) {} ok [] (noopStart domains caps ticks) :=
  .host (fun _ => wakeAt ticks) trivial (.fresh () trivial)

/-- A domain with an edge at every fifth tick. -/
def slowClock : TimeDomainRuntime := { name := "clk", period := 5 }

/-- The object is woken at two edges of the slow clock, with no edge in between. -/
theorem accounted_slowClock :
    (step (noopModel [slowClock] []) (noopStart [slowClock] [] [0, 5])).2.sys.domainCycles.lookup
      "clk" = some 1 := by
  let m := noopModel [slowClock] []
  let s := noopStart [slowClock] [] [0, 5]
  have hfaithful : Faithful m s := by
    refine ⟨fun d hd tick hedge hlt => ?_, fun _ _ _ _ => Or.inl (by decide)⟩
    obtain rfl : d = slowClock := mem_singleton.mp hd
    obtain ⟨n, hn⟩ := hedge
    have hzero : s.sys.epoch = ⟨0, 0⟩ := by decide
    have hfive : (step m s).2.sys.epoch = ⟨5, 0⟩ := by decide
    rw [hzero, lt_def] at hlt
    rw [hfive, le_def]
    simp only [slowClock] at hn hlt ⊢
    omega
  have hrun : Ticking m {} (Faithful m) [⟨0, 0⟩] (step m s).2 :=
    .step (ticking_noopStart [slowClock] [] [0, 5] (Faithful m)) hfaithful
  have hcount := (hrun.accounted (by decide)).1 slowClock mem_cons_self
  exact hcount.trans (by decide)

/-- A domain with an edge at every tick. -/
def clock (name : String) : TimeDomainRuntime := { name := name }

/-- Two runs of the no-op object end at tick 5 of a clock with six edges up to there.  Woken at
ticks 0 and 5 the system reports two cycles, with no-op wakes in between six.  And when a second
domain stops a run at its cap, the first has counted the edge of the tick that is not
executed. -/
theorem skipped_edges :
    (∃ opened s, Ticking (noopModel [clock "clk"] []) {} (fun _ => True) opened s ∧
      s.sys.terminated = true ∧ s.sys.epoch = ⟨5, 0⟩ ∧ ⟨5, 0⟩ ∈ opened ∧
      edgesBy (clock "clk") opened 5 = 6 ∧
      s.sys.result.domainCycles.lookup "clk" = some 2) ∧
    (∃ opened s, Ticking (noopModel [clock "clk"] []) {} (fun _ => True) opened s ∧
      s.sys.terminated = true ∧ s.sys.epoch = ⟨5, 0⟩ ∧ ⟨5, 0⟩ ∈ opened ∧
      edgesBy (clock "clk") opened 5 = 6 ∧
      s.sys.result.domainCycles.lookup "clk" = some 6) ∧
    ∃ opened s, Ticking (noopModel [clock "a", clock "b"] [("b", 1)]) {} (fun _ => True) opened s ∧
      s.sys.result.diagnostic = some .maxDomainCyclesReached ∧ s.sys.epoch = ⟨1, 0⟩ ∧
      ⟨1, 0⟩ ∉ opened ∧ edgesBy (clock "a") opened 1 = 1 ∧
      s.sys.result.domainCycles.lookup "a" = some 2 := by
  have hrun (domains : List TimeDomainRuntime) (caps : List (String × ℕ)) (ticks : List ℕ)
      (n : ℕ) := (ticking_noopStart domains caps ticks fun _ => True).tickOn (fun _ => trivial) n
        (p := ([], noopStart domains caps ticks))
  exact ⟨⟨_, _, hrun _ _ [0, 5] 2, by decide +kernel⟩,
    ⟨_, _, hrun _ _ [0, 1, 2, 3, 4, 5] 6, by decide +kernel⟩, _, _, hrun _ _ [0, 1] 2,
    by decide +kernel⟩

end AgenticCircuit.Gfsim
