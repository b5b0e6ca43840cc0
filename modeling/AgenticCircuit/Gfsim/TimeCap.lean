import AgenticCircuit.Gfsim.Monotone

/-! # The tick cap

No Work and no Xfer runs at or after the declared maximum tick, and time never stands beyond
it.  Four places of `step` move the epoch forward: the advance to the next epoch, the tick cap
itself, the deadline of the deadlock window with nothing pending, and the deadline with work
pending.  The last one does not compare the deadline with the cap: when the next work lies at
or after the cap and the deadline does too, the window logic ends the run first (`Overshoots`). -/

namespace AgenticCircuit.Gfsim

/-! ### The invariant -/

/-- Time is within the cap, and strictly before it wherever an epoch executes. -/
structure WithinCap (c : Config) (s : SimSystem) : Prop where
  epoch : s.epoch.time ≤ c.maxTicks
  executing : s.executingEpoch = true → s.epoch.time < c.maxTicks
  worked : ∀ id e, .worked id e ∈ s.trail.history → e.time < c.maxTicks
  xferred : ∀ id e, .xferred id e ∈ s.trail.history → e.time < c.maxTicks

/-- What a reached state shows of it. -/
structure TimeCapped (c : Config) (s : SimSystem) : Prop where
  epoch : s.epoch.time ≤ c.maxTicks
  finalEpoch : s.result.finalEpoch.time ≤ c.maxTicks
  worked : ∀ id e, .worked id e ∈ s.trail.history → e.time < c.maxTicks
  xferred : ∀ id e, .xferred id e ∈ s.trail.history → e.time < c.maxTicks

namespace WithinCap

variable {c : Config} {s t : SimSystem}

theorem position (h : Move c s t) (hs : WithinCap c s) :
    t.executingEpoch = true → s.epoch.time < c.maxTicks := by
  cases h with
  | call h =>
    cases h with
    | fail => exact nofun
    | _ => exact hs.executing
  | openEpoch live hclosed hfree htime => exact fun _ => htime
  | close => exact nofun
  | commitEvents =>
    unfold SimSystem.commitEvents
    split <;> exact hs.executing
  | _ => exact hs.executing

theorem move (h : Move c s t) (hs : WithinCap c s) : WithinCap c t := by
  obtain ⟨os, hhistory, hos⟩ := h.history_append
  refine ⟨?_, ?_, fun id e ho => ?_, fun id e ho => ?_⟩
  · rw [h.epoch_eq]
    exact hs.epoch
  · rw [h.epoch_eq]
    exact position h hs
  · rw [hhistory] at ho
    rcases List.mem_append.mp ho with ho | ho
    · exact hs.worked id e ho
    · obtain ⟨rfl, executing, _⟩ := hos _ ho
      exact hs.executing executing
  · rw [hhistory] at ho
    rcases List.mem_append.mp ho with ho | ho
    · exact hs.xferred id e ho
    · obtain ⟨rfl, executing⟩ := hos _ ho
      exact hs.executing executing

theorem fresh {W : Type} (m : Model W) (w : W) : WithinCap m.config (State.fresh m w).sys :=
  ⟨Nat.zero_le _, nofun, nofun, nofun⟩

/-- The invariant at the end of a run, wherever the end puts the epoch. -/
theorem timeCapped (hs : WithinCap c s) (htrail : t.trail = s.trail)
    (hepoch : t.epoch.time ≤ c.maxTicks) (hfinal : t.result.finalEpoch.time ≤ c.maxTicks) :
    TimeCapped c t := by
  refine ⟨hepoch, hfinal, ?_, ?_⟩
  · rw [htrail]
    exact hs.worked
  · rw [htrail]
    exact hs.xferred

theorem halt (h : Halt c s t) (hs : WithinCap c s)
    (hfinal : s.result.finalEpoch.time ≤ c.maxTicks) : TimeCapped c t := by
  have hresult : t.result.finalEpoch.time ≤ c.maxTicks := by
    cases h with
    | returned => exact hfinal
    | returnedXfer committed => cases committed <;> exact hfinal
    | failed | stale | capped | maxTicks => exact hs.epoch
  obtain ⟨os, hhistory, hos⟩ := h.history_append
  refine ⟨?_, hresult, fun id e ho => ?_, fun id e ho => ?_⟩
  · rw [h.epoch_eq]
    exact hs.epoch
  · rw [hhistory] at ho
    refine hs.worked id e ((List.mem_append.mp ho).resolve_right fun ho => ?_)
    rcases hos with rfl | ⟨id', _, rfl⟩ <;> simp at ho
  · rw [hhistory] at ho
    refine hs.xferred id e ((List.mem_append.mp ho).resolve_right fun ho => ?_)
    rcases hos with rfl | ⟨id', _, rfl⟩ <;> simp at ho

end WithinCap

/-! ### The choice of the next epoch -/

section run

variable {W : Type} {m : Model W} {s t : SimSystem} {c : Config}

/-- After the epoch of `s`, the next pending work lies at or after the cap, the deadline of the
deadlock window does not lie before the cap, and the window logic ends the run. -/
def Overshoots (m : Model W) (s : State W) : Prop :=
  ∃ r next window, executeEpoch m s = (some (), r) ∧ nextEpoch r.sys = some (next, false) ∧
    m.config.deadlockWindow = some window ∧ m.config.maxTicks ≤ next.time ∧
    m.config.maxTicks ≤ r.sys.lastProgressTick + window ∧
    (uint64Max - window < r.sys.lastProgressTick ∨
      r.sys.lastProgressTick + window ≤ next.time)

/-- When everything pending after the epoch of `s` lies at or after the cap, and so does the
deadline of the deadlock window, the run stops at exactly the cap. -/
def StopsAtCap (m : Model W) (s : State W) : Prop :=
  ∀ r next isEvent, executeEpoch m s = (some (), r) → nextEpoch r.sys = some (next, isEvent) →
    m.config.maxTicks ≤ next.time → (∀ window, m.config.deadlockWindow = some window →
      m.config.maxTicks ≤ r.sys.lastProgressTick + window) →
    (step m s).2.sys.epoch = ⟨m.config.maxTicks, 0⟩ ∧
    (step m s).2.sys.result.classification = .incomplete ∧
    (step m s).2.sys.result.diagnostic = some .maxTicksReached

/-- The end of a run by the choice of the next epoch stays within the cap, unless the deadline
with work pending overshoots it. -/
theorem WithinCap.selected (hs : WithinCap c s) (h : Selected c s none t)
    (hover : ∀ next window, nextEpoch s = some (next, false) →
      c.deadlockWindow = some window → c.maxTicks ≤ next.time →
      s.lastProgressTick + window ≤ next.time → s.lastProgressTick + window < c.maxTicks) :
    TimeCapped c t := by
  cases h with
  | nonMonotonic | overflow => exact hs.timeCapped rfl hs.epoch hs.epoch
  | @deadline next window hnext hlt hwindow hfits hdeadline =>
    have htime : s.lastProgressTick + window ≤ c.maxTicks := by
      by_cases hcap : c.maxTicks ≤ next.time
      · exact le_of_lt (hover next window hnext hwindow hcap hdeadline)
      · omega
    exact hs.timeCapped rfl htime htime
  | maxTicks => exact hs.timeCapped rfl le_rfl le_rfl
  | exhausted hnone hend =>
    cases hend with
    | traceOwners | traceCap => exact hs.timeCapped rfl hs.epoch hs.epoch
    | classified _ hend =>
      cases hend with
      | completed | noProgress | overflow => exact hs.timeCapped rfl hs.epoch hs.epoch
      | maxTicks => exact hs.timeCapped rfl le_rfl le_rfl
      | deadline _ _ _ hcap => exact hs.timeCapped rfl (le_of_lt hcap) (le_of_lt hcap)

/-- What every move keeps. -/
def CapInv (c : Config) (s : SimSystem) : Prop :=
  WithinCap c s ∧ s.result.finalEpoch.time ≤ c.maxTicks

theorem CapInv.move (h : Move c s t) (hs : CapInv c s) : CapInv c t := by
  refine ⟨hs.1.move h, ?_⟩
  rcases h.result_cases with ⟨_, _, hfinal, _⟩ | ⟨d, _, rfl⟩
  · rw [hfinal]
    exact hs.2
  · exact hs.1.epoch

theorem reaches_capped {s : State W} (h : Reaches m (fun s => ¬ Overshoots m s) s) :
    (s.sys.terminated = true → TimeCapped m.config s.sys) ∧
    (s.sys.terminated = false → CapInv m.config s.sys ∧ AtBoundary s.sys) := by
  refine Runs.sys_invariant (I := CapInv m.config) ?_ ?_ ?_ ?_ ?_ h
  · exact fun w => ⟨.fresh m w, Nat.zero_le _⟩
  · exact fun s t hst hs => hs.move hst
  · exact fun s t hs hst => hs.1.halt hst hs.2
  · exact fun _ r _ _ _ _ hr _ _ _ => hr.1.timeCapped rfl le_rfl le_rfl
  · intro s r hok _ _ hexecute hr hdrained q o t hq hI hsel
    refine ⟨?_, ?_⟩
    · rintro rfl
      obtain ⟨next, _, _, _, _, htime, rfl⟩ := hsel.advance_inv
      have hboundary := hq.atBoundary hdrained
      refine ⟨⟨le_of_lt htime, fun _ => htime, hI.1.worked, hI.1.xferred⟩, hI.2⟩
    · rintro rfl
      refine hI.1.selected hsel fun next window hnext hwindow hcap hdeadline => ?_
      have hsame : nextEpoch q = nextEpoch r.sys := by cases hq <;> rfl
      have hprogress : q.lastProgressTick = r.sys.lastProgressTick := by cases hq <;> rfl
      rw [hsame] at hnext
      rw [hprogress] at hdeadline ⊢
      by_contra hlt
      exact hok ⟨r, next, window, hexecute, hnext, hwindow, hcap, not_lt.mp hlt, Or.inr hdeadline⟩

/-- The run stops at exactly the cap if and only if the window logic does not end it first. -/
theorem stopsAtCap_iff {s : State W} (htimely : Timely s.sys) (hs : AtBoundary s.sys) :
    StopsAtCap m s ↔ ¬ Overshoots m s := by
  constructor
  · rintro hstops ⟨r, next, window, hexecute, hnext, hwindow, hcap, hdeadline, hover⟩
    have hstop := hstops r next false hexecute hnext hcap fun w hw => by
      rw [hwindow] at hw
      cases hw
      exact hdeadline
    have hnext' : nextEpoch r.sys.closeEpoch = some (next, false) := hnext
    have hnowindow : ¬ WithinWindow m.config r.sys.closeEpoch next false := by
      intro hin
      have hin : r.sys.lastProgressTick ≤ uint64Max - window ∧
        next.time < r.sys.lastProgressTick + window := hin window hwindow rfl
      omega
    have hsel := step_selected hexecute hnext
    obtain ⟨_, hclass, _⟩ := hstop
    generalize (step m s).1 = o at hsel
    generalize (step m s).2.sys = t at hsel hclass
    cases hsel with
    | advance h _ hin _ | maxTicks h _ hin _ =>
      cases hnext'.symm.trans h
      exact hnowindow hin
    | exhausted h _ => cases hnext'.symm.trans h
    | nonMonotonic | overflow | deadline => cases hclass
  · intro hnot r next isEvent hexecute hnext hcap hwindow
    obtain ⟨hpath, hdrained⟩ := executeEpoch_spec hs hexecute
    have hr : Timely r.sys := Exit.preserves_of_path (fun _ _ h hs => hs.move h)
      (moves_of_trans hpath) htimely
    have hnext' : nextEpoch r.sys.closeEpoch = some (next, isEvent) := hnext
    have hsel := step_selected hexecute hnext
    generalize (step m s).1 = o at hsel
    generalize (step m s).2.sys = t at hsel ⊢
    cases hsel with
    | advance h _ _ htime =>
      cases hnext'.symm.trans h
      omega
    | nonMonotonic h hle =>
      have hsome : nextEpoch r.sys ≠ none := by
        rw [hnext]
        nofun
      have hlt := epoch_lt_nextEpoch hr hdrained (Closed.plain (m := m) hsome) h
      exact absurd hle (not_le.mpr hlt)
    | overflow h _ hw hover =>
      cases hnext'.symm.trans h
      exact absurd ⟨r, _, _, hexecute, hnext, hw, hcap, hwindow _ hw, Or.inl hover⟩ hnot
    | deadline h _ hw _ hdeadline =>
      cases hnext'.symm.trans h
      exact absurd ⟨r, _, _, hexecute, hnext, hw, hcap, hwindow _ hw, Or.inr hdeadline⟩ hnot
    | maxTicks => exact ⟨rfl, rfl, rfl⟩
    | exhausted h _ => cases hnext'.symm.trans h

/-- **The tick cap.**  In every run none of whose steps overshoots, no Work or Xfer runs at or
after the cap and the epoch never lies beyond it; and a step from a live state stops at exactly
the cap, whenever everything pending and the deadline lie at or after it, if and only if it
does not overshoot. -/
theorem time_cap {s : State W} (h : Reaches m (fun s => ¬ Overshoots m s) s) :
    TimeCapped m.config s.sys ∧
      (s.sys.terminated = false → (StopsAtCap m s ↔ ¬ Overshoots m s)) := by
  have hs := reaches_capped h
  cases hterm : s.sys.terminated with
  | true => exact ⟨hs.1 hterm, nofun⟩
  | false =>
    obtain ⟨⟨hcap, hfinal⟩, hboundary⟩ := hs.2 hterm
    exact ⟨hcap.timeCapped rfl hcap.epoch hfinal, fun _ =>
      stopsAtCap_iff ((reaches_timely h).2 hterm).1.1 hboundary⟩

end run

/-- A process that wakes itself at tick 20, under a cap of 5 ticks. -/
def lateModel (window : Option ℕ) : Model Unit where
  config := { Config.ofKinds [.process] with maxTicks := 5, deadlockWindow := window }
  hooks := { doWork := fun _ _ w => .scheduleWork 0 ⟨20, 0⟩ fun _ => .done w }

def lateStart (window : Option ℕ) : State Unit :=
  startRun (lateModel window) (State.fresh (lateModel window) ())

theorem time_cap_late :
    TimeCapped (lateModel none).config (step (lateModel none) (lateStart none)).2.sys ∧
    (step (lateModel none) (lateStart none)).2.sys.epoch = ⟨5, 0⟩ := by
  have hnot : ¬ Overshoots (lateModel none) (lateStart none) := by
    rintro ⟨_, _, _, _, _, hwindow, _⟩
    cases hwindow
  have h : Reaches (lateModel none) (fun s => ¬ Overshoots (lateModel none) s)
      (step (lateModel none) (lateStart none)).2 := .step (.start (.fresh () trivial) rfl) hnot
  exact ⟨(time_cap h).1, by decide⟩

/-- With a window of 10 ticks the run fails at tick 10, beyond the cap. -/
theorem deadline_passes_cap :
    Reachable (lateModel (some 10)) (step (lateModel (some 10)) (lateStart (some 10))).2 ∧
    (step (lateModel (some 10)) (lateStart (some 10))).2.sys.epoch = ⟨10, 0⟩ ∧
    (step (lateModel (some 10)) (lateStart (some 10))).2.sys.result.diagnostic =
      some .deadlockPending ∧
    ¬ TimeCapped (lateModel (some 10)).config
      (step (lateModel (some 10)) (lateStart (some 10))).2.sys := by
  refine ⟨.step (.start (.fresh () trivial) rfl) trivial, by decide, by decide, fun h => ?_⟩
  have hpassed := h.epoch
  revert hpassed
  decide

end AgenticCircuit.Gfsim
