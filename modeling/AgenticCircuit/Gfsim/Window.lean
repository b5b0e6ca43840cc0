import AgenticCircuit.Gfsim.Monotone

/-! # The deadlock window

A run may be given a window: it fails when that many ticks pass without a commit or an event
delivery.  The deadline is the last progress tick plus the window.

* **Soundness.**  When the window logic ends a run, at least the window has elapsed since the
  last progress.  It fails where the deadline does not fit into 64 bits: `step` then fails at
  once, however little time has passed (`Overflows`).
* **Monotonicity.**  An executed epoch does not depend on the window, so that two runs with
  windows `w₁ ≤ w₂` can differ only where the window logic ends the first. -/

namespace AgenticCircuit.Gfsim

open Exit State Diagnostic List

open Relation (ReflTransGen)

/-! ### Progress -/

/-- The tick of a commit or of an event delivery. -/
def Occurrence.progressTick : Occurrence → Option ℕ
  | .delivered _ e | .published _ e | .eventsPublished e => some e.time
  | _ => none

/-- The last progress tick bounds every recorded progress and is not in the future. -/
structure Progressed (s : SimSystem) : Prop where
  last : ∀ o ∈ s.trail.history, ∀ t, o.progressTick = some t → t ≤ s.lastProgressTick
  past : s.lastProgressTick ≤ s.epoch.time

namespace Progressed

variable {c : Config} {s t : SimSystem}

theorem fresh {W : Type} (m : Model W) (w : W) : Progressed (fresh m w).sys :=
  ⟨nofun, Nat.zero_le _⟩

theorem record (hs : Progressed s) (o : Occurrence) (hepoch : t.epoch = s.epoch)
    (hhistory : t.trail.history = s.trail.history ++ [o])
    (htick : ∀ n, o.progressTick = some n → n = s.epoch.time)
    (hlast : t.lastProgressTick = s.epoch.time) : Progressed t := by
  refine ⟨fun o' ho' n hn => ?_, ?_⟩
  · rw [hlast]
    rw [hhistory] at ho'
    rcases mem_append.mp ho' with ho' | ho'
    · exact le_trans (hs.last o' ho' n hn) hs.past
    · rw [mem_singleton.mp ho'] at hn
      exact le_of_eq (htick n hn)
  · rw [hlast, hepoch]

theorem skip (hs : Progressed s) (os : List Occurrence) (hepoch : t.epoch = s.epoch)
    (hhistory : t.trail.history = s.trail.history ++ os) (hos : ∀ o ∈ os, o.progressTick = none)
    (hlast : t.lastProgressTick = s.lastProgressTick) : Progressed t := by
  refine ⟨fun o' ho' n hn => ?_, ?_⟩
  · rw [hlast]
    rw [hhistory] at ho'
    rcases mem_append.mp ho' with ho' | ho'
    · exact hs.last o' ho' n hn
    · rw [hos o' ho'] at hn
      cases hn
  · rw [hlast, hepoch]
    exact hs.past

theorem move (h : Move c s t) (hs : Progressed s) : Progressed t := by
  have hone {o : Occurrence} (ho : o.progressTick = none) :
      ∀ o' ∈ [o], o'.progressTick = none := by
    intro o' ho'
    rw [mem_singleton.mp ho', ho]
  cases h with
  | call h =>
    cases h with
    | schedule | accept => exact hs.skip [_] rfl rfl (hone rfl) rfl
    | _ => exact hs.skip [] rfl (append_nil _).symm nofun rfl
  | count | publish => exact hs.record _ rfl rfl (fun n hn => (Option.some.inj hn).symm) rfl
  | commitEvents =>
    unfold SimSystem.commitEvents
    split
    · exact hs.record _ rfl rfl (fun n hn => (Option.some.inj hn).symm) rfl
    · exact hs.skip [] rfl (append_nil _).symm nofun rfl
  | startWork | markXfer | asked => exact hs.skip [_] rfl rfl (hone rfl) rfl
  | _ => exact hs.skip [] rfl (append_nil _).symm nofun rfl

theorem advance (hs : Progressed s) {next : Epoch} (hlt : s.epoch < next) :
    Progressed { s with epoch := next } :=
  ⟨hs.last, le_trans hs.past (Epoch.time_le_of_le (le_of_lt hlt))⟩

end Progressed

/-! ### Soundness -/

/-- The diagnostics of the window logic. -/
def Diagnostic.ofWindow : Diagnostic → Bool
  | .windowOverflow | .deadlockExhausted _ | .deadlockPending => true
  | _ => false

/-- The window logic has ended the run. -/
def StoppedByWindow (s : SimSystem) : Prop :=
  ∃ d, s.result.diagnostic = some d ∧ d.ofWindow = true

/-- At least `window` ticks have passed since the last progress, and nothing was pending in
between. -/
structure Elapsed (window : ℕ) (s : SimSystem) : Prop where
  elapsed : s.lastProgressTick + window ≤ s.epoch.time
  progress : ∀ o ∈ s.trail.history, ∀ t, o.progressTick = some t → t ≤ s.lastProgressTick
  work : ∀ w ∈ s.scheduledWork, s.epoch.time ≤ w.epoch.time
  events : ∀ e ∈ s.eventQueue.committed, s.epoch.time ≤ e.readyTime.time

section window

variable {W : Type} {m : Model W}
variable {d : Diagnostic} {s : State W} {window : ℕ}

/-- After the epoch of `s` the deadline is computed, with work pending or with nothing left but
unfinished objects, and it does not fit into 64 bits. -/
def Overflows (m : Model W) (s : State W) : Prop :=
  ∃ r window, executeEpoch m s = (some (), r) ∧ m.config.deadlockWindow = some window ∧
    uint64Max - window < r.sys.lastProgressTick ∧
    ((∃ next, nextEpoch r.sys = some (next, false)) ∨
      (nextEpoch r.sys = none ∧
        TraceGoesOn m.config (refreshed m ⟨r.sys.closeEpoch, r.world⟩) ∧
        (refreshed m ⟨r.sys.closeEpoch, r.world⟩).noProgress.blockedObjects ≠ []))

theorem not_overflows (hwindow : m.config.deadlockWindow = some window)
    (h : (executeEpoch m s).2.sys.lastProgressTick ≤ uint64Max - window) : ¬ Overflows m s := by
  rintro ⟨r, w, hexecute, hw, hover, _⟩
  cases hwindow.symm.trans hw
  rw [hexecute] at h
  exact absurd h (not_le.mpr hover)

/-- What every move keeps. -/
structure WindowInv (s : SimSystem) : Prop where
  timely : Timely s
  progressed : Progressed s
  notStopped : ¬ StoppedByWindow s

theorem not_stoppedByWindow_of_some {s : SimSystem}
    (h : s.result.diagnostic = some d) (hd : d.ofWindow = false) : ¬ StoppedByWindow s := by
  rintro ⟨d', h', hd'⟩
  rw [h] at h'
  cases h'
  rw [hd] at hd'
  cases hd'

theorem Diagnostic.ofWindow_of_ofCall (h : d.ofCall = true) : d.ofWindow = false := by
  cases d <;> first | rfl | cases h

theorem Diagnostic.ofWindow_of_ofStep (h : d.ofStep = true) : d.ofWindow = false := by
  cases d <;> first | rfl | cases h

theorem Diagnostic.ofWindow_of_ofCap (h : d.ofCap = true) : d.ofWindow = false := by
  cases d <;> first | rfl | cases h

variable {c : Config}

theorem WindowInv.move {s t : SimSystem} (h : Move c s t) (hs : WindowInv s) : WindowInv t := by
  refine ⟨hs.timely.move h, hs.progressed.move h, ?_⟩
  rcases h.result_cases with ⟨hdiagnostic, _⟩ | ⟨d, hd, rfl⟩
  · unfold StoppedByWindow
    rw [hdiagnostic]
    exact hs.notStopped
  · exact not_stoppedByWindow_of_some rfl (ofWindow_of_ofCall hd)

theorem WindowInv.halt {s t : SimSystem} (h : Halt c s t) (hs : WindowInv s) :
    ¬ StoppedByWindow t := by
  cases h with
  | returned => exact hs.notStopped
  | returnedXfer committed => cases committed <;> exact hs.notStopped
  | failed live hd => exact not_stoppedByWindow_of_some rfl (ofWindow_of_ofStep hd)
  | stale | maxTicks => exact not_stoppedByWindow_of_some rfl rfl
  | capped live hfree hd =>
    exact not_stoppedByWindow_of_some rfl (ofWindow_of_ofCap hd)

/-- When the window logic chooses the end of a run without an overflow, its window has elapsed. -/
theorem WindowInv.selected {s t : SimSystem} (hs : WindowInv s) (h : Selected c s none t)
    (hwindow : c.deadlockWindow = some window)
    (hpending : ∀ next, nextEpoch s = some (next, false) → s.lastProgressTick ≤ uint64Max - window)
    (hexhausted : nextEpoch s = none → TraceGoesOn c s → s.noProgress.blockedObjects ≠ [] →
      s.lastProgressTick ≤ uint64Max - window) (hstopped : StoppedByWindow t) :
    Elapsed window t := by
  cases h with
  | nonMonotonic | maxTicks => exact absurd hstopped (not_stoppedByWindow_of_some rfl rfl)
  | overflow hnext hlt hw hover =>
    cases hwindow.symm.trans hw
    exact absurd (hpending _ hnext) (not_le.mpr hover)
  | deadline hnext hlt hw hfits hdeadline =>
    cases hwindow.symm.trans hw
    obtain ⟨_, _, hwork, hevents⟩ := nextEpoch_spec hs.timely hnext
    refine ⟨le_rfl, hs.progressed.last, fun w hw => ?_, fun e he => ?_⟩
    · exact le_trans hdeadline (Epoch.time_le_of_le (hwork w hw))
    · exact le_trans hdeadline (Epoch.time_le_of_le (hevents e he))
  | exhausted hnone hend =>
    obtain ⟨hwork, hevents⟩ := nextEpoch_eq_none hnone
    cases hend with
    | traceOwners | traceCap => exact absurd hstopped (not_stoppedByWindow_of_some rfl rfl)
    | classified hgo hend =>
      cases hend with
      | completed => exact absurd hstopped hs.notStopped
      | noProgress | maxTicks => exact absurd hstopped (not_stoppedByWindow_of_some rfl rfl)
      | overflow hblocked hw hover =>
        cases hwindow.symm.trans hw
        exact absurd (hexhausted hnone hgo hblocked) (not_le.mpr hover)
      | deadline hblocked hw hfits hcap =>
        cases hwindow.symm.trans hw
        refine ⟨le_rfl, hs.progressed.last, fun w hw => ?_, fun e he => ?_⟩
        · change w ∈ s.scheduledWork at hw
          rw [hwork] at hw
          cases hw
        · change e ∈ s.eventQueue.committed at he
          rw [hevents] at he
          cases he

theorem reaches_window (h : Reaches m (fun s => ¬ Overflows m s) s) :
    (s.sys.terminated = true → StoppedByWindow s.sys → ∀ window,
      m.config.deadlockWindow = some window → Elapsed window s.sys) ∧
    (s.sys.terminated = false → WindowInv s.sys ∧ AtBoundary s.sys) := by
  refine Runs.sys_invariant (I := WindowInv) (J := fun s => StoppedByWindow s → ∀ window,
      m.config.deadlockWindow = some window → Elapsed window s) ?_ ?_ ?_ ?_ ?_ h
  · refine fun w => ⟨.fresh m w, .fresh m w, ?_⟩
    rintro ⟨d, hd, _⟩
    cases hd
  · exact fun s t hst hs => hs.move hst
  · exact fun s t hs hst hstopped => absurd hstopped (hs.halt hst)
  · exact fun _ _ _ _ _ _ _ _ _ _ hstopped =>
      absurd hstopped (not_stoppedByWindow_of_some rfl rfl)
  · intro s r hok _ _ hexecute hr hdrained q o t hq hI hsel
    refine ⟨?_, ?_⟩
    · rintro rfl
      obtain ⟨next, _, hnext, hlt, _, _, rfl⟩ := hsel.advance_inv
      have hproposals := hq.noProposals hdrained
      exact ⟨hI.timely.advance (hq.atBoundary hdrained).closed hproposals hnext,
        hI.progressed.advance hlt, hI.notStopped⟩
    · rintro rfl hstopped window hwindow
      have hsame : nextEpoch q = nextEpoch r.sys := by cases hq <;> rfl
      have hprogress : q.lastProgressTick = r.sys.lastProgressTick := by cases hq <;> rfl
      refine hI.selected hsel hwindow (fun next hnext => ?_) (fun hnone hgo hblocked => ?_) hstopped
      · by_contra hover
        rw [hprogress, not_le] at hover
        exact hok ⟨r, window, hexecute, hwindow, hover, Or.inl ⟨next, hsame ▸ hnext⟩⟩
      · by_contra hover
        rw [hprogress, not_le] at hover
        cases hq with
        | plain hsome => exact hsome (hsame ▸ hnone)
        | refreshed hnone =>
          exact hok ⟨r, window, hexecute, hwindow, hover, Or.inr ⟨hnone, hgo, hblocked⟩⟩

/-! ### Two windows -/

/-- The same model under another deadlock window. -/
def Model.withWindow (m : Model W) (window : Option ℕ) : Model W :=
  { m with config := { m.config with deadlockWindow := window } }

theorem Body.exec_withWindow (c : Config) (window : Option ℕ) (b : Body W) :
    ∀ s, b.exec { c with deadlockWindow := window } s = b.exec c s := by
  induction b with
  | done w => exact fun _ => rfl
  | view next ih | scheduleWork _ _ _ ih | scheduleEvent _ _ ih
  | registerCommitParticipant _ _ ih | proposeObservation _ _ ih => exact fun s => ih _ _

theorem identityConflictAux_withWindow (c : Config) (window : Option ℕ) (l : List Ptr) :
    ∀ ids paths, Config.identityConflictAux { c with deadlockWindow := window } l ids paths =
      c.identityConflictAux l ids paths := by
  induction l with
  | nil => exact fun _ _ => rfl
  | cons p l ih =>
    intro ids paths
    simp only [Config.identityConflictAux, ih]

theorem callObject_withWindow (window : Option ℕ) (method : Ptr → Epoch → W → Body W) :
    callObject (m.withWindow window) method = callObject m method := by
  have hcall : call (m.withWindow window) method = call m method := by
    funext p s
    unfold call
    rw [← Body.exec_withWindow m.config window]
    rfl
  funext id s
  unfold callObject
  rw [hcall]
  rfl

theorem deliverRounds_withWindow (window : Option ℕ) :
    ∀ n, deliverRounds (m.withWindow window) n = deliverRounds m n
  | 0 => rfl
  | n + 1 => by
    simp only [deliverRounds, deliverRounds_withWindow window n]
    rfl

theorem deliverEvents_withWindow (window : Option ℕ) :
    deliverEvents (m.withWindow window) = deliverEvents m := by
  unfold deliverEvents
  simp only [deliverRounds_withWindow]

theorem preflight_withWindow (window : Option ℕ) :
    preflight (m.withWindow window) = preflight m := by
  have hidentities : validateRuntimeIdentities (m.withWindow window) =
      validateRuntimeIdentities m := by
    unfold validateRuntimeIdentities Config.identityConflict
    simp only [Model.withWindow, identityConflictAux_withWindow]
  unfold preflight
  rw [hidentities]
  rfl

theorem commitEpoch_withWindow (window : Option ℕ) :
    commitEpoch (m.withWindow window) = commitEpoch m := by
  have hwork : workOne (m.withWindow window) = workOne m := by
    funext id
    unfold workOne
    rw [callObject_withWindow]
    rfl
  have harbitrate : arbitrateOne (m.withWindow window) = arbitrateOne m := by
    funext id
    unfold arbitrateOne
    rw [callObject_withWindow]
    rfl
  have hcommit : commitOne (m.withWindow window) = commitOne m := by
    funext id
    unfold commitOne xferObject
    rw [callObject_withWindow]
    rfl
  have hpropose : propose (m.withWindow window) = propose m := by
    unfold propose
    rw [hwork, harbitrate]
  have hxfer : xfer (m.withWindow window) = xfer m := by
    unfold xfer
    rw [hcommit]
    rfl
  unfold commitEpoch proposeEpoch
  rw [preflight_withWindow, deliverEvents_withWindow, hpropose, hxfer]
  rfl

theorem executeEpoch_withWindow (window : Option ℕ) :
    executeEpoch (m.withWindow window) = executeEpoch m := by
  unfold executeEpoch continueEpoch
  rw [commitEpoch_withWindow, deliverEvents_withWindow]
  rfl

/-- `classifyEnd` under a window, written out. -/
theorem classifyEnd_withWindow (window : ℕ) (s : State W) :
    classifyEnd (m.withWindow (some window)) s =
      (none, ⟨if s.sys.noProgress.blockedObjects.isEmpty then s.sys.complete
        else if uint64Max - window < s.sys.lastProgressTick then s.sys.fail .windowOverflow
        else if m.config.maxTicks ≤ s.sys.lastProgressTick + window then
          s.sys.incompleteAtMaxTicks m.config
        else s.sys.failAt (s.sys.lastProgressTick + window)
          (.deadlockExhausted s.sys.noProgress.summary), s.world⟩) := by
  change (if _ then _ else if _ then _ else if m.config.maxTicks ≤ _ then _ else _ :
    Exit (State W) Unit) s = _
  split
  · rfl
  split
  · rfl
  split <;> rfl

/-- `stopAtDeadline` under a window, written out. -/
theorem stopAtDeadline_withWindow (window : ℕ) (next : Epoch) (isEvent : Bool) (s : State W) :
    stopAtDeadline (m.withWindow (some window)) next isEvent s =
      if isEvent then (some (), s) else if uint64Max - window < s.sys.lastProgressTick then
        (none, ⟨s.sys.fail .windowOverflow, s.world⟩)
      else if s.sys.lastProgressTick + window ≤ next.time then
        (none, ⟨s.sys.failAt (s.sys.lastProgressTick + window) .deadlockPending, s.world⟩)
      else (some (), s) := by
  change (if _ then _ else if _ then _ else if _ then _ else _ : Exit (State W) Unit) s = _
  split
  · rfl
  split
  · rfl
  split <;> rfl

theorem stoppedByWindow_fail (s : SimSystem) (hd : d.ofWindow = true) :
    StoppedByWindow (s.fail d) := ⟨d, rfl, hd⟩

variable {w₁ w₂ : ℕ}

theorem classifyEnd_of_le (hle : w₁ ≤ w₂)
    (hfits : s.sys.noProgress.blockedObjects ≠ [] → s.sys.lastProgressTick ≤ uint64Max - w₂)
    (hnot : ¬ StoppedByWindow (classifyEnd (m.withWindow (some w₁)) s).2.sys) :
    classifyEnd (m.withWindow (some w₂)) s = classifyEnd (m.withWindow (some w₁)) s := by
  rw [classifyEnd_withWindow] at hnot
  rw [classifyEnd_withWindow, classifyEnd_withWindow]
  by_cases hblocked : s.sys.noProgress.blockedObjects.isEmpty = true
  · rw [if_pos hblocked, if_pos hblocked]
  rw [if_neg hblocked] at hnot
  rw [if_neg hblocked, if_neg hblocked]
  have hfits := hfits fun h => hblocked (List.isEmpty_iff.mpr h)
  have hover₁ : ¬ uint64Max - w₁ < s.sys.lastProgressTick := by omega
  have hover₂ : ¬ uint64Max - w₂ < s.sys.lastProgressTick := by omega
  rw [if_neg hover₁] at hnot
  rw [if_neg hover₁, if_neg hover₂]
  by_cases hcap : m.config.maxTicks ≤ s.sys.lastProgressTick + w₁
  · have hcap₂ : m.config.maxTicks ≤ s.sys.lastProgressTick + w₂ := by omega
    rw [if_pos hcap, if_pos hcap₂]
  · rw [if_neg hcap] at hnot
    exact absurd (stoppedByWindow_fail _ rfl) hnot

/-- A deadline that does not stop a run stops it under no larger window. -/
theorem stopAtDeadline_of_le {next : Epoch} {isEvent : Bool} (hle : w₁ ≤ w₂)
    (hfits : isEvent = false → s.sys.lastProgressTick ≤ uint64Max - w₂)
    (hnot : ∀ t, stopAtDeadline (m.withWindow (some w₁)) next isEvent s = (none, t) →
      ¬ StoppedByWindow t.sys) :
    stopAtDeadline (m.withWindow (some w₂)) next isEvent s = (some (), s) ∧
      stopAtDeadline (m.withWindow (some w₁)) next isEvent s = (some (), s) := by
  rw [stopAtDeadline_withWindow] at hnot
  rw [stopAtDeadline_withWindow, stopAtDeadline_withWindow]
  cases isEvent with
  | true => exact ⟨rfl, rfl⟩
  | false =>
    have hfits := hfits rfl
    have hover₁ : ¬ uint64Max - w₁ < s.sys.lastProgressTick := by omega
    have hover₂ : ¬ uint64Max - w₂ < s.sys.lastProgressTick := by omega
    simp only [if_neg hover₁, if_neg hover₂] at hnot ⊢
    by_cases hdeadline : s.sys.lastProgressTick + w₁ ≤ next.time
    · rw [if_pos hdeadline] at hnot
      exact absurd (stoppedByWindow_fail _ rfl) (hnot _ rfl)
    · have hdeadline₂ : ¬ s.sys.lastProgressTick + w₂ ≤ next.time := by omega
      rw [if_neg hdeadline, if_neg hdeadline₂]
      exact ⟨rfl, rfl⟩

/-- The deadline is computed in `s` after its epoch and fits into 64 bits. -/
def DeadlineFits (m : Model W) (window : ℕ) (s : State W) : Prop :=
  ((∃ next, nextEpoch s.sys = some (next, false)) ∨
    (nextEpoch s.sys = none ∧ TraceGoesOn m.config (refreshed m s) ∧
      (refreshed m s).noProgress.blockedObjects ≠ [])) →
  s.sys.lastProgressTick ≤ uint64Max - window

theorem selectNext_of_le (hle : w₁ ≤ w₂) (hfits : DeadlineFits m w₂ s)
    (hnot : ¬ StoppedByWindow (selectNext (m.withWindow (some w₁)) s).2.sys) :
    selectNext (m.withWindow (some w₂)) s = selectNext (m.withWindow (some w₁)) s := by
  unfold selectNext at hnot ⊢
  rw [get_bind] at hnot
  rw [get_bind, get_bind]
  cases hnext : nextEpoch s.sys with
  | none =>
    rw [hnext] at hnot
    change ¬ StoppedByWindow (finishExhausted _ s).2.sys at hnot
    change finishExhausted _ s = finishExhausted _ s
    have hcap (w : Option ℕ) : stopAtTraceCap (m.withWindow w) = stopAtTraceCap m := rfl
    unfold finishExhausted at hnot ⊢
    rw [hcap] at hnot
    rw [hcap, hcap]
    have hgo : Ends (stopAtTraceCap m) s fun o t =>
        o = some () → t = ⟨refreshed m s, s.world⟩ ∧ TraceGoesOn m.config (refreshed m s) :=
      stopAtTraceCap_ends (fun _ => nofun) (fun _ _ _ => nofun) fun h _ => ⟨rfl, h⟩
    rcases htrace : stopAtTraceCap m s with ⟨_ | _, t⟩
    · rw [bind_of_eq_none htrace, bind_of_eq_none htrace]
    · obtain ⟨rfl, hgoes⟩ := hgo.of_eq htrace rfl
      rw [bind_of_eq_some htrace] at hnot
      rw [bind_of_eq_some htrace, bind_of_eq_some htrace]
      exact classifyEnd_of_le hle (fun hblocked => hfits (Or.inr ⟨hnext, hgoes, hblocked⟩)) hnot
  | some e =>
    obtain ⟨next, isEvent⟩ := e
    rw [hnext] at hnot
    by_cases hle' : next ≤ s.sys.epoch
    · simp only [if_pos hle']
    · simp only [if_neg hle'] at hnot ⊢
      have hnot' (t : State W)
          (ht : stopAtDeadline (m.withWindow (some w₁)) next isEvent s = (none, t)) :
          ¬ StoppedByWindow t.sys := by
        rw [bind_of_eq_none ht] at hnot
        exact hnot
      have hstop := stopAtDeadline_of_le hle
        (fun hevent => hfits (Or.inl ⟨next, hevent ▸ hnext⟩)) hnot'
      rw [bind_of_eq_some hstop.1, bind_of_eq_some hstop.2]
      rfl

theorem step_of_le (hle : w₁ ≤ w₂) (hfits : ¬ Overflows (m.withWindow (some w₂)) s)
    (hnot : ¬ StoppedByWindow (step (m.withWindow (some w₁)) s).2.sys) :
    step (m.withWindow (some w₂)) s = step (m.withWindow (some w₁)) s := by
  unfold step at hnot ⊢
  rw [executeEpoch_withWindow] at hnot
  rw [executeEpoch_withWindow, executeEpoch_withWindow]
  rcases hexecute : executeEpoch m s with ⟨_ | _, r⟩
  · rw [bind_of_eq_none hexecute, bind_of_eq_none hexecute]
  · rw [bind_of_eq_some hexecute] at hnot
    rw [bind_of_eq_some hexecute, bind_of_eq_some hexecute]
    refine selectNext_of_le (s := ⟨r.sys.closeEpoch, r.world⟩) hle (fun hdeadline => ?_) hnot
    by_contra hover
    refine hfits ⟨r, w₂, ?_, rfl, not_le.mp hover, hdeadline⟩
    rw [executeEpoch_withWindow]
    exact hexecute

/-! ### Runs -/

/-- What the host does with a system: it calls it, starts a run, or lets it step. -/
inductive Action (W : Type) where
  | host (b : W → Body W)
  | start
  | step

def Action.perform (m : Model W) (s : State W) : Action W → State W
  | .host b => hostCall m b s
  | .start => startRun m s
  | .step => (Gfsim.step m s).2

/-- A run as a sequence of actions. -/
def play (m : Model W) (s : State W) (actions : List (Action W)) : State W :=
  actions.foldl (Action.perform m) s

/-- A run is started before the first advance, and every step of the sequence is taken from a
state that satisfies `ok`. -/
def PlaysThrough (m : Model W) (ok : State W → Prop) : State W → List (Action W) → Prop
  | _, [] => True
  | s, .host b :: rest => PlaysThrough m ok (hostCall m b s) rest
  | s, .start :: rest => s.sys.epoch = ⟨0, 0⟩ ∧ PlaysThrough m ok (startRun m s) rest
  | s, .step :: rest => ok s ∧ PlaysThrough m ok (step m s).2 rest

/-- No call and no step changes the verdict of a terminated system. -/
theorem perform_of_terminated (hterm : s.sys.terminated = true)
    (action : Action W) : (action.perform m s).sys.terminated = true ∧
      (action.perform m s).sys.result = s.sys.result := by
  cases action with
  | host b =>
    have hsys : (hostCall m b s).sys = s.sys :=
      eq_of_calls_of_terminated (c := m.config) (Body.exec_calls _ _ _) hterm
    change (hostCall m b s).sys.terminated = true ∧ (hostCall m b s).sys.result = _
    rw [hsys]
    exact ⟨hterm, rfl⟩
  | start =>
    have hlive : { s.sys with epoch := ⟨0, 0⟩ }.terminated = false →
        { s.sys with epoch := ⟨0, 0⟩ }.executingEpoch = false := by
      intro hlive
      cases hterm.symm.trans hlive
    have hsys : (startRun m s).sys = { s.sys with epoch := ⟨0, 0⟩ } :=
      eq_of_calls_of_terminated (foldl_scheduleWork_calls (c := m.config) _ _ _ hlive) hterm
    change (startRun m s).sys.terminated = true ∧ (startRun m s).sys.result = _
    rw [hsys]
    exact ⟨hterm, rfl⟩
  | step =>
    change (step m s).2.sys.terminated = true ∧ (step m s).2.sys.result = _
    rw [step_of_terminated hterm]
    exact ⟨hterm, rfl⟩

/-- A run that the window logic has ended stays ended. -/
theorem stoppedByWindow_play (actions : List (Action W)) : ∀ {s : State W},
    s.sys.terminated = true → StoppedByWindow s.sys →
      StoppedByWindow (play m s actions).sys := by
  induction actions with
  | nil => exact fun _ h => h
  | cons action rest ih =>
    intro s hterm hstopped
    obtain ⟨hterm', hresult⟩ := perform_of_terminated (m := m) hterm action
    refine ih (s := action.perform m s) hterm' ?_
    unfold StoppedByWindow
    rw [hresult]
    exact hstopped

theorem terminated_of_stoppedByWindow (h : Reachable m s)
    (hstopped : StoppedByWindow s.sys) : s.sys.terminated = true := by
  have hnot := Runs.sys_invariant (m := m) (I := fun s => ¬ StoppedByWindow s)
    (J := fun _ => True) (fun _ => by rintro ⟨d, hd, _⟩; cases hd) ?_ (fun _ _ _ _ => trivial)
    (fun _ _ _ _ _ _ _ _ _ _ => trivial) ?_ h
  · by_contra hlive
    exact (hnot.2 ((Bool.not_eq_true _).mp hlive)).1 hstopped
  · intro s t hst hs
    rcases hst.result_cases with ⟨hdiagnostic, _⟩ | ⟨d, hd, rfl⟩
    · unfold StoppedByWindow
      rw [hdiagnostic]
      exact hs
    · exact not_stoppedByWindow_of_some rfl (ofWindow_of_ofCall hd)
  · intro s r _ _ _ _ _ _ q o t _ hI hsel
    refine ⟨?_, fun _ => trivial⟩
    rintro rfl
    obtain ⟨next, _, _, _, _, _, rfl⟩ := hsel.advance_inv
    exact hI

/-- A run that the smaller window does not end is the same run under the larger window. -/
theorem play_of_le (hle : w₁ ≤ w₂) : ∀ (actions : List (Action W)) {s : State W},
    Reachable (m.withWindow (some w₁)) s →
    PlaysThrough (m.withWindow (some w₁))
      (fun s => ¬ Overflows (m.withWindow (some w₂)) s) s actions →
    ¬ StoppedByWindow (play (m.withWindow (some w₁)) s actions).sys →
    play (m.withWindow (some w₂)) s actions = play (m.withWindow (some w₁)) s actions
  | [], _, _, _, _ => rfl
  | .host b :: rest, s, h, hplays, hnot => by
    have hsame : hostCall (m.withWindow (some w₂)) b s = hostCall (m.withWindow (some w₁)) b s := by
      have hexec (w : Option ℕ) :
          (b s.world).exec (m.withWindow w).config s.sys = (b s.world).exec m.config s.sys :=
        Body.exec_withWindow m.config w (b s.world) s.sys
      unfold hostCall
      rw [hexec, hexec]
    change play _ (hostCall _ b s) rest = play _ (hostCall _ b s) rest
    rw [hsame]
    exact play_of_le hle rest (.host b trivial h) hplays hnot
  | .start :: rest, s, h, hplays, hnot => play_of_le hle rest (.start h hplays.1) hplays.2 hnot
  | .step :: rest, s, h, hplays, hnot => by
    have hnext : Reachable (m.withWindow (some w₁)) (step (m.withWindow (some w₁)) s).2 :=
      Runs.step h trivial
    have hgoes : ¬ StoppedByWindow (step (m.withWindow (some w₁)) s).2.sys := fun hstopped =>
      hnot (stoppedByWindow_play rest (terminated_of_stoppedByWindow hnext hstopped) hstopped)
    change play _ (step _ s).2 rest = play _ (step _ s).2 rest
    rw [step_of_le hle hplays.1 hgoes]
    exact play_of_le hle rest hnext hplays.2 hnot

/-- **The deadlock window is sound and monotone**, as long as no deadline overflows.  When the
window logic ends a run, its window has elapsed since the last progress; and a run that does
not stop through the window logic gives the same result under every larger window. -/
theorem deadlock_window (m : Model W) :
    (∀ window s, Reaches (m.withWindow (some window))
        (fun s => ¬ Overflows (m.withWindow (some window)) s) s →
      StoppedByWindow s.sys → Elapsed window s.sys) ∧
    (∀ w₁ w₂ w actions, w₁ ≤ w₂ →
      PlaysThrough (m.withWindow (some w₁)) (fun s => ¬ Overflows (m.withWindow (some w₂)) s)
        (fresh m w) actions →
      ¬ StoppedByWindow (play (m.withWindow (some w₁)) (fresh m w) actions).sys →
      (finishRun (m.withWindow (some w₂))
        (play (m.withWindow (some w₂)) (fresh m w) actions)).sys.result =
      (finishRun (m.withWindow (some w₁))
        (play (m.withWindow (some w₁)) (fresh m w) actions)).sys.result) := by
  constructor
  · intro window s h hstopped
    have hs := reaches_window h
    cases hterm : s.sys.terminated with
    | true => exact hs.1 hterm hstopped window rfl
    | false => exact absurd hstopped (hs.2 hterm).1.notStopped
  · intro w₁ w₂ w actions hle hplays hnot
    have hfresh : Reachable (m.withWindow (some w₁)) (fresh m w) := Runs.fresh w trivial
    rw [play_of_le hle actions hfresh hplays hnot]
    rfl

end window

/-- A process that wakes itself once, at tick 20. -/
def stallModel : Model Unit where
  config := .ofKinds [.process]
  hooks := { doWork := fun _ e w =>
    if e = ⟨0, 0⟩ then .scheduleWork 0 ⟨20, 0⟩ fun _ => .done w else .done w }

theorem deadlock_window_stall :
    Elapsed 10 (play (stallModel.withWindow (some 10)) (fresh stallModel ())
      [.start, .step]).sys ∧
    (finishRun (stallModel.withWindow (some 40)) (play (stallModel.withWindow (some 40))
      (fresh stallModel ()) [.start, .step, .step])).sys.result.classification =
        .completed := by
  have hstart (window : ℕ) :
      Reaches (stallModel.withWindow (some window))
        (fun s => ¬ Overflows (stallModel.withWindow (some window)) s)
        (startRun (stallModel.withWindow (some window)) (fresh stallModel ())) :=
    .start (.fresh () trivial) rfl
  have hten := (deadlock_window stallModel).1 10 _
    (.step (hstart 10) (not_overflows rfl (by decide))) ⟨_, rfl, rfl⟩
  have hforty := (deadlock_window stallModel).2 30 40 () [.start, .step, .step] (by decide)
    ⟨rfl, not_overflows rfl (by decide), not_overflows rfl (by decide), trivial⟩
    (by rintro ⟨d, hd, _⟩; cases hd)
  exact ⟨hten, (congrArg TerminationResult.classification hforty).trans (by decide)⟩

/-- A process that commits and wakes itself in every tick. -/
def busyModel : Model Unit where
  config := .ofKinds [.process]
  hooks :=
    { doWork := fun _ e w => .scheduleWork 0 ⟨e.time + 1, 0⟩ fun _ => .done w
      hasPendingCommit := fun _ _ => true }

def busyEnd (window : ℕ) : State Unit :=
  play (busyModel.withWindow (some window)) (fresh busyModel ()) [.start, .step, .step]

/-- Under the largest window the busy process fails at tick 1, the tick of its last commit;
under a window of 10 ticks it goes on. -/
theorem largest_window_stops_busy_run :
    Reachable (busyModel.withWindow (some uint64Max)) (busyEnd uint64Max) ∧
    (busyEnd uint64Max).sys.result.diagnostic = some .windowOverflow ∧
    (busyEnd uint64Max).sys.lastProgressTick = 1 ∧ (busyEnd uint64Max).sys.epoch = ⟨1, 0⟩ ∧
    ¬ Elapsed uint64Max (busyEnd uint64Max).sys ∧
    ¬ StoppedByWindow (busyEnd 10).sys ∧
    (busyEnd uint64Max).sys.result ≠ (busyEnd 10).sys.result := by
  refine ⟨.step (.step (.start (.fresh () trivial) rfl) trivial) trivial, by decide, by decide, by decide,
    fun h => ?_, ?_, ?_⟩
  · have helapsed := h.elapsed
    revert helapsed
    decide
  · rintro ⟨d, hd, _⟩
    cases hd
  · intro h
    have hdiagnostic := congrArg TerminationResult.diagnostic h
    revert hdiagnostic
    decide

end AgenticCircuit.Gfsim
