import AgenticCircuit.Dialect.Structured
import Mathlib.Tactic.Ring

/-! # Progress of structured processes

A verified process suspends again and again: no activation goes on forever
(`acc_of_reachable`), each completed iteration of an `scf.while` or of a dynamic `scf.for`
contains a suspension, and a loop with constant bounds runs its trip count.  All of it rests on
conditions whose attribute `value` belongs to a constant (`valueAttributesConstant`), since
`constantBool` takes that attribute of any defining operation for the value of the condition. -/

namespace AgenticCircuit.Dialect

open List Bool Int Acc

theorem Step.exists_append (h : Step (frame :: s) label c) : ∃ new, c = new ++ s := by
  cases h with
  | leave | leaveStatic | leaveDynamic | leaveWhile => exact ⟨[], rfl⟩
  | execute => exact ⟨[_], rfl⟩
  | enterWhile => exact ⟨[_, _, _], rfl⟩
  | _ => exact ⟨[_, _], rfl⟩

theorem Step.depth_eq {value : ℤ} (h : Step (frame :: s) (.iterate depth value) c) :
    depth = s.length := by
  cases h
  rfl

/-- The loops inside an episode stand above its stack. -/
theorem Episode.iterations_eq_nil (h : Episode s pre labels) (hdepth : depth < s.length) :
    iterations depth labels = [] := by
  induction h with
  | finish => rfl
  | @step pre label pre' labels hne hstep hrest ih =>
    cases label with
    | silent => exact ih
    | execute => exact ih
    | iterate d value =>
      obtain ⟨frame, rest, rfl⟩ := exists_cons_of_ne_nil hne
      rw [cons_append] at hstep
      have hd := hstep.depth_eq
      rw [length_append] at hd
      rw [iterations_iterate_of_ne value (by omega)]
      exact ih

theorem Step.staticFor_cases {next : ℤ} (h : Step (.staticFor next upper step body :: s) label c) :
    (next < upper ∧ label = .iterate s.length next ∧
      c = [.block body, .staticFor (next + step) upper step body] ++ s) ∨
      (upper ≤ next ∧ label = .silent ∧ c = s) := by
  cases h with
  | iterateStatic _ _ _ hlt => exact .inl ⟨hlt, rfl, rfl⟩
  | leaveStatic _ _ _ hle => exact .inr ⟨hle, rfl, rfl⟩

theorem Episode.eq_nil_of_nil (h : Episode s [] labels) : labels = [] := by
  cases h with
  | finish => rfl
  | step hne => exact absurd rfl hne

theorem valueAttributesConstant_nestedRegions (h : valueAttributesConstant body = true) :
    ∀ region ∈ nestedRegions body, valueAttributesConstant region = true := by
  induction body with
  | done => simp [nestedRegions]
  | op operation rest ih => exact ih h
  | ifOp condition thenRegion hasElse elseRegion rest ihThen ihElse ihRest =>
    simp only [valueAttributesConstant, and_eq_true] at h
    obtain ⟨⟨⟨_, hthen⟩, helse⟩, hrest⟩ := h
    intro region hregion
    simp only [nestedRegions, mem_cons, mem_append] at hregion
    rcases hregion with rfl | rfl | (hregion | hregion) | hregion
    · exact hthen
    · exact helse
    · exact ihThen hthen region hregion
    · exact ihElse helse region hregion
    · exact ihRest hrest region hregion
  | forOp lower upper step body rest ihBody ihRest | instrumentation body rest ihBody ihRest =>
    simp only [valueAttributesConstant, and_eq_true] at h
    intro region hregion
    simp only [nestedRegions, mem_cons, mem_append] at hregion
    rcases hregion with rfl | hregion | hregion
    · exact h.1
    · exact ihBody h.1 region hregion
    · exact ihRest h.2 region hregion
  | whileOp condition before after rest ihBefore ihAfter ihRest =>
    simp only [valueAttributesConstant, and_eq_true] at h
    obtain ⟨⟨⟨_, hbefore⟩, hafter⟩, hrest⟩ := h
    intro region hregion
    simp only [nestedRegions, mem_cons, mem_append] at hregion
    rcases hregion with rfl | rfl | (hregion | hregion) | hregion
    · exact hbefore
    · exact hafter
    · exact ihBefore hbefore region hregion
    · exact ihAfter hafter region hregion
    · exact ihRest hrest region hregion

variable {α : Type} [ProcessOperation α] {region : Block α}

/-! ### The two summaries agree -/

/-- Both summaries are the disjunction over the operations: the one that breaks off early has
found nothing when an `scf.if` overwrites it. -/
theorem lowerabilityGuarantees_eq (h : valueAttributesConstant region = true) :
    lowerabilityGuarantees region = guaranteesSuspend region := by
  unfold lowerabilityGuarantees
  induction region with
  | done => rfl
  | op operation rest ih =>
    rw [lowerabilityGuaranteesFrom, guaranteesSuspend, ih h]
    cases isSuspension operation <;> rfl
  | ifOp condition thenRegion hasElse elseRegion rest ihThen ihElse ihRest =>
    simp only [valueAttributesConstant, and_eq_true, beq_iff_eq] at h
    obtain ⟨⟨⟨hcondition, hthen⟩, helse⟩, hrest⟩ := h
    have hbreak : ∀ found : Bool, (if found then true
        else lowerabilityGuaranteesFrom found rest) = (found || guaranteesSuspend rest) := by
      intro found
      cases found with
      | false => exact ihRest hrest
      | true => rfl
    simp only [lowerabilityGuaranteesFrom, ← hcondition, ihThen hthen, ihElse helse]
    exact hbreak _
  | forOp lower upper step body rest _ ihRest | whileOp condition before after rest _ _ ihRest
  | instrumentation body rest _ ihRest =>
    simp only [valueAttributesConstant, and_eq_true] at h
    exact ihRest h.2

/-! ### Verified code -/

/-- What the verifier has checked of a block, as one predicate over its parts. -/
structure Checked (region : Block α) : Prop where
  wellFormed : wellFormed region = true
  lowerable : verifyProcessLowerability region = true
  progress : verifyWhileProgress region = true
  attributes : valueAttributesConstant region = true

namespace Checked

variable {operation : α} {condition : Condition} {hasElse : Bool} {lower upper step : Bound}
  {thenRegion elseRegion body before after rest : Block α}

theorem op_iff : Checked (.op operation rest) ↔ Checked rest :=
  ⟨fun h => ⟨h.1, h.2, h.3, h.4⟩, fun h => ⟨h.1, h.2, h.3, h.4⟩⟩

theorem of_ifOp (h : Checked (.ifOp condition thenRegion hasElse elseRegion rest)) :
    constantBool condition = constantBoolean condition ∧
      (hasElse = false → elseRegion = .done) ∧
      Checked thenRegion ∧ Checked elseRegion ∧ Checked rest := by
  obtain ⟨hform, hlower, hprogress, hattributes⟩ := h
  simp only [Dialect.wellFormed, verifyProcessLowerability, verifyWhileProgress,
    valueAttributesConstant, and_eq_true, beq_iff_eq] at hform hlower hprogress hattributes
  obtain ⟨⟨⟨hempty, hform₁⟩, hform₂⟩, hform₃⟩ := hform
  obtain ⟨⟨hlower₁, hlower₂⟩, hlower₃⟩ := hlower
  obtain ⟨⟨hprogress₁, hprogress₂⟩, hprogress₃⟩ := hprogress
  obtain ⟨⟨⟨hcondition, hattributes₁⟩, hattributes₂⟩, hattributes₃⟩ := hattributes
  refine ⟨hcondition, ?_, ⟨hform₁, hlower₁, hprogress₁, hattributes₁⟩,
    ⟨hform₂, hlower₂, hprogress₂, hattributes₂⟩, ⟨hform₃, hlower₃, hprogress₃, hattributes₃⟩⟩
  rintro rfl
  cases elseRegion <;> simp_all

theorem of_forOp (h : Checked (.forOp lower upper step body rest)) :
    (allConstant lower upper step = true → (analyzeStaticFor lower upper step).isSome) ∧
      (allConstant lower upper step = false → guaranteesSuspend body = true) ∧
      Checked body ∧ Checked rest := by
  obtain ⟨hform, hlower, hprogress, hattributes⟩ := h
  simp only [Dialect.wellFormed, verifyProcessLowerability, verifyWhileProgress,
    valueAttributesConstant, and_eq_true] at hform hlower hprogress hattributes
  refine ⟨?_, ?_, ⟨hform.1, hlower.1.2, hprogress.1, hattributes.1⟩,
    ⟨hform.2, hlower.2, hprogress.2, hattributes.2⟩⟩
  · intro hconstant
    simpa [hconstant] using hlower.1.1
  · intro hdynamic
    have hbody := hlower.1.1
    rw [hdynamic, if_neg (by decide), lowerabilityGuarantees_eq hattributes.1] at hbody
    exact hbody

theorem of_whileOp (h : Checked (.whileOp condition before after rest)) :
    constantBool condition = constantBoolean condition ∧
      (constantBool condition = some false ∨ guaranteesSuspend before = true ∨
        guaranteesSuspend after = true) ∧
      Checked before ∧ Checked after ∧ Checked rest := by
  obtain ⟨hform, hlower, hprogress, hattributes⟩ := h
  simp only [Dialect.wellFormed, verifyProcessLowerability, verifyWhileProgress,
    valueAttributesConstant, and_eq_true, or_eq_true, beq_iff_eq]
    at hform hlower hprogress hattributes
  obtain ⟨⟨⟨hguard, hprogress₁⟩, hprogress₂⟩, hprogress₃⟩ := hprogress
  obtain ⟨⟨⟨hcondition, hattributes₁⟩, hattributes₂⟩, hattributes₃⟩ := hattributes
  refine ⟨hcondition, ?_, ⟨hform.1.1, hlower.1.1, hprogress₁, hattributes₁⟩,
    ⟨hform.1.2, hlower.1.2, hprogress₂, hattributes₂⟩,
    ⟨hform.2, hlower.2, hprogress₃, hattributes₃⟩⟩
  tauto

theorem of_instrumentation (h : Checked (.instrumentation body rest)) :
    Checked body ∧ Checked rest := by
  obtain ⟨hform, hlower, hprogress, hattributes⟩ := h
  simp only [Dialect.wellFormed, verifyProcessLowerability, verifyWhileProgress,
    valueAttributesConstant, and_eq_true] at hform hlower hprogress hattributes
  exact ⟨⟨hform.1, hlower.1, hprogress.1, hattributes.1⟩,
    ⟨hform.2, hlower.2, hprogress.2, hattributes.2⟩⟩

end Checked

variable {condition : Condition} {hasElse outcome : Bool} {elseRegion rest thenRegion : Block α}
    {lower step upper : Bound} {trip : StaticForTripCount} {label : Label α}

theorem Condition.eq_of_allows {value : Bool}
    (hcondition : constantBool condition = constantBoolean condition)
    (hallows : condition.Allows outcome) (hconstant : constantBool condition = some value) :
    outcome = value := by
  rw [hcondition] at hconstant
  cases condition with
  | constant v =>
    cases hconstant
    exact hallows
  | argument | computed _ => cases hconstant

/-- The guarantee of an `scf.if` itself. -/
def ifGuarantees (condition : Condition) (thenRegion : Block α) (hasElse : Bool)
    (elseRegion : Block α) : Bool :=
  match constantBool condition with
  | some true => guaranteesSuspend thenRegion
  | some false => guaranteesSuspend elseRegion
  | none => hasElse && guaranteesSuspend thenRegion && guaranteesSuspend elseRegion

theorem guaranteesSuspend_ifOp :
    guaranteesSuspend (.ifOp condition thenRegion hasElse elseRegion rest)
      = (ifGuarantees condition thenRegion hasElse elseRegion || guaranteesSuspend rest) := rfl

theorem guaranteesSuspend_of_ifGuarantees
    (hcondition : constantBool condition = constantBoolean condition)
    (hallows : condition.Allows outcome)
    (h : ifGuarantees condition thenRegion hasElse elseRegion = true) :
    guaranteesSuspend (if outcome then thenRegion else elseRegion) = true := by
  rw [ifGuarantees] at h
  cases hconstant : constantBool condition with
  | some value =>
    obtain rfl := Condition.eq_of_allows hcondition hallows hconstant
    rw [hconstant] at h
    cases outcome <;> exact h
  | none =>
    rw [hconstant] at h
    simp only [and_eq_true] at h
    cases outcome
    · exact h.2
    · exact h.1.2

theorem ifGuarantees_eq_false (hcondition : constantBool condition = constantBoolean condition)
    (hallows : condition.Allows outcome)
    (h : guaranteesSuspend (if outcome then thenRegion else elseRegion) = false) :
    ifGuarantees condition thenRegion hasElse elseRegion = false := by
  by_contra hguarantee
  rw [not_eq_false] at hguarantee
  rw [guaranteesSuspend_of_ifGuarantees hcondition hallows hguarantee] at h
  cases h

theorem guaranteesSuspend_of_taken
    (h : Checked (.ifOp condition thenRegion hasElse elseRegion rest))
    (hallows : condition.Allows outcome)
    (hguarantee : guaranteesSuspend (.ifOp condition thenRegion hasElse elseRegion rest) = true) :
    guaranteesSuspend (if outcome then thenRegion else elseRegion) = true ∨
      guaranteesSuspend rest = true := by
  obtain ⟨hcondition, _, _, _, _⟩ := h.of_ifOp
  rw [guaranteesSuspend_ifOp, or_eq_true] at hguarantee
  exact hguarantee.imp_left (guaranteesSuspend_of_ifGuarantees hcondition hallows)

/-! ### Trip counts -/

/-- The number of iterations the loop rule prescribes. -/
def iterationCount (lower upper step : ℤ) : ℕ := ((upper - lower + step - 1) / step).toNat

theorem constantInt_eq_some {bound : Bound} {value : ℤ} (h : constantInt bound = some value) :
    bound = .constant value ∧ -2 ^ 63 ≤ value ∧ value < 2 ^ 63 := by
  cases bound with
  | dynamic => cases h
  | constant v =>
    rw [constantInt] at h
    split at h
    · rename_i hfits
      obtain rfl := Option.some.inj h
      exact ⟨rfl, hfits⟩
    · cases h

/-- The 128-bit computation is exact: no intermediate value reaches `2 ^ 128`. -/
theorem trips_eq {lower upper step : ℤ} (hstep : 0 < step) (hlower : -2 ^ 63 ≤ lower)
    (hupper : upper < 2 ^ 63) (hfits : step < 2 ^ 63) :
    ((if upper ≤ lower then 0 else (upper - lower).toNat % 2 ^ 128) + step.toNat - 1) % 2 ^ 128
      / step.toNat = iterationCount lower upper step := by
  obtain ⟨s, rfl⟩ := eq_ofNat_of_zero_le hstep.le
  have hs : 0 < s := by omega
  rw [iterationCount, toNat_natCast]
  split
  · rename_i hle
    have hzero : (0 + s - 1) % 2 ^ 128 / s = 0 := by
      rw [Nat.div_eq_zero_iff]
      have := Nat.mod_le (0 + s - 1) (2 ^ 128)
      omega
    have hneg : (upper - lower + s - 1) / (s : ℤ) ≤ 0 := by
      have : (upper - lower + s - 1) / (s : ℤ) < 1 := Int.ediv_lt_of_lt_mul hstep (by omega)
      omega
    rw [hzero, toNat_of_nonpos hneg]
  · rename_i hlt
    obtain ⟨d, hd⟩ := eq_ofNat_of_zero_le (show 0 ≤ upper - lower by omega)
    have hd' : d < 2 ^ 128 := by
      have : (d : ℤ) < 2 ^ 64 := by omega
      have : d < 2 ^ 64 := by exact_mod_cast this
      exact this.trans (by decide)
    rw [hd, toNat_natCast, Nat.mod_eq_of_lt hd', Nat.mod_eq_of_lt (by omega)]
    have hcast : ((d : ℤ) + s - 1) = ((d + s - 1 : ℕ) : ℤ) := by omega
    rw [hcast, ← natCast_ediv, toNat_natCast]

theorem analyzeStaticFor_eq_some (h : analyzeStaticFor lower upper step = some trip) :
    lower = .constant trip.lowerBound ∧ upper = .constant trip.upperBound ∧
      step = .constant trip.step ∧ 0 < trip.step ∧
      -2 ^ 63 ≤ trip.lowerBound ∧ trip.upperBound < 2 ^ 63 ∧
      trip.tripCount = iterationCount trip.lowerBound trip.upperBound trip.step ∧
      trip.tripCount ≤ kMaxStaticForTrips := by
  rw [analyzeStaticFor] at h
  split at h
  · rename_i lo up st hlo hup hst
    obtain ⟨rfl, hlo, _⟩ := constantInt_eq_some hlo
    obtain ⟨rfl, _, hup⟩ := constantInt_eq_some hup
    obtain ⟨rfl, _, hst⟩ := constantInt_eq_some hst
    split at h
    · cases h
    · rename_i hpos
      dsimp only at h
      rw [trips_eq (by omega) hlo hup hst] at h
      split at h
      · cases h
      · rename_i hcap
        obtain rfl := Option.some.inj h
        refine ⟨rfl, rfl, rfl, by dsimp only; omega, hlo, hup, ?_, ?_⟩
        · exact Nat.mod_eq_of_lt (by omega)
        · exact (Nat.mod_le _ _).trans (by omega)
  · cases h

theorem lt_iterationCount_iff {lower upper step : ℤ} (hstep : 0 < step) (k : ℕ) :
    k < iterationCount lower upper step ↔ lower + k * step < upper := by
  rw [iterationCount, Int.lt_toNat, Int.lt_iff_add_one_le, Int.le_ediv_iff_mul_le hstep]
  constructor
  · intro h
    linarith
  · intro h
    linarith

/-- The product and the sum of `staticPortRange` are exact exactly when the values of the loop
span less than half of the 64-bit range. -/
theorem staticPortExact_iff (h : analyzeStaticFor lower upper step = some trip)
    (hpos : 0 < trip.tripCount) :
    StaticPortExact trip ↔ (trip.tripCount - 1 : ℕ) * trip.step < 2 ^ 63 := by
  obtain ⟨_, _, _, hstep, hlower, hupper, hcount, hcap⟩ := analyzeStaticFor_eq_some h
  have hlast : trip.lowerBound + (trip.tripCount - 1 : ℕ) * trip.step < trip.upperBound := by
    rw [← lt_iterationCount_iff hstep, ← hcount]
    omega
  have hmul : 0 ≤ ((trip.tripCount - 1 : ℕ) : ℤ) * trip.step :=
    mul_nonneg (natCast_nonneg _) hstep.le
  have hone : toInt64 ((trip.tripCount - 1 : ℕ) : ℤ) = (trip.tripCount - 1 : ℕ) := by
    have hle : trip.tripCount - 1 ≤ 2 ^ 20 := by
      rw [kMaxStaticForTrips] at hcap
      omega
    rw [toInt64]
    omega
  rw [StaticPortExact, staticPortLast, staticPortDistance, hone]
  generalize ((trip.tripCount - 1 : ℕ) : ℤ) * trip.step = product at *
  have hwide : product < 2 ^ 64 := by omega
  simp only [toInt64]
  constructor
  · rintro ⟨hproduct, _⟩
    omega
  · intro hfits
    constructor <;> omega

/-! ### Activations end -/

/-- No activation from `c` goes on forever. -/
abbrev Settles (c : Config α) : Prop := Acc (fun a b => Silent b a) c

/-- A block settles if what is below it does, and a block that guarantees a suspension settles
whatever is below. -/
def Robust (region : Block α) : Prop :=
  ∀ s : Config α, (guaranteesSuspend region = false → Settles s) → Settles (.block region :: s)

section Loops

variable {s : Config α} {condition : Condition} {body before after : Block α}

theorem settles_staticFor {upper step : ℤ} (hstep : 0 < step) (hbody : Robust body)
    (hs : Settles s) : ∀ (n : ℕ) (next : ℤ), (upper - next).toNat ≤ n →
      Settles (.staticFor next upper step body :: s) := by
  intro n
  induction n with
  | zero =>
    intro next hn
    refine intro _ ?_
    rintro c ⟨label, hstep, _⟩
    cases hstep with
    | iterateStatic _ _ _ hlt => omega
    | leaveStatic => exact hs
  | succ n ih =>
    intro next hn
    refine intro _ ?_
    rintro c ⟨label, hstep, _⟩
    cases hstep with
    | iterateStatic _ _ _ hlt => exact hbody _ fun _ => ih (next + step) (by omega)
    | leaveStatic => exact hs

theorem settles_dynamicFor (hguarantee : guaranteesSuspend body = true) (hbody : Robust body)
    (hs : Settles s) : Settles (.dynamicFor body :: s) := by
  refine intro _ ?_
  rintro c ⟨label, hstep, _⟩
  cases hstep with
  | iterateDynamic =>
    apply hbody
    intro hsilent
    rw [hguarantee] at hsilent
    cases hsilent
  | leaveDynamic => exact hs

variable (hcondition : constantBool condition = constantBoolean condition)
  (hguard : constantBool condition = some false ∨ guaranteesSuspend before = true ∨
    guaranteesSuspend after = true)

include hcondition hguard

/-- The back edge settles when the first region suspends, the test when the second one does;
each of them then settles the other. -/
theorem settles_while (hbefore : Robust before) (hafter : Robust after) (hs : Settles s) :
    Settles (.whileTest condition before after :: s) ∧
      Settles (.whileBack condition before after :: s) := by
  have hback : Settles (.whileTest condition before after :: s) ∨
      guaranteesSuspend before = true → Settles (.whileBack condition before after :: s) := by
    intro h
    refine intro _ ?_
    rintro c ⟨label, hstep, _⟩
    cases hstep
    apply hbefore
    intro hsilent
    rcases h with h | h
    · exact h
    · rw [hsilent] at h
      cases h
  have htest : constantBool condition = some false ∨ guaranteesSuspend after = true ∨
      Settles (.whileBack condition before after :: s) →
        Settles (.whileTest condition before after :: s) := by
    intro h
    refine intro _ ?_
    rintro c ⟨label, hstep, _⟩
    cases hstep with
    | leaveWhile => exact hs
    | continueWhile _ _ _ hallows =>
      apply hafter
      intro hsilent
      rcases h with h | h | h
      · cases Condition.eq_of_allows hcondition hallows h
      · rw [hsilent] at h
        cases h
      · exact h
  rcases hguard with h | h | h
  · exact ⟨htest (.inl h), hback (.inl (htest (.inl h)))⟩
  · exact ⟨htest (.inr (.inr (hback (.inr h)))), hback (.inr h)⟩
  · exact ⟨htest (.inr (.inl h)), hback (.inl (htest (.inr (.inl h))))⟩

end Loops

theorem Checked.robust (h : Checked region) : Robust region := by
  induction region with
  | done =>
    intro s hs
    refine intro _ ?_
    rintro c ⟨label, hstep, _⟩
    cases hstep
    exact hs rfl
  | op operation rest ih =>
    intro s hs
    refine intro _ ?_
    rintro c ⟨label, hstep, hsilent⟩
    cases hstep
    have hop : isSuspension operation = false := hsilent
    apply ih (Checked.op_iff.mp h)
    intro hrest
    apply hs
    rw [guaranteesSuspend, hop, hrest]
    rfl
  | ifOp condition thenRegion hasElse elseRegion rest ihThen ihElse ihRest =>
    intro s hs
    obtain ⟨_, _, hthen, helse, hrest⟩ := h.of_ifOp
    -- below the branch stands the rest, which settles unless the branch suspends before it
    have hbelow : ∀ outcome : Bool, condition.Allows outcome →
        guaranteesSuspend (if outcome then thenRegion else elseRegion) = false →
          Settles (.block rest :: s) := by
      intro outcome hallows hbranch
      apply ihRest hrest
      intro hsilent
      apply hs
      by_contra hguarantee
      rw [not_eq_false] at hguarantee
      rcases guaranteesSuspend_of_taken h hallows hguarantee with htaken | htaken
      · rw [hbranch] at htaken
        cases htaken
      · rw [hsilent] at htaken
        cases htaken
    refine intro _ ?_
    rintro c ⟨label, hstep, _⟩
    cases hstep with
    | takeThen _ _ _ _ _ hallows => exact ihThen hthen _ (hbelow true hallows)
    | takeElse _ _ _ _ _ hallows => exact ihElse helse _ (hbelow false hallows)
  | forOp lower upper step body rest ihBody ihRest =>
    intro s hs
    obtain ⟨hstatic, hdynamic, hbody, hrest⟩ := h.of_forOp
    have hbelow : Settles (.block rest :: s) := ihRest hrest s hs
    refine intro _ ?_
    rintro c ⟨label, hstep, _⟩
    cases hstep with
    | enterStatic lo up st =>
      obtain ⟨trip, htrip⟩ := Option.isSome_iff_exists.mp (hstatic rfl)
      obtain ⟨_, _, hst, hpos, _⟩ := analyzeStaticFor_eq_some htrip
      cases hst
      exact settles_staticFor hpos (ihBody hbody) hbelow _ lo le_rfl
    | enterDynamic _ _ _ hnot => exact settles_dynamicFor (hdynamic hnot) (ihBody hbody) hbelow
  | whileOp condition before after rest ihBefore ihAfter ihRest =>
    intro s hs
    obtain ⟨hcondition, hguard, hbefore, hafter, hrest⟩ := h.of_whileOp
    refine intro _ ?_
    rintro c ⟨label, hstep, _⟩
    cases hstep
    apply ihBefore hbefore
    intro _
    exact (settles_while hcondition hguard (ihBefore hbefore) (ihAfter hafter)
      (ihRest hrest s hs)).1
  | instrumentation body rest ihBody ihRest =>
    intro s hs
    obtain ⟨hbody, hrest⟩ := h.of_instrumentation
    refine intro _ ?_
    rintro c ⟨label, hstep, _⟩
    cases hstep
    exact ihBody hbody _ fun _ => ihRest hrest s hs

/-! ### Reachable configurations -/

/-- The verifier has checked the code of a frame. -/
def Frame.Checked : Frame α → Prop
  | .block region => Dialect.Checked region
  | .staticFor _ _ step body => 0 < step ∧ Dialect.Checked body
  | .dynamicFor body | .process body =>
    guaranteesSuspend body = true ∧ Dialect.Checked body
  | .whileTest condition before after | .whileBack condition before after =>
    constantBool condition = constantBoolean condition ∧
      (constantBool condition = some false ∨ guaranteesSuspend before = true ∨
        guaranteesSuspend after = true) ∧
      Dialect.Checked before ∧ Dialect.Checked after

/-- A frame whose own code suspends before the frame is gone. -/
def Frame.guarantees : Frame α → Bool
  | .block region => guaranteesSuspend region
  | _ => false

theorem settles_of_checked {c : Config α} (h : ∀ frame ∈ c, frame.Checked) : Settles c := by
  induction c with
  | nil =>
    refine intro _ ?_
    rintro c ⟨label, hstep, _⟩
    cases hstep
  | cons frame s ih =>
    have hs : Settles s := ih fun f hf => h f (mem_cons_of_mem _ hf)
    have hframe := h frame mem_cons_self
    cases frame with
    | block region => exact hframe.robust s fun _ => hs
    | staticFor next upper step body =>
      exact settles_staticFor hframe.1 hframe.2.robust hs _ next le_rfl
    | dynamicFor body => exact settles_dynamicFor hframe.1 hframe.2.robust hs
    | whileTest condition before after =>
      obtain ⟨hcondition, hguard, hbefore, hafter⟩ := hframe
      exact (settles_while hcondition hguard hbefore.robust hafter.robust hs).1
    | whileBack condition before after =>
      obtain ⟨hcondition, hguard, hbefore, hafter⟩ := hframe
      exact (settles_while hcondition hguard hbefore.robust hafter.robust hs).2
    | process body =>
      refine intro _ ?_
      rintro c ⟨label, hstep, _⟩
      cases hstep
      apply hframe.2.robust
      intro hsilent
      rw [hframe.1] at hsilent
      cases hsilent

/-- What a step makes of the top frame: the frames below stay, the new ones are checked, and a
guarantee of a suspension is passed on until it is met. -/
theorem Step.exists_top {frame : Frame α} {s c : Config α}
    (h : Step (frame :: s) label c) (hchecked : frame.Checked) :
    ∃ new, c = new ++ s ∧ (∀ f ∈ new, f.Checked) ∧
      (frame.guarantees = true → label.suspends = false →
        ∃ f ∈ new, f.guarantees = true) := by
  cases h with
  | leave | leaveStatic | leaveDynamic | leaveWhile => exact ⟨[], rfl, nofun, nofun⟩
  | execute operation rest =>
    refine ⟨[.block rest], rfl, ?_, ?_⟩
    · simpa [Frame.Checked] using Checked.op_iff.mp hchecked
    · intro hguarantee hsilent
      have hop : isSuspension operation = false := hsilent
      rw [Frame.guarantees, guaranteesSuspend, hop, Bool.false_or] at hguarantee
      exact ⟨_, mem_singleton_self _, hguarantee⟩
  | takeThen thenRegion hasElse elseRegion rest s hallows =>
    obtain ⟨_, _, hthen, _, hrest⟩ := Checked.of_ifOp hchecked
    refine ⟨[.block thenRegion, .block rest], rfl, by simp [Frame.Checked, hthen, hrest], ?_⟩
    intro hguarantee _
    rcases guaranteesSuspend_of_taken hchecked hallows hguarantee with htaken | htaken
    · exact ⟨.block thenRegion, by simp, htaken⟩
    · exact ⟨.block rest, by simp, htaken⟩
  | takeElse thenRegion hasElse elseRegion rest s hallows =>
    obtain ⟨_, _, _, helse, hrest⟩ := Checked.of_ifOp hchecked
    refine ⟨[.block elseRegion, .block rest], rfl, by simp [Frame.Checked, helse, hrest], ?_⟩
    intro hguarantee _
    rcases guaranteesSuspend_of_taken hchecked hallows hguarantee with htaken | htaken
    · exact ⟨.block elseRegion, by simp, htaken⟩
    · exact ⟨.block rest, by simp, htaken⟩
  | enterStatic lower upper step body rest =>
    obtain ⟨hstatic, _, hbody, hrest⟩ := Checked.of_forOp hchecked
    obtain ⟨trip, htrip⟩ := Option.isSome_iff_exists.mp (hstatic rfl)
    obtain ⟨_, _, hst, hpos, _⟩ := analyzeStaticFor_eq_some htrip
    cases hst
    refine ⟨[.staticFor lower upper _ body, .block rest], rfl, ?_, ?_⟩
    · simp [Frame.Checked, hpos, hbody, hrest]
    · exact fun hguarantee _ => ⟨.block rest, by simp, hguarantee⟩
  | enterDynamic body rest s hnot =>
    obtain ⟨_, hdynamic, hbody, hrest⟩ := Checked.of_forOp hchecked
    refine ⟨[.dynamicFor body, .block rest], rfl, ?_, ?_⟩
    · simp [Frame.Checked, hdynamic hnot, hbody, hrest]
    · exact fun hguarantee _ => ⟨.block rest, by simp, hguarantee⟩
  | enterWhile condition before after rest =>
    obtain ⟨hcondition, hguard, hbefore, hafter, hrest⟩ := Checked.of_whileOp hchecked
    refine ⟨[.block before, .whileTest condition before after, .block rest], rfl, ?_, ?_⟩
    · simp [Frame.Checked, hcondition, hbefore, hafter, hrest]
      rwa [hcondition] at hguard
    · exact fun hguarantee _ => ⟨.block rest, by simp, hguarantee⟩
  | enterInstrumentation body rest =>
    obtain ⟨hbody, hrest⟩ := Checked.of_instrumentation hchecked
    refine ⟨[.block body, .block rest], rfl, by simp [Frame.Checked, hbody, hrest], ?_⟩
    exact fun hguarantee _ => ⟨.block rest, by simp, hguarantee⟩
  | iterateStatic step body s hlt =>
    exact ⟨[.block body, .staticFor _ _ step body], rfl,
      by simpa using ⟨hchecked.2, hchecked⟩, nofun⟩
  | iterateDynamic body =>
    exact ⟨[.block body, .dynamicFor body], rfl,
      by simpa using ⟨hchecked.2, hchecked⟩, nofun⟩
  | continueWhile before after s hallows =>
    exact ⟨[.block after, .whileBack _ before after], rfl, forall_mem_cons.mpr
      ⟨hchecked.2.2.2, forall_mem_singleton.mpr hchecked⟩, nofun⟩
  | back condition before after =>
    exact ⟨[.block before, .whileTest condition before after], rfl, forall_mem_cons.mpr
      ⟨hchecked.2.2.1, forall_mem_singleton.mpr hchecked⟩, nofun⟩
  | restart body =>
    exact ⟨[.block body, .process body], rfl,
      by simpa using ⟨hchecked.2, hchecked⟩, nofun⟩

theorem Step.checked {c c' : Config α} (h : Step c label c')
    (hchecked : ∀ frame ∈ c, frame.Checked) : ∀ frame ∈ c', frame.Checked := by
  cases c with
  | nil => cases h
  | cons frame s =>
    obtain ⟨new, rfl, hnew, _⟩ := h.exists_top (hchecked frame mem_cons_self)
    intro f hf
    rcases mem_append.mp hf with hf | hf
    · exact hnew f hf
    · exact hchecked f (mem_cons_of_mem _ hf)

theorem guaranteesSuspend_of_endsWithYield {body : Block α} (h : endsWithYield body = true) :
    guaranteesSuspend body = true := by
  fun_induction endsWithYield body with
  | case1 => cases h
  | case2 operation => simp [guaranteesSuspend, isSuspension_of_isYieldSim operation h]
  | case3 operation rest _ ih | case4 condition thenRegion hasElse elseRegion rest ih =>
    simp [guaranteesSuspend, ih h]
  | case5 _ _ _ _ rest ih => exact ih h
  | case6 _ _ _ rest ih => exact ih h
  | case7 _ rest ih => exact ih h

section Verified

variable {body : Block α} (hverified : verifyProcess body = true)
  (hattributes : valueAttributesConstant body = true)

include hverified hattributes

theorem checked_of_verifyProcess : Checked body ∧ guaranteesSuspend body = true := by
  simp only [verifyProcess, and_eq_true] at hverified
  obtain ⟨⟨⟨hyield, hform⟩, hlower⟩, hprogress⟩ := hverified
  exact ⟨⟨hform, hlower, hprogress, hattributes⟩, guaranteesSuspend_of_endsWithYield hyield⟩

theorem Reachable.checked {c : Config α} (h : Reachable body c) : ∀ frame ∈ c, frame.Checked := by
  induction h with
  | start =>
    obtain ⟨hchecked, hguarantee⟩ := checked_of_verifyProcess hverified hattributes
    simpa using ⟨hguarantee, hchecked⟩
  | step _ hstep ih => exact hstep.checked ih

end Verified

/-! ### Episodes -/

variable {c pre s : Config α} {labels : List (Label α)} {frame : Frame α} {label : Label α}
    {depth : ℕ} {next step upper : ℤ} {body : Block α}

theorem Episode.exists_suspends (h : Episode s pre labels) (hchecked : ∀ frame ∈ pre, frame.Checked)
    (hguarantee : ∃ frame ∈ pre, frame.guarantees = true) :
    ∃ label ∈ labels, label.suspends = true := by
  induction h with
  | finish => simp at hguarantee
  | @step pre label pre' labels hne hstep _ ih =>
    cases hsilent : label.suspends with
    | true => exact ⟨label, mem_cons_self, hsilent⟩
    | false =>
      obtain ⟨frame, rest, rfl⟩ := exists_cons_of_ne_nil hne
      rw [cons_append] at hstep
      obtain ⟨new, hnew, hchecked', hpass⟩ :=
        Step.exists_top hstep (hchecked frame mem_cons_self)
      rw [← List.append_assoc] at hnew
      obtain rfl : pre' = new ++ rest := append_cancel_right hnew
      have hall : ∀ f ∈ new ++ rest, f.Checked := by
        intro f hf
        rcases mem_append.mp hf with hf | hf
        · exact hchecked' f hf
        · exact hchecked f (mem_cons_of_mem _ hf)
      have hkept : ∃ f ∈ new ++ rest, f.guarantees = true := by
        obtain ⟨f, hf, hfg⟩ := hguarantee
        rcases mem_cons.mp hf with rfl | hf
        · obtain ⟨f', hf', hfg'⟩ := hpass hfg hsilent
          exact ⟨f', mem_append_left _ hf', hfg'⟩
        · exact ⟨f, mem_append_right _ hf, hfg⟩
      obtain ⟨l, hl, hls⟩ := ih hall hkept
      exact ⟨l, mem_cons_of_mem _ hl, hls⟩

omit [ProcessOperation α] in
theorem Episode.split (h : Episode s pre labels) : ∀ upper lower : Config α, pre = upper ++ lower →
      ∃ first second, labels = first ++ second ∧ Episode (lower ++ s) upper first ∧
        Episode s lower second := by
  induction h with
  | finish =>
    intro upper lower heq
    obtain ⟨rfl, rfl⟩ := append_eq_nil_iff.mp heq.symm
    exact ⟨[], [], rfl, .finish, .finish⟩
  | @step pre label pre' labels hne hstep hrest ih =>
    rintro upper lower rfl
    cases upper with
    | nil => exact ⟨[], label :: labels, rfl, .finish, .step hne hstep hrest⟩
    | cons frame upper =>
      have hstep' : Step (frame :: (upper ++ (lower ++ s))) label (pre' ++ s) := by
        simpa using hstep
      obtain ⟨new, hnew⟩ := hstep'.exists_append
      obtain rfl : pre' = (new ++ upper) ++ lower := by
        rw [← append_left_inj s]
        simpa using hnew
      obtain ⟨first, second, rfl, hfirst, hsecond⟩ := ih _ _ rfl
      refine ⟨label :: first, second, rfl, .step (by simp) ?_ hfirst, hsecond⟩
      simpa using hstep

theorem iterationCount_of_lt (hstep : 0 < step) (h : next < upper) :
    iterationCount next upper step = iterationCount (next + step) upper step + 1 := by
  have hsum : upper - next + step - 1 = (upper - (next + step) + step - 1) + step * 1 := by
    omega
  have hnonneg : 0 ≤ (upper - (next + step) + step - 1) / step :=
    ediv_nonneg (by omega) hstep.le
  rw [iterationCount, iterationCount, hsum, add_mul_ediv_left _ _ hstep.ne']
  omega

omit [ProcessOperation α] in
/-- A loop with constant bounds runs through its values. -/
theorem Episode.iterations_staticFor (hstep : 0 < step) :
    ∀ (n : ℕ) (next : ℤ) (labels : List (Label α)),
      iterationCount next upper step = n →
      Episode s [.staticFor next upper step body] labels →
        iterations s.length labels = (List.range n).map fun k : ℕ => next + k * step := by
  intro n
  induction n with
  | zero =>
    intro next labels hcount h
    cases h with
    | step _ hfirst hrest =>
      rw [singleton_append] at hfirst
      rcases Step.staticFor_cases hfirst with ⟨hlt, _, _⟩ | ⟨_, rfl, hnone⟩
      · rw [iterationCount_of_lt hstep hlt] at hcount
        omega
      · obtain rfl := append_left_eq_self.mp hnone
        rw [hrest.eq_nil_of_nil]
        rfl
  | succ n ih =>
    intro next labels hcount h
    have hlt : next < upper := by
      have hfirst := (@lt_iterationCount_iff next upper step hstep 0).mp (by omega)
      simpa using hfirst
    cases h with
    | step _ hfirst hrest =>
      rw [singleton_append] at hfirst
      rcases Step.staticFor_cases hfirst with ⟨_, rfl, hnew⟩ | ⟨hle, _, _⟩
      · obtain rfl := append_cancel_right hnew
        obtain ⟨first, second, rfl, hbody, hloop⟩ :=
          hrest.split [.block body] [_] rfl
        have hsecond := ih (next + step) second
          (by rw [iterationCount_of_lt hstep hlt] at hcount; omega) hloop
        rw [iterations_iterate_self, iterations_append,
          hbody.iterations_eq_nil (by simp), nil_append, hsecond,
          range_succ_eq_map, map_cons, map_map]
        congr 1
        · simp
        · apply map_congr_left
          intro k _
          simp only [Function.comp_apply, Nat.cast_succ]
          ring
      · omega

/-! ### Progress -/

/-- Structured progress of a process: no activation goes on forever, from any configuration
the process reaches; each completed iteration of a dynamic `scf.for` and of an `scf.while`
suspends; a loop with constant bounds runs through its values, and the last one is computed without
a wrap where it is needed, for a port; and the two summaries agree on every region. -/
structure StructuredProgress (body : Block α) : Prop where
  finite : ∀ run : ℕ → Config α, Reachable body (run 0) → ¬ ∀ n, Silent (run n) (run (n + 1))
  dynamicFor : ∀ loop s labels, Reachable body (.dynamicFor loop :: s) →
    Episode (.dynamicFor loop :: s) [.block loop] labels →
      ∃ label ∈ labels, label.suspends = true
  whileOp : ∀ condition before after s first second,
    Reachable body (.block before :: .whileTest condition before after :: s) →
      condition.Allows true →
        Episode (.whileTest condition before after :: s) [.block before] first →
          Episode (.whileBack condition before after :: s) [.block after] second →
            ∃ label ∈ first ++ second, label.suspends = true
  staticFor : ∀ lower upper step loop rest s labels,
    Reachable body
        (.block (.forOp (.constant lower) (.constant upper) (.constant step) loop rest) :: s) →
      Episode (.block rest :: s) [.staticFor lower upper step loop] labels →
        ∃ trip, analyzeStaticFor (.constant lower) (.constant upper) (.constant step) = some trip ∧
          iterations (s.length + 1) labels
            = (List.range trip.tripCount).map (fun k : ℕ => lower + k * step) ∧
          (inductionPort 0 loop = true → 0 < trip.tripCount → StaticPortExact trip)
  summaries : ∀ region ∈ body :: nestedRegions body,
    lowerabilityGuarantees region = guaranteesSuspend region

/-- The spans of the loops in the code of a frame fit. -/
def Frame.spansFit : Frame α → Bool
  | .block region => staticSpansFit region
  | .staticFor _ _ _ body | .dynamicFor body | .process body => staticSpansFit body
  | .whileTest _ before after | .whileBack _ before after =>
    staticSpansFit before && staticSpansFit after

theorem Step.spansFit {c' : Config α} (h : Step c label c')
    (hfit : ∀ frame ∈ c, frame.spansFit = true) : ∀ frame ∈ c', frame.spansFit = true := by
  cases h <;> simp_all [Frame.spansFit, staticSpansFit]

theorem Reachable.spansFit (hfit : staticSpansFit body = true) (h : Reachable body c) :
    ∀ frame ∈ c, frame.spansFit = true := by
  induction h with
  | start => simpa [Frame.spansFit] using hfit
  | step _ hstep ih => exact hstep.spansFit ih

/-- A verified process makes progress when the attribute `value` of its conditions belongs to
constants and the loops with constant bounds that count through ports span less than half of the
64-bit range. -/
theorem structuredProgress_of_verified (body : Block α) (hverified : verifyProcess body = true)
    (hattributes : valueAttributesConstant body = true) (hfit : staticSpansFit body = true) :
    StructuredProgress body where
  finite run hstart hsilent := by
    have hsettles : Settles (run 0) :=
      settles_of_checked (hstart.checked hverified hattributes)
    -- an accessible configuration starts no descending sequence
    have hnone : ∀ c, Settles c → ∀ n, run n = c → False := by
      intro c hc
      induction hc with
      | intro c _ ih =>
        rintro n rfl
        exact ih _ (hsilent n) (n + 1) rfl
    exact hnone _ hsettles 0 rfl
  dynamicFor loop s labels hreach hepisode := by
    have hframe := hreach.checked hverified hattributes _ mem_cons_self
    exact hepisode.exists_suspends (forall_mem_singleton.mpr hframe.2)
      ⟨_, mem_singleton_self _, hframe.1⟩
  whileOp condition before after s first second hreach hallows hfirst hsecond := by
    have hall := hreach.checked hverified hattributes
    obtain ⟨hcondition, hguard, hbefore, hafter⟩ :=
      hall (.whileTest condition before after) (by simp)
    rcases hguard with hfalse | hguard | hguard
    · cases Condition.eq_of_allows hcondition hallows hfalse
    · obtain ⟨label, hmem, hlabel⟩ := hfirst.exists_suspends
        (forall_mem_singleton.mpr hbefore) ⟨_, mem_singleton_self _, hguard⟩
      exact ⟨label, mem_append_left _ hmem, hlabel⟩
    · obtain ⟨label, hmem, hlabel⟩ := hsecond.exists_suspends
        (forall_mem_singleton.mpr hafter) ⟨_, mem_singleton_self _, hguard⟩
      exact ⟨label, mem_append_right _ hmem, hlabel⟩
  staticFor lower upper step loop rest s labels hreach hepisode := by
    have hframe := hreach.checked hverified hattributes _ mem_cons_self
    have hspan := hreach.spansFit hfit _ mem_cons_self
    obtain ⟨hstatic, _, _, _⟩ := Checked.of_forOp hframe
    obtain ⟨trip, htrip⟩ := Option.isSome_iff_exists.mp (hstatic rfl)
    obtain ⟨hlower, hupper, hstep, hpos, _, _, hcount, _⟩ := analyzeStaticFor_eq_some htrip
    cases hlower
    cases hupper
    cases hstep
    refine ⟨trip, htrip, ?_, ?_⟩
    · rw [hcount]
      exact hepisode.iterations_staticFor hpos _ _ _ rfl
    · intro hport htrips
      rw [staticPortExact_iff htrip htrips]
      rw [Frame.spansFit, staticSpansFit, htrip] at hspan
      simp only [and_eq_true, decide_eq_true_eq, hport, Bool.not_true, Bool.false_or] at hspan
      exact hspan.1.1
  summaries region hregion := by
    apply lowerabilityGuarantees_eq
    rcases mem_cons.mp hregion with rfl | hregion
    · exact hattributes
    · exact valueAttributesConstant_nestedRegions hattributes region hregion

/-- A loop of four iterations, then a queue polled until it is readable. -/
def pollLoop : Block Operation :=
  .forOp (.constant 0) (.constant 4) (.constant 1) (.op .other .done) <|
  .whileOp (.computed none) (.op .other .done) (.op .awaitQueue .done) <|
  .op .yieldSim .done

theorem structuredProgress_pollLoop :
    verifyProcess pollLoop = true ∧ StructuredProgress pollLoop :=
  ⟨by decide, structuredProgress_of_verified pollLoop (by decide) (by decide) (by decide)⟩

/-- An empty `scf.while` on a computed condition that carries the attribute
`value = false`. -/
def attributeLoop : Block Operation :=
  .whileOp (.computed (some false)) .done .done (.op .yieldSim .done)

/-- The four configurations the empty loop goes around in. -/
def attributeRun (n : ℕ) : Config Operation :=
  let below := [.block (.op .yieldSim .done), .process attributeLoop]
  match n % 4 with
  | 0 => .block .done :: .whileTest (.computed (some false)) .done .done :: below
  | 1 => .whileTest (.computed (some false)) .done .done :: below
  | 2 => .block .done :: .whileBack (.computed (some false)) .done .done :: below
  | _ => .whileBack (.computed (some false)) .done .done :: below

theorem silent_attributeRun (n : ℕ) : Silent (attributeRun n) (attributeRun (n + 1)) := by
  refine ⟨.silent, ?_, rfl⟩
  rcases (by omega : n % 4 = 0 ∨ n % 4 = 1 ∨ n % 4 = 2 ∨ n % 4 = 3) with h | h | h | h
  · rw [attributeRun, attributeRun, h, show (n + 1) % 4 = 1 by omega]
    exact .leave _
  · rw [attributeRun, attributeRun, h, show (n + 1) % 4 = 2 by omega]
    exact .continueWhile _ _ _ trivial
  · rw [attributeRun, attributeRun, h, show (n + 1) % 4 = 3 by omega]
    exact .leave _
  · rw [attributeRun, attributeRun, h, show (n + 1) % 4 = 0 by omega]
    exact .back _ _ _ _

/-- A loop with constant bounds over the whole range of 64 bits, in three iterations, with its
induction variable as a port. -/
def wideLoop : Block Operation :=
  .forOp (.constant (-2 ^ 63)) (.constant (2 ^ 63 - 1)) (.constant (2 ^ 63 - 1))
    (.op (.stateAccess [0]) .done) (.op .yieldSim .done)

/-- A loop whose body is one operation runs to its end. -/
theorem exists_episode_staticFor (hstep : 0 < step) (operation : Operation) (s : Config Operation) :
    ∀ (n : ℕ) (next : ℤ), iterationCount next upper step = n →
      ∃ labels, Episode s [.staticFor next upper step (.op operation .done)] labels := by
  intro n
  induction n with
  | zero =>
    intro next hcount
    have hle : upper ≤ next := by
      by_contra hlt
      rw [iterationCount_of_lt hstep (by omega)] at hcount
      omega
    exact ⟨_, .step nofun (.leaveStatic _ _ _ hle) .finish⟩
  | succ n ih =>
    intro next hcount
    have hlt : next < upper := by
      have hfirst := (@lt_iterationCount_iff next upper step hstep 0).mp (by omega)
      simpa using hfirst
    rw [iterationCount_of_lt hstep hlt] at hcount
    obtain ⟨labels, hlabels⟩ := ih (next + step) (by omega)
    have hleave : Episode s
        [.block .done, .staticFor (next + step) upper step (.op operation .done)]
        (.silent :: labels) := .step nofun (.leave _) hlabels
    have hbody : Episode s
        [.block (.op operation .done), .staticFor (next + step) upper step (.op operation .done)]
        (.execute operation :: .silent :: labels) := by
      refine .step nofun ?_ hleave
      exact .execute operation .done _
    refine ⟨.iterate s.length next :: .execute operation :: .silent :: labels, .step nofun ?_ hbody⟩
    exact .iterateStatic step _ s hlt

/-- The verifier accepts a loop that never suspends, and a loop whose last value it computes
with a wrap. -/
theorem progress_fails : verifyProcess attributeLoop = true ∧ ¬ StructuredProgress attributeLoop ∧
    verifyProcess wideLoop = true ∧ ¬ StructuredProgress wideLoop := by
  refine ⟨by decide, ?_, by decide, ?_⟩
  · intro h
    refine h.finite attributeRun ?_ silent_attributeRun
    exact (Reachable.start.step (.restart _ _)).step (.enterWhile _ _ _ _ _)
  · intro h
    obtain ⟨labels, hepisode⟩ := @exists_episode_staticFor (2 ^ 63 - 1) (2 ^ 63 - 1) (by decide)
      (.stateAccess [0]) [.block (.op .yieldSim .done), .process wideLoop] _ (-2 ^ 63) rfl
    obtain ⟨trip, htrip, _, hexact⟩ := h.staticFor _ _ _ _ _ _ labels
      (Reachable.start.step (.restart _ _)) hepisode
    have hthree : trip = ⟨-2 ^ 63, 2 ^ 63 - 1, 2 ^ 63 - 1, 3⟩ :=
      Option.some.inj (htrip.symm.trans (by decide))
    subst hthree
    rw [staticPortExact_iff htrip (by decide)] at hexact
    exact absurd (hexact rfl (by decide)) (by decide)

end AgenticCircuit.Dialect
