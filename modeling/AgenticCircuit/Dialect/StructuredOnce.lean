import AgenticCircuit.Dialect.StructuredProgress
import Mathlib.Data.List.Nodup

/-! # Operations executed once in an activation

How often one activation of a verified process executes an operation.  An activation ends at
the first suspension, so between two executions of one operation it would have to go around a
loop without suspending.  Of the loops the verifier admits only those with constant bounds can
do that, and where each loop around a tracked operation suspends or has a single iteration
(`loopsSuspend`), no tracked operation is executed twice (`nodup_executed`).

`leads` collects what an activation can still execute: silent steps only take from it
(`Step.sublist_leads`), and in every reachable configuration it has no duplicates. -/

namespace AgenticCircuit.Dialect

open List Bool Checked

/-- The block begins with an operation, behind which it goes on with `rest`. -/
inductive Behind : Block α → Block α → Prop
  | op (operation rest) : Behind (.op operation rest) rest
  | ifOp (condition thenRegion hasElse elseRegion rest) :
      Behind (.ifOp condition thenRegion hasElse elseRegion rest) rest
  | forOp (lower upper step body rest) : Behind (.forOp lower upper step body rest) rest
  | whileOp (condition before after rest) : Behind (.whileOp condition before after rest) rest
  | instrumentation (body rest) : Behind (.instrumentation body rest) rest

/-- The operation that the block begins with executes its region `part` above the frames
`tail`. -/
inductive Inside : Block α → Block α → Config α → Prop
  | taken {condition value} (thenRegion hasElse elseRegion rest) : condition.Allows value →
      Inside (.ifOp condition thenRegion hasElse elseRegion rest)
        (if value then thenRegion else elseRegion) [.block rest]
  | staticFor {lower step next : ℤ} (upper body rest) : lower + step ≤ next →
      Inside (.forOp (.constant lower) (.constant upper) (.constant step) body rest) body
        [.staticFor next upper step body, .block rest]
  | dynamicFor {lower upper step} (body rest) : allConstant lower upper step = false →
      Inside (.forOp lower upper step body rest) body [.dynamicFor body, .block rest]
  | whileTest (condition before after rest) : Inside (.whileOp condition before after rest) before
      [.whileTest condition before after, .block rest]
  | whileBack (condition before after rest) : Inside (.whileOp condition before after rest) after
      [.whileBack condition before after, .block rest]
  | body (body rest) : Inside (.instrumentation body rest) body [.block rest]

/-- `Residual region pre`: the frames `pre` are what is left of a block that has been started,
all of it, a part of it, or nothing. -/
inductive Residual : Block α → Config α → Prop
  | whole (region) : Residual region [.block region]
  | gone (region) : Residual region []
  | entered (lower upper step : ℤ) (body rest) :
      Residual (.forOp (.constant lower) (.constant upper) (.constant step) body rest)
        [.staticFor lower upper step body, .block rest]
  | behind {region rest pre} : Behind region rest → Residual rest pre → Residual region pre
  | inside {region part pre tail} : Inside region part tail → Residual part pre →
      Residual region (pre ++ tail)

theorem Residual.step_whole {region : Block α} {s c : Config α}
    (h : Step (.block region :: s) label c) : ∃ pre, c = pre ++ s ∧ Residual region pre := by
  cases h with
  | leave => exact ⟨[], rfl, .gone _⟩
  | execute operation rest => exact ⟨[_], rfl, .behind (.op operation rest) (.whole rest)⟩
  | takeThen thenRegion hasElse elseRegion rest s hallows =>
    exact ⟨[_] ++ [_], rfl, .inside (.taken _ _ _ _ hallows) (.whole thenRegion)⟩
  | takeElse thenRegion hasElse elseRegion rest s hallows =>
    exact ⟨[_] ++ [_], rfl, .inside (.taken _ _ _ _ hallows) (.whole elseRegion)⟩
  | enterStatic lower upper step body rest => exact ⟨[_, _], rfl, .entered ..⟩
  | enterDynamic body rest s hnot =>
    exact ⟨[] ++ [_, _], rfl, .inside (.dynamicFor _ _ hnot) (.gone _)⟩
  | enterWhile condition before after rest =>
    exact ⟨[_] ++ [_, _], rfl, .inside (.whileTest ..) (.whole _)⟩
  | enterInstrumentation body rest =>
    exact ⟨[_] ++ [_], rfl, .inside (.body ..) (.whole _)⟩

variable {α : Type} [ProcessOperation α] (tracked : α → Bool)

/-! ### What an activation can execute -/

omit [ProcessOperation α] in
/-- The tracked operations of a block, at any depth. -/
def operations : Block α → List α
  | .done => []
  | .op operation rest => (if tracked operation then [operation] else []) ++ operations rest
  | .ifOp _ thenRegion _ elseRegion rest =>
    operations thenRegion ++ (operations elseRegion ++ operations rest)
  | .forOp _ _ _ body rest | .instrumentation body rest => operations body ++ operations rest
  | .whileOp _ before after rest => operations before ++ (operations after ++ operations rest)

/-- The list unless the flag is set. -/
def cut (stop : Bool) (list : List α) : List α := if stop then [] else list

/-- The tracked operations a block can execute before it suspends.  After an operation that
guarantees a suspension nothing follows. -/
def lead : Block α → List α
  | .done => []
  | .op operation rest =>
    cut (isSuspension operation) ((if tracked operation then [operation] else []) ++ lead rest)
  | .ifOp condition thenRegion hasElse elseRegion rest =>
    lead thenRegion ++ (lead elseRegion ++
      cut (ifGuarantees condition thenRegion hasElse elseRegion) (lead rest))
  | .forOp _ _ _ body rest | .instrumentation body rest => lead body ++ lead rest
  | .whileOp condition before after rest =>
    lead before ++ (cut (guaranteesSuspend before || constantBool condition == some false)
      (lead after) ++ lead rest)

/-- The tracked operations the test of an `scf.while` leads to: the second region, and the
first one again unless the second suspends. -/
def testLead (condition : Condition) (before after : Block α) : List α :=
  cut (constantBool condition == some false)
    (lead tracked after ++ cut (guaranteesSuspend after) (lead tracked before))

/-- The tracked operations a frame can execute before it suspends. -/
def Frame.lead : Frame α → List α
  | .block region => Dialect.lead tracked region
  | .staticFor next upper _ body => if next < upper then Dialect.lead tracked body else []
  | .dynamicFor body | .process body => Dialect.lead tracked body
  | .whileTest condition before after => testLead tracked condition before after
  | .whileBack condition before after =>
    Dialect.lead tracked before ++
      cut (guaranteesSuspend before || constantBool condition == some false)
        (Dialect.lead tracked after)

/-- Nothing below the frame is reached in the same activation. -/
def Frame.stops : Frame α → Bool
  | .block region => guaranteesSuspend region
  | .whileBack _ before _ => guaranteesSuspend before
  | .process _ => true
  | .staticFor _ _ _ _ | .dynamicFor _ | .whileTest _ _ _ => false

/-- The tracked operations an activation can execute from a configuration. -/
def leads : Config α → List α
  | [] => []
  | frame :: s => frame.lead tracked ++ cut frame.stops (leads s)

/-- Every loop around a tracked operation suspends in each iteration or has one iteration at
most. -/
def loopsSuspend : Block α → Bool
  | .done => true
  | .op _ rest => loopsSuspend rest
  | .ifOp _ thenRegion _ elseRegion rest =>
    loopsSuspend thenRegion && loopsSuspend elseRegion && loopsSuspend rest
  | .forOp lower upper step body rest =>
    (guaranteesSuspend body || (operations tracked body).isEmpty ||
      match analyzeStaticFor lower upper step with
      | some trip => decide (trip.tripCount ≤ 1)
      | none => true) &&
      loopsSuspend body && loopsSuspend rest
  | .whileOp _ before after rest =>
    loopsSuspend before && loopsSuspend after && loopsSuspend rest
  | .instrumentation body rest => loopsSuspend body && loopsSuspend rest

section Cut

omit [ProcessOperation α]

variable {stop : Bool} {list : List α}

@[simp] theorem cut_true : cut true list = [] := rfl

@[simp] theorem cut_false : cut false list = list := rfl

@[simp] theorem cut_nil : cut stop ([] : List α) = [] := by cases stop <;> rfl

theorem cut_sublist : cut stop list <+ list := by
  cases stop
  · exact .refl _
  · exact nil_sublist _

theorem mem_cut {a : α} (h : a ∈ cut stop list) : stop = false ∧ a ∈ list := by
  cases stop with
  | true => cases h
  | false => exact ⟨rfl, h⟩

end Cut

variable {tracked}

theorem lead_sublist_operations (region : Block α) :
    lead tracked region <+ operations tracked region := by
  induction region with
  | done => exact .refl _
  | op operation rest ih => exact cut_sublist.trans ((Sublist.refl _).append ih)
  | ifOp condition thenRegion hasElse elseRegion rest ihThen ihElse ihRest =>
    exact ihThen.append (ihElse.append (cut_sublist.trans ihRest))
  | forOp lower upper step body rest ihBody ihRest | instrumentation body rest ihBody ihRest =>
    exact ihBody.append ihRest
  | whileOp condition before after rest ihBefore ihAfter ihRest =>
    exact ihBefore.append ((cut_sublist.trans ihAfter).append ihRest)

theorem leads_append (upper lower : Config α) : leads tracked (upper ++ lower)
      = leads tracked upper ++ cut (upper.any Frame.stops) (leads tracked lower) := by
  induction upper with
  | nil => simp [leads]
  | cons frame upper ih =>
    rw [cons_append, leads, leads, ih, any_cons]
    cases frame.stops <;> simp

/-! ### Silent steps take from the leads -/

variable (tracked) in
omit [ProcessOperation α] in
/-- The tracked operations a step executes. -/
def executed : Label α → List α
  | .execute operation => if tracked operation then [operation] else []
  | .silent | .iterate _ _ => []

variable (tracked) in
/-- The condition on loops, for the code of a frame. -/
def Frame.LoopsSuspend : Frame α → Prop
  | .block region => loopsSuspend tracked region = true
  | .staticFor next upper step body => loopsSuspend tracked body = true ∧
      (guaranteesSuspend body = true ∨ operations tracked body = [] ∨ upper ≤ next + step)
  | .dynamicFor body | .process body => loopsSuspend tracked body = true
  | .whileTest _ before after | .whileBack _ before after =>
    loopsSuspend tracked before = true ∧ loopsSuspend tracked after = true

theorem lead_eq_nil {region : Block α} (h : operations tracked region = []) :
    lead tracked region = [] := by
  have hsub : lead tracked region <+ operations tracked region := lead_sublist_operations region
  rw [h] at hsub
  exact sublist_nil.mp hsub

variable {condition : Condition}

/-- The second region of an `scf.while` leads nowhere else once one of the regions
suspends. -/
theorem testLead_eq {before after : Block α}
    (hguard : constantBool condition = some false ∨ guaranteesSuspend before = true ∨
      guaranteesSuspend after = true) (hbefore : guaranteesSuspend before = false) :
    testLead tracked condition before after
      = cut (constantBool condition == some false) (lead tracked after) := by
  rw [testLead]
  rcases hguard with h | h | h
  · simp [h]
  · rw [hbefore] at h
    cases h
  · simp [h]

theorem loopsSuspend_forOp {lower upper step : ℤ} {body rest : Block α}
    (hchecked : Checked (.forOp (.constant lower) (.constant upper) (.constant step) body rest))
    (h : loopsSuspend tracked
      (.forOp (.constant lower) (.constant upper) (.constant step) body rest) = true) :
    guaranteesSuspend body = true ∨ operations tracked body = [] ∨ upper ≤ lower + step := by
  obtain ⟨trip, htrip⟩ := Option.isSome_iff_exists.mp (hchecked.of_forOp.1 rfl)
  simp only [loopsSuspend, and_eq_true, or_eq_true, List.isEmpty_iff] at h
  rcases h.1.1 with (h | h) | h
  · exact .inl h
  · exact .inr (.inl h)
  · right
    right
    obtain ⟨hlower, hupper, hstep, hpos, _, _, hcount, _⟩ := analyzeStaticFor_eq_some htrip
    cases hlower
    cases hupper
    cases hstep
    rw [htrip] at h
    by_contra hlt
    have htwo : 1 < iterationCount trip.lowerBound trip.upperBound trip.step := by
      rw [lt_iterationCount_iff hpos]
      push_cast
      omega
    have hone : trip.tripCount ≤ 1 := of_decide_eq_true h
    omega

variable {label : Label α} {frame : Frame α}

/-- A silent step executes what stands in front of the leads, and leads to no more than the
rest of them. -/
theorem Step.sublist_leads {s c : Config α} (h : Step (frame :: s) label c)
    (hsilent : label.suspends = false) (hchecked : frame.Checked)
    (hloops : frame.LoopsSuspend tracked) :
    executed tracked label ++ leads tracked c <+ leads tracked (frame :: s) := by
  cases h with
  | leave => exact .refl _
  | execute operation rest =>
    have hop : isSuspension operation = false := hsilent
    simp [leads, Frame.lead, Frame.stops, lead, guaranteesSuspend, hop, executed]
  | @takeThen condition thenRegion hasElse elseRegion rest s hallows =>
    obtain ⟨hcondition, _, _, _, _⟩ := of_ifOp hchecked
    simp only [leads, Frame.lead, Frame.stops, lead, guaranteesSuspend_ifOp, executed,
      nil_append, append_assoc]
    refine (Sublist.refl _).append ?_
    refine Sublist.trans ?_ (sublist_append_right _ _)
    cases hthen : guaranteesSuspend thenRegion with
    | true => exact nil_sublist _
    | false =>
      rw [ifGuarantees_eq_false hcondition hallows hthen, Bool.false_or]
      exact .refl _
  | @takeElse condition thenRegion hasElse elseRegion rest s hallows =>
    obtain ⟨hcondition, _, _, _, _⟩ := of_ifOp hchecked
    simp only [leads, Frame.lead, Frame.stops, lead, guaranteesSuspend_ifOp, executed,
      nil_append, append_assoc]
    refine Sublist.trans ?_ (sublist_append_right _ _)
    refine (Sublist.refl _).append ?_
    cases helse : guaranteesSuspend elseRegion with
    | true => exact nil_sublist _
    | false =>
      rw [ifGuarantees_eq_false hcondition hallows helse, Bool.false_or]
      exact .refl _
  | enterStatic lower upper step body rest =>
    simp only [leads, Frame.lead, lead, executed, nil_append, append_assoc]
    refine Sublist.append ?_ (.refl _)
    split
    · exact .refl _
    · exact nil_sublist _
  | enterDynamic body rest s hnot =>
    simp [leads, Frame.lead, Frame.stops, lead, guaranteesSuspend, executed]
  | enterWhile condition before after rest =>
    obtain ⟨_, hguard, _, _, _⟩ := of_whileOp hchecked
    simp only [leads, Frame.lead, Frame.stops, lead, executed, nil_append, append_assoc]
    refine (Sublist.refl _).append ?_
    cases hbefore : guaranteesSuspend before with
    | true => exact nil_sublist _
    | false =>
      rw [testLead_eq hguard hbefore, Bool.false_or]
      exact .refl _
  | enterInstrumentation body rest =>
    simp only [leads, Frame.lead, lead, executed, nil_append, append_assoc]
    exact (Sublist.refl _).append cut_sublist
  | @iterateStatic next upper step body s hlt =>
    simp only [leads, Frame.lead, Frame.stops, executed, if_pos hlt]
    rcases hloops.2 with hbody | hbody | hbody
    · rw [hbody, cut_true, append_nil]
      exact sublist_append_left _ _
    · rw [lead_eq_nil hbody, ite_self, nil_append, nil_append]
      exact cut_sublist
    · rw [if_neg (by omega), nil_append]
      exact (Sublist.refl _).append cut_sublist
  | leaveStatic =>
    simp [leads, Frame.stops, executed]
  | iterateDynamic body | restart body =>
    simp [leads, Frame.lead, Frame.stops, executed, hchecked.1]
  | leaveDynamic | leaveWhile => simp [leads, Frame.stops, executed]
  | @continueWhile condition before after s hallows =>
    obtain ⟨hcondition, hguard, _, _⟩ := hchecked
    have hopen : (constantBool condition == some false) = false := by
      by_contra hclosed
      rw [not_eq_false, beq_iff_eq] at hclosed
      cases Condition.eq_of_allows hcondition hallows hclosed
    simp only [leads, Frame.lead, Frame.stops, testLead, executed, hopen, cut_false, nil_append,
      append_assoc]
    refine (Sublist.refl _).append ?_
    cases hafter : guaranteesSuspend after with
    | true => exact nil_sublist _
    | false =>
      have hbefore : guaranteesSuspend before = true := by
        simpa [hafter, beq_eq_false_iff_ne.mp hopen] using hguard
      simp [hbefore]
  | back condition before after =>
    obtain ⟨_, hguard, _, _⟩ := hchecked
    simp only [leads, Frame.lead, Frame.stops, executed, nil_append, append_assoc]
    refine (Sublist.refl _).append ?_
    cases hbefore : guaranteesSuspend before with
    | true => exact nil_sublist _
    | false =>
      rw [testLead_eq hguard hbefore, Bool.false_or]
      exact .refl _

/-! ### What is left of a block -/

section Parts

variable {part region rest body : Block α} {pre tail s c : Config α}

theorem step_pos {lower upper step : ℤ}
    (h : Checked (.forOp (.constant lower) (.constant upper) (.constant step) body rest)) :
    0 < step := by
  obtain ⟨hstatic, _⟩ := h.of_forOp
  obtain ⟨trip, htrip⟩ := Option.isSome_iff_exists.mp (hstatic rfl)
  obtain ⟨_, _, hstep, hpos, _⟩ := analyzeStaticFor_eq_some htrip
  cases hstep
  exact hpos

theorem Behind.checked (h : Behind region rest) (hchecked : Checked region) : Checked rest := by
  cases h with
  | op => exact op_iff.mp hchecked
  | ifOp => exact hchecked.of_ifOp.2.2.2.2
  | forOp => exact hchecked.of_forOp.2.2.2
  | whileOp => exact hchecked.of_whileOp.2.2.2.2
  | instrumentation => exact hchecked.of_instrumentation.2

theorem Inside.checked (h : Inside region part tail) (hchecked : Checked region) :
    Checked part := by
  cases h with
  | @taken _ value =>
    obtain ⟨_, _, hthen, helse, _⟩ := hchecked.of_ifOp
    cases value
    · exact helse
    · exact hthen
  | staticFor | dynamicFor => exact hchecked.of_forOp.2.2.1
  | whileTest => exact hchecked.of_whileOp.2.2.1
  | whileBack => exact hchecked.of_whileOp.2.2.2.1
  | body => exact hchecked.of_instrumentation.1

omit [ProcessOperation α] in
theorem Residual.step_staticFor {lower upper step next : ℤ} (hnext : lower ≤ next)
    (h : Step (.staticFor next upper step body :: .block rest :: s) label c) :
    ∃ pre, c = pre ++ s ∧
      Residual (.forOp (.constant lower) (.constant upper) (.constant step) body rest) pre := by
  cases h with
  | iterateStatic =>
    exact ⟨[.block body] ++ [_, _], rfl, .inside (.staticFor _ _ _ (by omega)) (.whole _)⟩
  | leaveStatic => exact ⟨[.block rest], rfl, .behind (.forOp ..) (.whole _)⟩

/-- The region has ended, and the operation around it goes on. -/
theorem Inside.step (h : Inside region part tail) (hchecked : Checked region)
    (hstep : Step (tail ++ s) label c) : ∃ pre, c = pre ++ s ∧ Residual region pre := by
  cases h with
  | taken =>
    obtain ⟨pre, rfl, hpre⟩ := Residual.step_whole hstep
    exact ⟨pre, rfl, .behind (.ifOp ..) hpre⟩
  | staticFor upper body rest hnext =>
    have hpos := step_pos hchecked
    exact Residual.step_staticFor (by omega) hstep
  | dynamicFor _ rest hnot =>
    cases hstep with
    | iterateDynamic =>
      exact ⟨[.block part] ++ [_, _], rfl, .inside (.dynamicFor _ _ hnot) (.whole _)⟩
    | leaveDynamic => exact ⟨[.block rest], rfl, .behind (.forOp ..) (.whole _)⟩
  | whileTest condition before after rest =>
    cases hstep with
    | continueWhile =>
      exact ⟨[.block after] ++ [_, _], rfl, .inside (.whileBack ..) (.whole _)⟩
    | leaveWhile => exact ⟨[.block rest], rfl, .behind (.whileOp ..) (.whole _)⟩
  | whileBack condition before after rest =>
    cases hstep with
    | back => exact ⟨[.block before] ++ [_, _], rfl, .inside (.whileTest ..) (.whole _)⟩
  | body =>
    obtain ⟨pre, rfl, hpre⟩ := Residual.step_whole hstep
    exact ⟨pre, rfl, .behind (.instrumentation ..) hpre⟩

theorem Residual.step (h : Residual region pre) : Checked region → pre ≠ [] →
    ∀ {s c : Config α} {label : Label α}, Step (pre ++ s) label c →
      ∃ pre', c = pre' ++ s ∧ Residual region pre' := by
  induction h with
  | whole region => exact fun _ _ _ _ _ hstep => step_whole hstep
  | gone region => exact fun _ hne => absurd rfl hne
  | entered => exact fun _ _ _ _ _ hstep => step_staticFor le_rfl hstep
  | behind hbehind _ ih =>
    intro hchecked hne s c label hstep
    obtain ⟨pre', rfl, hpre'⟩ := ih (hbehind.checked hchecked) hne hstep
    exact ⟨pre', rfl, .behind hbehind hpre'⟩
  | @inside region part pre tail hinside _ ih =>
    intro hchecked _ s c label hstep
    cases pre with
    | nil => exact hinside.step hchecked hstep
    | cons frame pre =>
      rw [append_assoc] at hstep
      obtain ⟨pre', rfl, hpre'⟩ := ih (hinside.checked hchecked) nofun hstep
      exact ⟨pre' ++ tail, by simp, .inside hinside hpre'⟩

end Parts

/-! ### Leads have no duplicates -/

variable (tracked) in
/-- What is left of a block leads to its own operations, to each of them once, and, where it
can end without a suspension, to none that a fresh start of the block would reach. -/
structure Apart (region : Block α) (pre : Config α) : Prop where
  mem : ∀ a ∈ leads tracked pre, a ∈ operations tracked region
  nodup : (leads tracked pre).Nodup
  disjoint : pre.any Frame.stops = false → guaranteesSuspend region = true →
    (leads tracked pre).Disjoint (lead tracked region)

variable {part region rest body : Block α} {pre tail : Config α} {body : Block α} {stop : Bool}

theorem leads_block (region : Block α) : leads tracked [.block region] = lead tracked region := by
  simp [leads, Frame.lead]

theorem leads_rest (rest : Block α) :
    leads tracked [.block rest] = [] ++ cut false (lead tracked rest) :=
  leads_block rest

theorem leads_loop (frame : Frame α) (rest : Block α) : leads tracked [frame, .block rest]
      = frame.lead tracked ++ cut frame.stops (lead tracked rest) := by
  simp [leads, Frame.lead]

theorem mem_operations_of_lead {a : α} (h : a ∈ lead tracked region) :
    a ∈ operations tracked region :=
  (lead_sublist_operations region).subset h

theorem nodup_lead (h : (operations tracked region).Nodup) : (lead tracked region).Nodup :=
  h.sublist (lead_sublist_operations region)

omit [ProcessOperation α] in
theorem nodup_append_cut {first second : List α} (hfirst : first.Nodup)
    (hsecond : second.Nodup) (h : stop = false → ∀ a ∈ first, a ∉ second) :
    (first ++ cut stop second).Nodup := by
  refine nodup_append.mpr ⟨hfirst, hsecond.sublist cut_sublist, ?_⟩
  rintro a ha b hb rfl
  obtain ⟨hstop, hb⟩ := mem_cut hb
  exact h hstop a ha hb

/-- A residue of a region of an operation, above frames that lead to `front` and to the rest of the
block.  The other region of the operation is `other`. -/
theorem Apart.above (h : Apart tracked part pre) (other : Block α) {front : List α}
    (hperm : operations tracked region ~ operations tracked part ++
      (operations tracked other ++ operations tracked rest))
    (hnodup : (operations tracked region).Nodup)
    (htail : leads tracked tail = front ++ cut stop (lead tracked rest)) (hfront : front.Nodup)
    (hmem : ∀ a ∈ front, a ∈ lead tracked part ∨ a ∈ lead tracked other)
    (hsep : pre.any Frame.stops = false → ∀ a ∈ leads tracked pre, a ∈ front →
      a ∈ lead tracked other)
    (hguarantee : tail.any Frame.stops = false → guaranteesSuspend region = true →
      front = [] ∧ guaranteesSuspend part = true ∧
        ∀ a ∈ lead tracked region, a ∈ lead tracked part ∨ a ∈ lead tracked other) :
    Apart tracked region (pre ++ tail) := by
  have hparts : ∀ a, a ∈ operations tracked region ↔ a ∈ operations tracked part ∨
      a ∈ operations tracked other ∨ a ∈ operations tracked rest :=
    fun a => by rw [hperm.mem_iff, mem_append, mem_append]
  have hsplit := hperm.nodup_iff.mp hnodup
  simp only [nodup_append, mem_append] at hsplit
  obtain ⟨_, ⟨_, hrest, hother⟩, hpart⟩ := hsplit
  have hbehind : ∀ a, a ∈ lead tracked part ∨ a ∈ lead tracked other → a ∉ lead tracked rest := by
    rintro a (ha | ha) hr
    · exact hpart a (mem_operations_of_lead ha) a (.inr (mem_operations_of_lead hr)) rfl
    · exact hother a (mem_operations_of_lead ha) a (mem_operations_of_lead hr) rfl
  refine ⟨?_, ?_, ?_⟩
  · intro a ha
    rw [leads_append, htail, mem_append] at ha
    rw [hparts]
    rcases ha with ha | ha
    · exact .inl (h.mem a ha)
    · rcases mem_append.mp (mem_cut ha).2 with ha | ha
      · exact (hmem a ha).imp mem_operations_of_lead fun ha => .inl (mem_operations_of_lead ha)
      · exact .inr (.inr (mem_operations_of_lead (mem_cut ha).2))
  · rw [leads_append, htail]
    refine nodup_append_cut h.nodup (nodup_append_cut hfront (nodup_lead hrest)
      fun _ a ha => hbehind a (hmem a ha)) fun hstops a ha hnext => ?_
    rcases mem_append.mp hnext with hnext | hnext
    · exact hpart a (h.mem a ha) a (.inl (mem_operations_of_lead (hsep hstops a ha hnext))) rfl
    · exact hpart a (h.mem a ha) a (.inr (mem_operations_of_lead (mem_cut hnext).2)) rfl
  · intro hstops hregion a ha hlead
    rw [any_append, or_eq_false_iff] at hstops
    obtain ⟨rfl, htaken, hleads⟩ := hguarantee hstops.2 hregion
    rw [leads_append, htail, hstops.1, cut_false, nil_append, mem_append] at ha
    rcases ha with ha | ha
    · rcases hleads a hlead with hlead | hlead
      · exact h.disjoint hstops.1 htaken ha hlead
      · exact hpart a (h.mem a ha) a (.inl (mem_operations_of_lead hlead)) rfl
    · exact hbehind a (hleads a hlead) (mem_cut ha).2

/-- A residue of the body of a loop with a region, above the frame of the loop. -/
theorem Apart.of_for {lower upper step : Bound} {frame : Frame α} (h : Apart tracked body pre)
    (hnodup : (operations tracked (.forOp lower upper step body rest)).Nodup)
    (hstops : frame.stops = false) (hlead : frame.lead tracked <+ lead tracked body)
    (hsep : pre.any Frame.stops = false → ∀ a ∈ leads tracked pre, a ∉ frame.lead tracked) :
    Apart tracked (.forOp lower upper step body rest) (pre ++ [frame, .block rest]) := by
  have hguarantee : any [frame, .block rest] Frame.stops = guaranteesSuspend rest := by
    rw [any_cons, hstops]
    simp [Frame.stops]
  refine h.above .done (.refl _) hnodup (leads_loop frame rest)
    ((nodup_lead (nodup_append.mp hnodup).1).sublist hlead) (fun a ha => .inl (hlead.subset ha))
    (fun hopen a ha hnext => absurd hnext (hsep hopen a ha)) fun hopen hregion => ?_
  rw [guaranteesSuspend, ← hguarantee, hopen] at hregion
  cases hregion

/-- A residue of the body of a loop with constant bounds: the body suspends, or holds no tracked
operation, or has been entered for the last time. -/
theorem Apart.of_staticFor {lower upper step next : ℤ} (h : Apart tracked body pre)
    (hchecked : Checked (.forOp (.constant lower) (.constant upper) (.constant step) body rest))
    (hloops : loopsSuspend tracked
      (.forOp (.constant lower) (.constant upper) (.constant step) body rest) = true)
    (hnodup : (operations tracked
      (.forOp (.constant lower) (.constant upper) (.constant step) body rest)).Nodup)
    (hnext : pre = [] ∨ lower + step ≤ next) :
    Apart tracked (.forOp (.constant lower) (.constant upper) (.constant step) body rest)
      (pre ++ [.staticFor next upper step body, .block rest]) := by
  have hlead : (Frame.staticFor next upper step body).lead tracked <+ lead tracked body := by
    rw [Frame.lead]
    split
    · exact .refl _
    · exact nil_sublist _
  refine h.of_for hnodup rfl hlead fun hstops a ha hmem => ?_
  rcases loopsSuspend_forOp hchecked hloops with hbody | hbody | hbody
  · exact h.disjoint hstops hbody ha (hlead.subset hmem)
  · have := h.mem a ha
    rw [hbody] at this
    cases this
  · rcases hnext with rfl | hnext
    · cases ha
    · rw [Frame.lead, if_neg (by omega)] at hmem
      cases hmem

theorem Apart.gone (region : Block α) : Apart tracked region [] :=
  ⟨by simp [leads], by simp [leads], fun _ _ => by simp [leads]⟩

theorem Inside.apart (hinside : Inside region part tail) (h : Apart tracked part pre)
    (hchecked : Checked region) (hloops : loopsSuspend tracked region = true)
    (hnodup : (operations tracked region).Nodup) : Apart tracked region (pre ++ tail) := by
  cases hinside with
  | @taken condition value thenRegion hasElse elseRegion rest hallows =>
    obtain ⟨hcondition, _⟩ := hchecked.of_ifOp
    refine h.above (if value then elseRegion else thenRegion) ?_ hnodup (leads_rest rest) nodup_nil
      (fun a ha => absurd ha not_mem_nil) (fun _ a _ ha => absurd ha not_mem_nil)
      fun hopen hregion => ⟨rfl, ?_⟩
    · cases value
      · exact perm_append_comm_assoc ..
      · exact .refl _
    · have hrest : guaranteesSuspend rest = false := by simpa [Frame.stops] using hopen
      rw [guaranteesSuspend_ifOp, hrest, Bool.or_false] at hregion
      refine ⟨guaranteesSuspend_of_ifGuarantees hcondition hallows hregion, fun a ha => ?_⟩
      rw [lead, hregion, cut_true, append_nil, mem_append] at ha
      cases value
      · exact ha.symm
      · exact ha
  | staticFor upper _ rest hnext => exact h.of_staticFor hchecked hloops hnodup (.inr hnext)
  | dynamicFor _ rest hnot =>
    obtain ⟨_, hdynamic, _⟩ := hchecked.of_forOp
    exact h.of_for hnodup rfl (.refl _) fun hstops a ha => h.disjoint hstops (hdynamic hnot) ha
  | whileTest condition _ after rest =>
    obtain ⟨_, hguard, _⟩ := hchecked.of_whileOp
    have hsplit := hnodup
    simp only [operations, nodup_append, mem_append] at hsplit
    obtain ⟨hbefore, ⟨hafter, _⟩, hbefore'⟩ := hsplit
    refine h.above after (.refl _) hnodup (leads_loop ..) (Nodup.sublist cut_sublist
      (nodup_append_cut (nodup_lead hafter) (nodup_lead hbefore) fun _ a ha hb =>
        hbefore' a (mem_operations_of_lead hb) a (.inl (mem_operations_of_lead ha)) rfl))
      (fun a ha => ?_) (fun hstops a ha hmem => ?_) fun hopen hregion => ?_
    · exact (mem_append.mp (mem_cut ha).2).symm.imp_left fun ha => (mem_cut ha).2
    · obtain ⟨hopen, hmem⟩ := mem_cut hmem
      refine (mem_append.mp hmem).resolve_right fun hmem => ?_
      -- the second region may end, so the first one suspends
      obtain ⟨hafter, hmem⟩ := mem_cut hmem
      have hfirst : guaranteesSuspend part = true := by
        simpa [hafter, beq_eq_false_iff_ne.mp hopen] using hguard
      exact h.disjoint hstops hfirst ha hmem
    · simp_all [Frame.stops, guaranteesSuspend]
  | whileBack condition before _ rest =>
    obtain ⟨_, hguard, _⟩ := hchecked.of_whileOp
    have hsplit := hnodup
    simp only [operations, nodup_append, mem_append] at hsplit
    obtain ⟨hbefore, ⟨hafter, _⟩, hbefore'⟩ := hsplit
    refine h.above before (perm_append_comm_assoc ..) hnodup (leads_loop ..)
      (nodup_append_cut (nodup_lead hbefore) (nodup_lead hafter) fun _ a ha hb =>
        hbefore' a (mem_operations_of_lead ha) a (.inl (mem_operations_of_lead hb)) rfl)
      (fun a ha => ?_) (fun hstops a ha hmem => ?_) fun hopen hregion => ?_
    · exact (mem_append.mp ha).symm.imp_left fun ha => (mem_cut ha).2
    · refine (mem_append.mp hmem).resolve_right fun hmem => ?_
      obtain ⟨hopen, hmem⟩ := mem_cut hmem
      rw [or_eq_false_iff] at hopen
      have hsecond : guaranteesSuspend part = true := by
        simpa [hopen.1, beq_eq_false_iff_ne.mp hopen.2] using hguard
      exact h.disjoint hstops hsecond ha hmem
    · simp_all [Frame.stops, guaranteesSuspend]
  | body _ rest =>
    refine h.above .done (.refl _) hnodup (leads_rest rest) nodup_nil
      (fun a ha => absurd ha not_mem_nil) (fun _ a _ ha => absurd ha not_mem_nil)
      fun hopen hregion => ?_
    simp_all [Frame.stops, guaranteesSuspend]

omit [ProcessOperation α] in
theorem Behind.operations_sublist (h : Behind region rest) :
    operations tracked rest <+ operations tracked region := by
  cases h with
  | ifOp | whileOp => exact (sublist_append_right _ _).trans (sublist_append_right _ _)
  | op | forOp | instrumentation => exact sublist_append_right _ _

/-- What stands in front of the rest has its own operations, and stops nothing by itself that the
rest would have to. -/
theorem Behind.lead (h : Behind region rest) (hnodup : (operations tracked region).Nodup)
    (hguarantee : guaranteesSuspend region = true) {a : α} (ha : a ∈ operations tracked rest)
    (hlead : a ∈ Dialect.lead tracked region) :
    guaranteesSuspend rest = true ∧ a ∈ Dialect.lead tracked rest := by
  cases h with
  | op operation rest =>
    obtain ⟨hop, hlead⟩ := mem_cut hlead
    rw [guaranteesSuspend, hop, Bool.false_or] at hguarantee
    refine ⟨hguarantee, (mem_append.mp hlead).resolve_left fun hmem => ?_⟩
    exact (nodup_append.mp hnodup).2.2 a hmem a ha rfl
  | ifOp condition thenRegion hasElse elseRegion rest =>
    simp only [operations, nodup_append, mem_append] at hnodup
    obtain ⟨_, ⟨_, _, helse⟩, hthen⟩ := hnodup
    rw [Dialect.lead, mem_append, mem_append] at hlead
    rcases hlead with hlead | hlead | hlead
    · exact absurd rfl (hthen a (mem_operations_of_lead hlead) a (.inr ha))
    · exact absurd rfl (helse a (mem_operations_of_lead hlead) a ha)
    · obtain ⟨hgi, hlead⟩ := mem_cut hlead
      rw [guaranteesSuspend_ifOp, hgi, Bool.false_or] at hguarantee
      exact ⟨hguarantee, hlead⟩
  | forOp lower upper step body rest | instrumentation body rest =>
    refine ⟨hguarantee, (mem_append.mp hlead).resolve_left fun hmem => ?_⟩
    exact (nodup_append.mp hnodup).2.2 a (mem_operations_of_lead hmem) a ha rfl
  | whileOp condition before after rest =>
    simp only [operations, nodup_append, mem_append] at hnodup
    obtain ⟨_, ⟨_, _, hafter⟩, hbefore⟩ := hnodup
    rw [Dialect.lead, mem_append, mem_append] at hlead
    rcases hlead with hlead | hlead | hlead
    · exact absurd rfl (hbefore a (mem_operations_of_lead hlead) a (.inr ha))
    · exact absurd rfl (hafter a (mem_operations_of_lead (mem_cut hlead).2) a ha)
    · exact ⟨hguarantee, hlead⟩

theorem Behind.loopsSuspend (h : Behind region rest)
    (hloops : Dialect.loopsSuspend tracked region = true) :
    Dialect.loopsSuspend tracked rest = true := by
  cases h <;> simp_all [Dialect.loopsSuspend]

theorem Inside.loopsSuspend (h : Inside region part tail)
    (hloops : Dialect.loopsSuspend tracked region = true) :
    Dialect.loopsSuspend tracked part = true := by
  cases h with
  | @taken _ value => cases value <;> simp_all [Dialect.loopsSuspend]
  | _ => simp_all [Dialect.loopsSuspend]

omit [ProcessOperation α] in
theorem Inside.operations_sublist (h : Inside region part tail) :
    operations tracked part <+ operations tracked region := by
  cases h with
  | @taken _ value =>
    cases value
    · exact (sublist_append_left _ _).trans (sublist_append_right _ _)
    · exact sublist_append_left _ _
  | whileBack => exact (sublist_append_left _ _).trans (sublist_append_right _ _)
  | _ => exact sublist_append_left _ _

theorem Residual.apart (h : Residual region pre) : Checked region →
    loopsSuspend tracked region = true → (operations tracked region).Nodup →
      Apart tracked region pre := by
  induction h with
  | whole region =>
    intro _ _ hnodup
    refine ⟨fun a ha => ?_, ?_, fun hstops hguarantee => ?_⟩
    · exact mem_operations_of_lead (leads_block region ▸ ha)
    · exact leads_block region ▸ nodup_lead hnodup
    · simp [Frame.stops, hguarantee] at hstops
  | gone region => exact fun _ _ _ => .gone region
  | entered lower upper step body rest =>
    exact fun hchecked hloops hnodup =>
      (Apart.gone body).of_staticFor hchecked hloops hnodup (.inl rfl)
  | behind hbehind _ ih =>
    intro hchecked hloops hnodup
    obtain ⟨hmem, hnodup', hdisjoint⟩ := ih (hbehind.checked hchecked) (hbehind.loopsSuspend hloops)
      (hnodup.sublist hbehind.operations_sublist)
    refine ⟨fun a ha => hbehind.operations_sublist.subset (hmem a ha), hnodup', ?_⟩
    intro hstops hguarantee a ha hlead
    obtain ⟨hrest, hlead⟩ := hbehind.lead hnodup hguarantee (hmem a ha) hlead
    exact hdisjoint hstops hrest ha hlead
  | inside hinside _ ih =>
    intro hchecked hloops hnodup
    exact hinside.apart (ih (hinside.checked hchecked) (hinside.loopsSuspend hloops)
      (hnodup.sublist hinside.operations_sublist)) hchecked hloops hnodup

/-! ### Activations -/

section Verified

theorem Step.loopsSuspend {c' : Config α} {label : Label α} (h : Step c label c')
    (hchecked : ∀ frame ∈ c, frame.Checked) (hloops : ∀ frame ∈ c, frame.LoopsSuspend tracked) :
    ∀ frame ∈ c', frame.LoopsSuspend tracked := by
  cases h with
  | enterStatic lower upper step body rest s =>
    obtain ⟨hframe, hs⟩ := forall_mem_cons.mp hloops
    have hshort := loopsSuspend_forOp (hchecked _ mem_cons_self) hframe
    simp only [Frame.LoopsSuspend, Dialect.loopsSuspend, and_eq_true] at hframe
    exact forall_mem_cons.mpr ⟨⟨hframe.1.2, hshort⟩, forall_mem_cons.mpr ⟨hframe.2, hs⟩⟩
  | iterateStatic step body s hlt =>
    obtain ⟨hframe, hs⟩ := forall_mem_cons.mp hloops
    have hpos : 0 < step := (hchecked _ mem_cons_self).1
    refine forall_mem_cons.mpr ⟨hframe.1, forall_mem_cons.mpr ⟨⟨hframe.1, ?_⟩, hs⟩⟩
    rcases hframe.2 with hbody | hbody | hbody
    · exact .inl hbody
    · exact .inr (.inl hbody)
    · exact .inr (.inr (by omega))
  | _ => simp_all [Frame.LoopsSuspend, Dialect.loopsSuspend]

variable {body : Block α} (hverified : verifyProcess body = true)
  (hattributes : valueAttributesConstant body = true)

include hverified hattributes

variable {c : Config α}

theorem Reachable.exists_residual (h : Reachable body c) :
    ∃ pre, c = pre ++ [.process body] ∧ Residual body pre := by
  have hchecked := (checked_of_verifyProcess hverified hattributes).1
  induction h with
  | start => exact ⟨[], rfl, .gone body⟩
  | step _ hstep ih =>
    obtain ⟨pre, rfl, hpre⟩ := ih
    cases pre with
    | nil =>
      cases hstep
      exact ⟨[.block body], rfl, .whole body⟩
    | cons frame pre =>
      obtain ⟨pre', rfl, hpre'⟩ := hpre.step hchecked nofun hstep
      exact ⟨pre', rfl, hpre'⟩

theorem Reachable.nodup_leads (hloops : loopsSuspend tracked body = true)
    (hnodup : (operations tracked body).Nodup) (h : Reachable body c) :
    (leads tracked c).Nodup := by
  obtain ⟨hchecked, hguarantee⟩ := checked_of_verifyProcess hverified hattributes
  obtain ⟨pre, rfl, hpre⟩ := h.exists_residual hverified hattributes
  have hapart := hpre.apart hchecked hloops hnodup
  rw [leads_append]
  have hprocess : leads tracked [.process body] = lead tracked body := by
    simp [leads, Frame.lead]
  rw [hprocess]
  exact nodup_append_cut hapart.nodup (nodup_lead hnodup)
    fun hstops a ha hlead => hapart.disjoint hstops hguarantee ha hlead

theorem Reachable.loopsSuspend (hloops : loopsSuspend tracked body = true) (h : Reachable body c) :
    ∀ frame ∈ c, frame.LoopsSuspend tracked := by
  induction h with
  | start => simpa [Frame.LoopsSuspend] using hloops
  | step hreach hstep ih =>
    exact hstep.loopsSuspend (hreach.checked hverified hattributes) ih

end Verified

/-! ### Operations of a configuration -/

section Operations

omit [ProcessOperation α]

variable (tracked) in
/-- The tracked operations in the code of a frame. -/
def Frame.operations : Frame α → List α
  | .block region => Dialect.operations tracked region
  | .staticFor _ _ _ body | .dynamicFor body | .process body => Dialect.operations tracked body
  | .whileTest _ before after | .whileBack _ before after =>
    Dialect.operations tracked before ++ Dialect.operations tracked after

variable {c c' : Config α} {body : Block α}

theorem Step.operations_subset {label : Label α} {all : List α} (h : Step c label c')
    (hc : ∀ frame ∈ c, frame.operations tracked ⊆ all) :
    ∀ frame ∈ c', frame.operations tracked ⊆ all := by
  cases h <;> simp_all [Frame.operations, Dialect.operations]

theorem Reachable.operations_subset (h : Reachable body c) :
    ∀ frame ∈ c, frame.operations tracked ⊆ operations tracked body := by
  induction h with
  | start => simp [Frame.operations]
  | step _ hstep ih => exact hstep.operations_subset ih

theorem Reachable.mem_operations {operation : α} (h : Reachable body c)
    (hstep : Step c (.execute operation) c') (htracked : tracked operation = true) :
    operation ∈ operations tracked body := by
  cases hstep with
  | execute operation rest s =>
    apply h.operations_subset (.block (.op operation rest)) mem_cons_self
    simp [Frame.operations, Dialect.operations, htracked]

end Operations

/-! ### The end of a body -/

theorem Residual.guarantees {region : Block α} {pre : Config α} (h : Residual region pre) :
    endsWithYield region = true →
      pre = [] ∨ pre = [.block .done] ∨ ∃ frame ∈ pre, frame.guarantees = true := by
  induction h with
  | whole region =>
    exact fun hyield => .inr (.inr ⟨_, mem_cons_self, guaranteesSuspend_of_endsWithYield hyield⟩)
  | gone region => exact fun _ => .inl rfl
  | entered lower upper step body rest =>
    exact fun hyield =>
      .inr (.inr ⟨.block rest, by simp, guaranteesSuspend_of_endsWithYield hyield⟩)
  | @behind _ rest pre hbehind hresidual ih =>
    intro hyield
    cases hbehind with
    | op operation rest =>
      cases rest with
      | done =>
        cases hresidual with
        | whole => exact .inr (.inl rfl)
        | gone => exact .inl rfl
        | behind h => cases h
        | inside h => cases h
      | _ => exact ih hyield
    | _ => exact ih hyield
  | @inside region part pre tail hinside =>
    -- the rest of the block is still to come, with its terminator
    intro hyield
    obtain ⟨rest, hmem, hrest⟩ : ∃ rest, Frame.block rest ∈ tail ∧ endsWithYield rest = true := by
      cases hinside with
      | taken _ _ _ rest | staticFor _ _ rest | dynamicFor _ rest | whileTest _ _ _ rest
      | whileBack _ _ _ rest | body _ rest => exact ⟨rest, by simp, hyield⟩
    exact .inr (.inr ⟨_, mem_append_right _ hmem, guaranteesSuspend_of_endsWithYield hrest⟩)

/-- The part of a process above its own frame still guarantees a suspension. -/
def Guarded (body : Block α) (c : Config α) : Prop :=
  ∃ pre, c = pre ++ [.process body] ∧ (∀ frame ∈ pre, frame.Checked) ∧
    ∃ frame ∈ pre, frame.guarantees = true

theorem Guarded.ne {c : Config α} (h : Guarded body c) : c ≠ [.process body] := by
  obtain ⟨pre, rfl, _, frame, hframe, _⟩ := h
  cases pre with
  | nil => cases hframe
  | cons f pre => cases pre <;> simp

theorem Guarded.step {c c' : Config α} (h : Guarded body c)
    (hstep : Step c label c') (hsilent : label.suspends = false) : Guarded body c' := by
  obtain ⟨pre, rfl, hchecked, hguarantee⟩ := h
  cases pre with
  | nil => simp at hguarantee
  | cons frame rest =>
    rw [cons_append] at hstep
    obtain ⟨new, rfl, hnew, hpass⟩ := hstep.exists_top (hchecked frame mem_cons_self)
    refine ⟨new ++ rest, by simp, ?_, ?_⟩
    · intro f hf
      rcases mem_append.mp hf with hf | hf
      · exact hnew f hf
      · exact hchecked f (mem_cons_of_mem _ hf)
    · obtain ⟨f, hf, hfg⟩ := hguarantee
      rcases mem_cons.mp hf with rfl | hf
      · obtain ⟨f', hf', hfg'⟩ := hpass hfg hsilent
        exact ⟨f', mem_append_left _ hf', hfg'⟩
      · exact ⟨f, mem_append_right _ hf, hfg⟩

theorem Reachable.guarded_of_execute (hverified : verifyProcess body = true)
    (hattributes : valueAttributesConstant body = true) {c c' : Config α} {operation : α}
    (h : Reachable body c) (hstep : Step c (.execute operation) c') : Guarded body c := by
  have hyield : endsWithYield body = true := by
    simp only [verifyProcess, and_eq_true] at hverified
    exact hverified.1.1.1
  have hframes := h.checked hverified hattributes
  obtain ⟨pre, rfl, hpre⟩ := h.exists_residual hverified hattributes
  refine ⟨pre, rfl, fun f hf => hframes f (mem_append_left _ hf), ?_⟩
  rcases hpre.guarantees hyield with rfl | rfl | hguarantee
  · cases hstep
  · cases hstep
  · exact hguarantee

/-! ### Each operation once -/

/-- A run of steps without a suspension. -/
inductive Activation : Config α → List (Label α) → Config α → Prop
  | refl (c) : Activation c [] c
  | step {c label c' labels c''} : Step c label c' → label.suspends = false →
      Activation c' labels c'' → Activation c (label :: labels) c''

/-- One activation of a verified process executes no tracked operation twice. -/
theorem Activation.nodup_executed (hverified : verifyProcess body = true)
    (hattributes : valueAttributesConstant body = true)
    (hloops : loopsSuspend tracked body = true) (hnodup : (operations tracked body).Nodup)
    {c c' : Config α} {labels : List (Label α)} (hreach : Reachable body c)
    (h : Activation c labels c') : (labels.flatMap (executed tracked)).Nodup := by
  have hsublist : labels.flatMap (executed tracked) ++ leads tracked c' <+ leads tracked c := by
    induction h with
    | refl c => exact .refl _
    | @step c label c' labels c'' hstep hsilent _ ih =>
      have hframes := hreach.checked hverified hattributes
      have hframes' := hreach.loopsSuspend hverified hattributes hloops
      have hrest := ih (hreach.step hstep)
      cases c with
      | nil => cases hstep
      | cons frame s =>
        have hhead := hstep.sublist_leads hsilent (hframes _ mem_cons_self)
          (hframes' _ mem_cons_self)
        rw [flatMap_cons, append_assoc]
        exact ((Sublist.refl _).append hrest).trans hhead
  have hleads := hreach.nodup_leads hverified hattributes hloops hnodup
  exact (nodup_append.mp (hleads.sublist hsublist)).1

end AgenticCircuit.Dialect
