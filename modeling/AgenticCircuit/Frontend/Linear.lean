import Mathlib.Data.List.Dedup
import AgenticCircuit.Lib.Touch
import AgenticCircuit.Frontend.Lowering

/-! # Linear values along the paths of a process

A linear argument hands a value over, so between two assignments to a name at most one executed
action may pass it.  The builder checks this in the order of the source text: it remembers the name
with the number of assignments so far.  A path of the graph may execute a statement again, in the
next iteration of a loop or after `yield_sim`, and it may skip an assignment; both are invisible to
that check.

* **Paths.**  `Moves` is one step through the graph with the names it uses and assigns, and `Path`
  collects them.  `LinearUse` is the property of all finite paths.
* **`flow`** computes from a statement list whether a name may be spent where control leaves it, and
  whether it may be used while it is spent.  `linear_use_iff_flow` says that this is exact. -/

namespace AgenticCircuit.Frontend

open List Option Environment ProcessEdge
open Bool (or_eq_false_iff or_eq_true and_eq_true)
open Touch (AtMostOnce Spent touches spent_append_touches atMostOnce_append_touches)

abbrev Place := BlockName × ℕ

/-! ### Paths -/

namespace Environment

variable (env : Environment)

/-- The names an action passes as linear arguments. -/
def actionUses (a : ProcessAction) : List String :=
  match a.operation with
  | .effect operation => env.linearNames operation a.arguments
  | _ => []

def edgeUses : ProcessEdge → List String
  | .suspend operation arguments _ => env.linearNames operation arguments
  | _ => []

end Environment

/-- The names assigned on the way to `t`: a `for` loop assigns its target at every iteration.  The
edge out of the loop assigns nothing, although the block of the header defines the target for the
block arguments (`ProcessEdge.touches`). -/
def ProcessEdge.assigns : ProcessEdge → BlockName → List String
  | .branch (.next x _) onTrue _, t => if t = onTrue then [x] else []
  | _, _ => []

/-- One action or one edge, with the names it uses and then assigns. -/
inductive Moves (env : Environment) (P : Layout) :
    Place → List String → List String → Place → Prop
  | act {b : BlockName} {j : ℕ} {a : ProcessAction} (ha : ActsAt P b j a) :
      Moves env P (b, j) (env.actionUses a).dedup a.results (b, j + 1)
  | follow {b t : BlockName} {j : ℕ} {e : ProcessEdge} (he : EndsWith P b j e)
      (ht : t ∈ e.targets) : Moves env P (b, j) (env.edgeUses e).dedup (e.assigns t) (t, 0)

/-- A path from `s`, with its uses and assignments in order. -/
inductive Path (env : Environment) (P : Layout) (s : Place) : Place → List (Touch String) → Prop
  | start : Path env P s s []
  | step {p q : Place} {ts : List (Touch String)} {U A : List String} (hpath : Path env P s p ts)
      (hmove : Moves env P p U A q) : Path env P s q (ts ++ touches U A)

/-- Along every path through the blocks, a name is passed as a linear argument at most once between
two assignments to it. -/
def LinearUse (env : Environment) (P : Layout) : Prop :=
  ∀ b p ts, Path env P (b, 0) p ts → ∀ x, AtMostOnce x ts

variable {env : Environment} {P : Layout} {p q : Place} {U A : List String} {x : String}
  {b : BlockName} {j : ℕ} {index : BlockName → ℕ} {loops : List (BlockName × BlockName)}
  {fall : Option Place} {entry falls breaks continues : Bool}

section paths

variable {s : Place} {ts : List (Touch String)}

theorem Moves.nodup (h : Moves env P p U A q) : U.Nodup := by
  cases h with
  | act | follow => exact nodup_dedup _

theorem Path.trans {ts' : List (Touch String)} (h : Path env P s p ts)
    (h' : Path env P p q ts') : Path env P s q (ts ++ ts') := by
  induction h' with
  | start =>
    rw [List.append_nil]
    exact h
  | step _ hmove ih =>
    rw [← List.append_assoc]
    exact ih.step hmove

/-- No move starts outside the graph. -/
theorem Path.of_none (h : Path env P (b, 0) p ts) (hb : P b = none) : p = (b, 0) ∧ ts = [] := by
  induction h with
  | start => exact ⟨rfl, rfl⟩
  | step _ hmove ih =>
    obtain ⟨rfl, rfl⟩ := ih
    cases hmove with
    | act ha =>
      obtain ⟨acts, e, hsome, -⟩ := ha
      rw [hb] at hsome
      cases hsome
    | follow he =>
      obtain ⟨acts, hsome, -⟩ := he
      rw [hb] at hsome
      cases hsome

theorem Moves.of_acts {a : ProcessAction} (ha : ActsAt P b j a) (h : Moves env P (b, j) U A q) :
    U = (env.actionUses a).dedup ∧ A = a.results ∧ q = (b, j + 1) := by
  obtain ⟨acts, e, hb, hj⟩ := ha
  cases h with
  | act ha' =>
    obtain ⟨acts', e', hb', hj'⟩ := ha'
    rw [hb] at hb'
    cases hb'
    rw [hj] at hj'
    cases hj'
    exact ⟨rfl, rfl, rfl⟩
  | follow he =>
    obtain ⟨acts', hb', hj'⟩ := he
    rw [hb] at hb'
    cases hb'
    rw [getElem?_eq_none hj'.le] at hj
    cases hj

theorem Moves.of_ends {e : ProcessEdge} (he : EndsWith P b j e) (h : Moves env P (b, j) U A q) :
    U = (env.edgeUses e).dedup ∧ ∃ t ∈ e.targets, A = e.assigns t ∧ q = (t, 0) := by
  obtain ⟨acts, hb, hj⟩ := he
  cases h with
  | act ha' =>
    obtain ⟨acts', e', hb', hj'⟩ := ha'
    rw [hb] at hb'
    cases hb'
    rw [getElem?_eq_none hj.le] at hj'
    cases hj'
  | @follow _ t _ _ he' ht =>
    obtain ⟨acts', hb', -⟩ := he'
    rw [hb] at hb'
    cases hb'
    exact ⟨rfl, t, ht, rfl, rfl⟩

theorem Moves.of_jump {t : BlockName} (he : EndsWith P b j (.jump t))
    (h : Moves env P (b, j) U A q) : U = [] ∧ A = [] ∧ q = (t, 0) := by
  obtain ⟨hU, t', ht, hA, hq⟩ := h.of_ends he
  rw [targets, mem_singleton] at ht
  subst ht
  exact ⟨hU, hA, hq⟩

end paths

/-! ### The flow of a statement list -/

/-- Where a statement list may leave a name spent: at its end, at a `break`, at a `continue`, at a
restart; and whether it may use the name while it is spent. -/
structure Flow where
  misuse : Bool := false
  falls : Bool := false
  breaks : Bool := false
  continues : Bool := false
  restarts : Bool := false
deriving DecidableEq

namespace Flow

/-- `r` after `f`. -/
def seq (f r : Flow) : Flow :=
  ⟨f.misuse || r.misuse, r.falls, f.breaks || r.breaks, f.continues || r.continues,
    f.restarts || r.restarts⟩

/-- Either of two branches. -/
def join (f g : Flow) : Flow :=
  ⟨f.misuse || g.misuse, f.falls || g.falls, f.breaks || g.breaks, f.continues || g.continues,
    f.restarts || g.restarts⟩

/-- Of the body of a loop, what is seen outside. -/
def inner (f : Flow) : Flow := { misuse := f.misuse, restarts := f.restarts }

/-- The body of a loop may come back to the header with the name spent. -/
def back (f : Flow) : Bool := f.falls || f.continues

theorem seq_assoc (f g h : Flow) : (f.seq g).seq h = f.seq (g.seq h) := by
  simp only [seq, Bool.or_assoc]

end Flow

namespace Environment

variable (env x)

/-- A name that may be spent before it is used and assigned. -/
def touched (U A : List String) (m : Bool) : Bool := (m || decide (x ∈ U)) && !decide (x ∈ A)

def simpleFlow (s : Simple) (m : Bool) : Flow :=
  match env.meaning s with
  | some .skip => { falls := m }
  | some (.action a) =>
    { misuse := m && decide (x ∈ env.actionUses a)
      falls := touched x (env.actionUses a) a.results m }
  | some (.suspend operation arguments) =>
    { misuse := m && decide (x ∈ env.linearNames operation arguments)
      falls := touched x (env.linearNames operation arguments) [] m }
  | some (.restart arguments) =>
    { misuse := m && decide (x ∈ env.linearNames "yield_sim" arguments)
      restarts := touched x (env.linearNames "yield_sim" arguments) [] m }
  | none => {}

/-- The flow of a list that starts with `x` spent if `m`.  The header of a loop is reached from
before the loop and from its body, and what a `break` leaves spent is so in the `else` clause. -/
def flow : Body → Bool → Flow
  | .nil, m => { falls := m }
  | .simple s rest, m =>
    let f := env.simpleFlow x s m
    f.seq (flow rest f.falls)
  | .ite _ body orelse rest, m =>
    let f := (flow body m).join (flow orelse m)
    f.seq (flow rest f.falls)
  | .whileLoop _ body orelse rest, m =>
    let header := m || (flow body false).back
    let f := flow body header
    let g := f.inner.seq (flow orelse (header || f.breaks))
    g.seq (flow rest g.falls)
  | .forLoop target _ body orelse rest, m =>
    let header := m || (flow body false).back
    let f := flow body (if target = .name x then false else header)
    let g := f.inner.seq (flow orelse (header || f.breaks))
    g.seq (flow rest g.falls)
  | .ret _ rest, _ => ({} : Flow).seq (flow rest false)
  | .brk rest, m => ({ breaks := m } : Flow).seq (flow rest false)
  | .cont rest, m => ({ continues := m } : Flow).seq (flow rest false)

/-- The flow of a whole process: `yield_sim` leads back to its start. -/
def processFlow (body : Body) : Flow := env.flow x body (env.flow x body false).restarts

variable {env x}

theorem flow_append (s more : Body) (m : Bool) : env.flow x (s.append more) m
      = (env.flow x s m).seq (env.flow x more (env.flow x s m).falls) := by
  induction s generalizing m with
  | nil => simp [Body.append, flow, Flow.seq]
  | simple s rest ih | ite test body orelse rest _ _ ih | ret value rest ih | brk rest ih
  | cont rest ih => simp only [Body.append, flow, ih, Flow.seq_assoc]; rfl
  | whileLoop test body orelse rest _ _ ih | forLoop target iter body orelse rest _ _ ih =>
    simp only [Body.append, flow, ih, Flow.seq_assoc]; rfl

/-- At the header of a loop the name may be spent. -/
def headerSpent (env : Environment) (x : String) (l : LoopParts) (m : Bool) : Bool :=
  m || (env.flow x l.body false).back

/-- The flow of the body of a loop. -/
def bodyFlow (env : Environment) (x : String) (l : LoopParts) (m : Bool) : Flow :=
  env.flow x l.body (if l.target = some x then false else env.headerSpent x l m)

theorem flow_loop {s : Body} {l : LoopParts} (h : s.loopParts = some l) (m : Bool) :
    env.flow x s m = (env.bodyFlow x l m).inner.seq (env.flow x (l.orelse.append l.rest)
      (env.headerSpent x l m || (env.bodyFlow x l m).breaks)) := by
  rw [flow_append]
  match s, h with
  | .whileLoop test body orelse rest, h =>
    cases h
    simp only [flow, Flow.seq_assoc]
    rfl
  | .forLoop (.name y) iter body orelse rest, h =>
    cases h
    simp only [flow, bodyFlow, Flow.seq_assoc, Target.name.injEq, some.injEq]
    rfl

end Environment

/-! ### The flow bounds every path -/

/-- The flow stays below the given states of the places control can leave to. -/
structure Flow.Bounded (F : Flow) (entry falls breaks continues : Bool) : Prop where
  misuse : F.misuse = false
  restarts : F.restarts = true → entry = true
  falls : F.falls = true → falls = true
  breaks : F.breaks = true → breaks = true
  continues : F.continues = true → continues = true

theorem Flow.Bounded.seq {f r : Flow} (h : (f.seq r).Bounded entry falls breaks continues) :
    f.Bounded entry f.falls breaks continues ∧ r.Bounded entry falls breaks continues := by
  obtain ⟨hm, hr, hf, hb, hc⟩ := h
  simp only [Flow.seq, or_eq_false_iff, or_eq_true] at hm hr hf hb hc
  exact ⟨⟨hm.1, fun h => hr (.inl h), fun h => h, fun h => hb (.inl h), fun h => hc (.inl h)⟩,
    ⟨hm.2, fun h => hr (.inr h), hf, fun h => hb (.inr h), fun h => hc (.inr h)⟩⟩

theorem Flow.Bounded.join {f g : Flow} (h : (f.join g).Bounded entry falls breaks continues) :
    f.Bounded entry falls breaks continues ∧ g.Bounded entry falls breaks continues := by
  obtain ⟨hm, hr, hf, hb, hc⟩ := h
  simp only [Flow.join, or_eq_false_iff, or_eq_true] at hm hr hf hb hc
  exact ⟨⟨hm.1, fun h => hr (.inl h), fun h => hf (.inl h), fun h => hb (.inl h),
      fun h => hc (.inl h)⟩,
    ⟨hm.2, fun h => hr (.inr h), fun h => hf (.inr h), fun h => hb (.inr h),
      fun h => hc (.inr h)⟩⟩

section soundness

variable {entry breaks v : Bool}

/-- A loop in the graph: `header` and `after` bound the states at its header `h` and its exit `a`,
and `l.orelse` and `l.rest` stand from `a` on. -/
structure LoopStates (env : Environment) (P : Layout) (index : BlockName → ℕ) (x : String)
    (entry : Bool) (loops : List (BlockName × BlockName)) (l : LoopParts) (h d a : BlockName)
    (header after : Bool) (fall₂ : Option Place) (falls breaks continues : Bool) : Prop where
  parts : ∃ s : Body, s.loopParts = some l
  branch : EndsWith P h 0 (.branch l.condition d a)
  body : ∃ owned₁ fall₁, Region env P index ((h, a) :: loops) l.body d 0 owned₁ fall₁ ∧
    FallsTo P fall₁ h
  bodyFlow : (env.flow x l.body (if l.target = some x then false else header)).Bounded entry header
    after header
  onward : ∃ owned₂, Region env P index loops (l.orelse.append l.rest) a 0 owned₂ fall₂
  onwardFlow : (env.flow x (l.orelse.append l.rest) after).Bounded entry falls breaks continues
  exit : header = true → after = true

/-- What follows stays clean if the name is spent at most as said where control falls through,
breaks and continues. -/
inductive Rest (env : Environment) (P : Layout) (index : BlockName → ℕ) (x : String)
    (entry : Bool) : List (BlockName × BlockName) → Option Place → Bool → Bool → Bool → Prop
  | top {fall : Option Place} {falls breaks continues : Bool}
      (hret : ∀ c k, fall = some (c, k) → EndsWith P c k .ret) :
      Rest env P index x entry [] fall falls breaks continues
  | join {loops : List (BlockName × BlockName)} {rest : Body} {m : BlockName}
      {owned : List BlockName} {fall fall' : Option Place}
      {falls falls' breaks continues v : Bool} (hjoin : FallsTo P fall m)
      (hregion : Region env P index loops rest m 0 owned fall')
      (hflow : (env.flow x rest v).Bounded entry falls' breaks continues)
      (hv : falls = true → v = true)
      (hnext : Rest env P index x entry loops fall' falls' breaks continues) :
      Rest env P index x entry loops fall falls breaks continues
  | closed {loops : List (BlockName × BlockName)} {falls falls' breaks continues : Bool}
      (hnext : Rest env P index x entry loops none falls' breaks continues) :
      Rest env P index x entry loops none falls breaks continues
  | loop {loops : List (BlockName × BlockName)} {l : LoopParts} {h d a : BlockName}
      {fall fall₂ : Option Place}
      {falls breaks continues header after falls₂ breaks₂ continues₂ : Bool}
      (hback : FallsTo P fall h)
      (hloop : LoopStates env P index x entry loops l h d a header after fall₂ falls₂ breaks₂
        continues₂)
      (hfalls : falls = true → header = true) (hbreaks : breaks = true → after = true)
      (hcontinues : continues = true → header = true)
      (hnext : Rest env P index x entry loops fall₂ falls₂ breaks₂ continues₂) :
      Rest env P index x entry ((h, a) :: loops) fall falls breaks continues

/-- At the place the name is spent only if `v`, and then every path from there is clean. -/
inductive Fits (env : Environment) (P : Layout) (index : BlockName → ℕ) (x : String)
    (entry : Bool) : Bool → Place → Prop
  | run {loops : List (BlockName × BlockName)} {focus : Body} {b : BlockName} {j : ℕ}
      {owned : List BlockName} {fall : Option Place} {v falls breaks continues : Bool}
      (hregion : Region env P index loops focus b j owned fall)
      (hflow : (env.flow x focus v).Bounded entry falls breaks continues)
      (hrest : Rest env P index x entry loops fall falls breaks continues) :
      Fits env P index x entry v (b, j)
  | header {loops : List (BlockName × BlockName)} {l : LoopParts} {h d a : BlockName}
      {fall₂ : Option Place} {header after falls₂ breaks₂ continues₂ : Bool}
      (hloop : LoopStates env P index x entry loops l h d a header after fall₂ falls₂ breaks₂
        continues₂)
      (hnext : Rest env P index x entry loops fall₂ falls₂ breaks₂ continues₂) :
      Fits env P index x entry header (h, 0)

variable {continues falls v' : Bool} {l : LoopParts}

theorem Rest.innermost {h a : BlockName}
    (hrest : Rest env P index x entry ((h, a) :: loops) fall falls breaks continues) :
    (∃ v, (breaks = true → v = true) ∧ Fits env P index x entry v (a, 0)) ∧
      ∃ v, (continues = true → v = true) ∧ Fits env P index x entry v (h, 0) := by
  generalize hloops : (h, a) :: loops = all at hrest
  induction hrest with
  | top => cases hloops
  | join _ _ _ _ _ ih | closed _ ih => exact ih hloops
  | loop _ hloop _ hbreaks hcontinues hnext =>
    cases hloops
    obtain ⟨owned₂, hafter⟩ := hloop.onward
    exact ⟨⟨_, hbreaks, .run hafter hloop.onwardFlow hnext⟩, ⟨_, hcontinues, .header hloop hnext⟩⟩

theorem assigns_condition {s : Body} (hs : s.loopParts = some l) (d a : BlockName) :
    (branch l.condition d a).assigns d = l.target.toList := by
  match s, hs with
  | .whileLoop _ _ _ _, hs => cases hs; rfl
  | .forLoop (.name _) _ _ _ _, hs => cases hs; simp [assigns]

/-- What a move does to the state of a name. -/
def Advances (env : Environment) (P : Layout) (index : BlockName → ℕ) (x : String) (entry v : Bool)
    (U A : List String) (q : Place) : Prop :=
  (v = true → x ∉ U) ∧
    ∃ v', (v = true ∨ x ∈ U → x ∉ A → v' = true) ∧ Fits env P index x entry v' q

/-- A move without uses. -/
theorem advances_silent (hv : v = true → x ∉ A → v' = true) (h : Fits env P index x entry v' q) :
    Advances env P index x entry v [] A q := by
  refine ⟨fun _ => not_mem_nil, v', ?_, h⟩
  rintro (hspent | hx) hA
  · exact hv hspent hA
  · cases hx

theorem advances_use (hmisuse : (v && decide (x ∈ U)) = false)
    (hv : touched x U A v = true → v' = true) (h : Fits env P index x entry v' q) :
    Advances env P index x entry v U.dedup A q := by
  simp only [Bool.and_eq_false_iff, decide_eq_false_iff_not] at hmisuse
  simp only [touched, and_eq_true, or_eq_true, decide_eq_true_eq,
    Bool.not_eq_true', decide_eq_false_iff_not] at hv
  refine ⟨fun hspent hx => ?_, v', ?_, h⟩
  · rw [mem_dedup] at hx
    obtain hv | hU := hmisuse
    · rw [hv] at hspent
      cases hspent
    · exact hU hx
  · rintro hor hA
    rw [mem_dedup] at hor
    exact hv ⟨hor, hA⟩

theorem Rest.advances {c : BlockName} {k : ℕ}
    (hrest : Rest env P index x entry loops (some (c, k)) falls breaks continues)
    (hv : v = true → falls = true) (hmove : Moves env P (c, k) U A q) :
    Advances env P index x entry v U A q := by
  cases hrest with
  | top hret =>
    obtain ⟨-, t, ht, -⟩ := hmove.of_ends (hret c k rfl)
    cases ht
  | join hjoin hregion hflow hv' hnext =>
    obtain ⟨rfl, rfl, rfl⟩ := hmove.of_jump (hjoin c k rfl)
    exact advances_silent (fun hs _ => hv' (hv hs)) (.run hregion hflow hnext)
  | loop hback hloop hfalls _ _ hnext =>
    obtain ⟨rfl, rfl, rfl⟩ := hmove.of_jump (hback c k rfl)
    exact advances_silent (fun hs _ => hfalls (hv hs)) (.header hloop hnext)

theorem bodyFlow_bounded {m : Bool} {F : Flow}
    (h : ((env.bodyFlow x l m).inner.seq F).Bounded entry falls breaks continues) :
    (env.bodyFlow x l m).Bounded entry (env.headerSpent x l m)
      (env.headerSpent x l m || (env.bodyFlow x l m).breaks) (env.headerSpent x l m) := by
  obtain ⟨hinner, -⟩ := h.seq
  have hback : (env.bodyFlow x l m).back = true → env.headerSpent x l m = true := by
    intro hback
    by_contra hne
    rw [Bool.not_eq_true] at hne
    have hbody : env.bodyFlow x l m = env.flow x l.body false := by
      rw [bodyFlow, hne, ite_self]
    rw [headerSpent, or_eq_false_iff, ← hbody, hback] at hne
    cases hne.2
  refine ⟨hinner.misuse, hinner.restarts, fun h => hback ?_, fun h => ?_, fun h => hback ?_⟩
  · rw [Flow.back, h, Bool.true_or]
  · rw [h, Bool.or_true]
  · rw [Flow.back, h, Bool.or_true]

section

variable (hentry : Fits env P index x entry entry (entryName, 0)) {p : Place}

include hentry

theorem Region.advances {b : BlockName} {j : ℕ} {owned : List BlockName} {focus : Body}
    {falls continues : Bool} (hregion : Region env P index loops focus b j owned fall)
    (hflow : (env.flow x focus v).Bounded entry falls breaks continues)
    (hrest : Rest env P index x entry loops fall falls breaks continues)
    (hmove : Moves env P (b, j) U A q) : Advances env P index x entry v U A q := by
  induction hregion generalizing falls with
  | nil => exact hrest.advances hflow.falls hmove
  | skip hs _ ih =>
    rw [flow, simpleFlow, hs] at hflow
    exact ih hflow.seq.2 hrest hmove
  | action hs ha hregion =>
    obtain ⟨rfl, rfl, rfl⟩ := hmove.of_acts ha
    rw [flow, simpleFlow, hs] at hflow
    exact advances_use hflow.seq.1.misuse (fun h => h) (.run hregion hflow.seq.2 hrest)
  | suspend hs hend hregion =>
    obtain ⟨rfl, t, ht, rfl, rfl⟩ := hmove.of_ends hend
    rw [targets, mem_singleton] at ht
    subst ht
    rw [flow, simpleFlow, hs] at hflow
    exact advances_use hflow.seq.1.misuse (fun h => h) (.run hregion hflow.seq.2 hrest)
  | restart hs hend =>
    obtain ⟨rfl, t, ht, rfl, rfl⟩ := hmove.of_ends hend
    rw [targets, mem_singleton] at ht
    subst ht
    rw [flow, simpleFlow, hs] at hflow
    exact advances_use hflow.seq.1.misuse hflow.seq.1.restarts hentry
  | ite hend hbody horelse hjoin₁ hjoin₂ _ _ hregion =>
    obtain ⟨rfl, t, ht, rfl, rfl⟩ := hmove.of_ends hend
    obtain ⟨hbranches, hnext⟩ := hflow.seq
    simp only [targets, mem_cons, not_mem_nil, or_false] at ht
    obtain rfl | rfl := ht
    · exact advances_silent (fun h _ => h)
        (.run hbody hbranches.join.1 (.join hjoin₁ hregion hnext (fun h => h) hrest))
    · exact advances_silent (fun h _ => h)
        (.run horelse hbranches.join.2 (.join hjoin₂ hregion hnext (fun h => h) hrest))
  | iteClosed hend hbody horelse =>
    obtain ⟨rfl, t, ht, rfl, rfl⟩ := hmove.of_ends hend
    obtain ⟨hbranches, -⟩ := hflow.seq
    simp only [targets, mem_cons, not_mem_nil, or_false] at ht
    obtain rfl | rfl := ht
    · exact advances_silent (fun h _ => h) (.run hbody hbranches.join.1 (.closed hrest))
    · exact advances_silent (fun h _ => h) (.run horelse hbranches.join.2 (.closed hrest))
  | @loop _ s l _ _ _ _ _ _ _ _ _ hs _ _ henter hheader hbody hback hafter =>
    obtain ⟨rfl, rfl, rfl⟩ := hmove.of_jump henter
    rw [flow_loop hs] at hflow
    have hloop := LoopStates.mk ⟨s, hs⟩ hheader ⟨_, _, hbody, hback⟩ (bodyFlow_bounded hflow)
      ⟨_, hafter⟩ hflow.seq.2 fun h => by rw [h, Bool.true_or]
    refine advances_silent (fun h _ => ?_) (.header hloop hrest)
    rw [headerSpent, h, Bool.true_or]
  | ret hend =>
    obtain ⟨-, t, ht, -⟩ := hmove.of_ends hend
    cases ht
  | brk hend =>
    obtain ⟨rfl, rfl, rfl⟩ := hmove.of_jump hend
    obtain ⟨⟨v', hv', hfits⟩, -⟩ := hrest.innermost
    exact advances_silent (fun h _ => hv' (hflow.seq.1.breaks h)) hfits
  | cont hend =>
    obtain ⟨rfl, rfl, rfl⟩ := hmove.of_jump hend
    obtain ⟨-, ⟨v', hv', hfits⟩⟩ := hrest.innermost
    exact advances_silent (fun h _ => hv' (hflow.seq.1.continues h)) hfits

theorem Fits.advances (h : Fits env P index x entry v p) (hmove : Moves env P p U A q) :
    Advances env P index x entry v U A q := by
  cases h with
  | run hregion hflow hrest => exact hregion.advances hentry hflow hrest hmove
  | @header _ l h d a _ _ after _ _ _ hloop hnext =>
    obtain ⟨s, hs⟩ := hloop.parts
    obtain ⟨rfl, t, ht, rfl, rfl⟩ := hmove.of_ends hloop.branch
    simp only [targets, mem_cons, not_mem_nil, or_false] at ht
    obtain ⟨owned₁, fall₁, hbody, hback⟩ := hloop.body
    obtain ⟨owned₂, hafter⟩ := hloop.onward
    obtain rfl | rfl := ht
    · refine advances_silent (fun h hA => ?_) (.run hbody hloop.bodyFlow
        (.loop hback hloop (fun h => h) (fun h => h) (fun h => h) hnext))
      rw [assigns_condition hs, mem_toList] at hA
      rw [if_neg (fun heq => hA (by rw [heq])), h]
    · exact advances_silent (fun h _ => hloop.exit h) (.run hafter hloop.onwardFlow hnext)

theorem path_clean {ts : List (Touch String)} (hpath : Path env P (entryName, 0) p ts) :
    AtMostOnce x ts ∧ ∃ v, (Spent x ts → v = true) ∧ Fits env P index x entry v p := by
  induction hpath with
  | start => exact ⟨Touch.atMostOnce_nil, entry, fun h => absurd h Touch.not_spent_nil, hentry⟩
  | step _ hmove ih =>
    obtain ⟨honce, v, hspent, hfits⟩ := ih
    obtain ⟨huse, v', hv', hfits'⟩ := Fits.advances hentry hfits hmove
    rw [atMostOnce_append_touches hmove.nodup, spent_append_touches]
    refine ⟨⟨honce, fun hx hs => huse (hspent hs) hx⟩, v', ?_, hfits'⟩
    rintro ⟨hor, hA⟩
    exact hv' (hor.imp_left hspent) hA

end

end soundness

/-! ### Every flow is a path -/

section completeness

variable {m : Bool}

/-- A path from the entry leads to the place. -/
def Reached (env : Environment) (P : Layout) (p : Place) : Prop :=
  ∃ ts, Path env P (entryName, 0) p ts

/-- A path from the entry leads to the place and leaves the name spent. -/
def MaySpend (env : Environment) (P : Layout) (x : String) (p : Place) : Prop :=
  ∃ ts, Path env P (entryName, 0) p ts ∧ Spent x ts

/-- A path from the entry uses a spent name. -/
def Misused (env : Environment) (P : Layout) (x : String) : Prop :=
  ∃ p U A q, MaySpend env P x p ∧ Moves env P p U A q ∧ x ∈ U

variable {a c f t : BlockName} {condition : Condition} {owned : List BlockName} {focus : Body}
    {k : ℕ} {fall₁ : Option Place}

theorem Reached.step (h : Reached env P p) (hmove : Moves env P p U A q) : Reached env P q := by
  obtain ⟨ts, hpath⟩ := h
  exact ⟨_, hpath.step hmove⟩

theorem MaySpend.step (h : MaySpend env P x p) (hmove : Moves env P p U A q) (hA : x ∉ A) :
    MaySpend env P x q := by
  obtain ⟨ts, hpath, hspent⟩ := h
  exact ⟨_, hpath.step hmove, (spent_append_touches U A).mpr ⟨.inl hspent, hA⟩⟩

theorem maySpend_touched (hreach : Reached env P p) (hm : m = true → MaySpend env P x p)
    (hmove : Moves env P p U.dedup A q) (h : touched x U A m = true) : MaySpend env P x q := by
  simp only [touched, and_eq_true, or_eq_true, decide_eq_true_eq,
    Bool.not_eq_true', decide_eq_false_iff_not] at h
  obtain ⟨hspent | hx, hA⟩ := h
  · exact (hm hspent).step hmove hA
  · obtain ⟨ts, hpath⟩ := hreach
    refine ⟨_, hpath.step hmove, (spent_append_touches _ A).mpr ⟨.inr ?_, hA⟩⟩
    rwa [mem_dedup]

theorem misused_of_use (hm : m = true → MaySpend env P x p)
    (hmove : Moves env P p U.dedup A q) (h : (m && decide (x ∈ U)) = true) : Misused env P x := by
  simp only [and_eq_true, decide_eq_true_eq] at h
  exact ⟨p, _, A, q, hm h.1, hmove, mem_dedup.mpr h.2⟩

theorem Misused.path (h : Misused env P x) :
    ∃ p ts, Path env P (entryName, 0) p ts ∧ ¬ AtMostOnce x ts := by
  obtain ⟨p, U, A, q, ⟨ts, hpath, hspent⟩, hmove, hx⟩ := h
  refine ⟨q, _, hpath.step hmove, ?_⟩
  rw [atMostOnce_append_touches hmove.nodup]
  exact fun h => h.2 hx hspent

theorem move_jump (he : EndsWith P b j (.jump t)) :
    Moves env P (b, j) [] [] (t, 0) := .follow he mem_cons_self

theorem move_true (he : EndsWith P b j (.branch condition t f)) :
    Moves env P (b, j) [] ((branch condition t f).assigns t) (t, 0) :=
  .follow he mem_cons_self

theorem move_false (he : EndsWith P b j (.branch condition t f)) :
    Moves env P (b, j) [] ((branch condition t f).assigns f) (f, 0) :=
  .follow he (mem_cons_of_mem t mem_cons_self)

theorem Region.reached (h : Region env P index loops focus b j owned fall)
    (hreach : Reached env P (b, j)) :
    (∀ c ∈ owned, Reached env P (c, 0)) ∧ ∀ c k, fall = some (c, k) → Reached env P (c, k) := by
  induction h with
  | nil =>
    refine ⟨nofun, fun c k hfall => ?_⟩
    cases hfall
    exact hreach
  | skip _ _ ih => exact ih hreach
  | action _ ha _ ih => exact ih (hreach.step (.act ha))
  | suspend _ hend _ ih =>
    have ht := hreach.step (.follow hend mem_cons_self)
    obtain ⟨howned, hfall⟩ := ih ht
    exact ⟨forall_mem_cons.mpr ⟨ht, howned⟩, hfall⟩
  | restart | ret | brk | cont => exact ⟨nofun, nofun⟩
  | @ite _ _ _ _ _ _ _ _ m _ _ _ _ fall₁ fall₂ _ hend _ _ hjoin₁ hjoin₂ hopen _ _ ihbody ihorelse
      ihrest =>
    have ht := hreach.step (move_true hend)
    have hf := hreach.step (move_false hend)
    obtain ⟨howned₁, hfall₁⟩ := ihbody ht
    obtain ⟨howned₂, hfall₂⟩ := ihorelse hf
    have hm : Reached env P (m, 0) := by
      obtain hsome | hsome := hopen
      · obtain ⟨⟨c, k⟩, hck⟩ := isSome_iff_exists.mp hsome
        exact (hfall₁ c k hck).step (move_jump (hjoin₁ c k hck))
      · obtain ⟨⟨c, k⟩, hck⟩ := isSome_iff_exists.mp hsome
        exact (hfall₂ c k hck).step (move_jump (hjoin₂ c k hck))
    obtain ⟨howned, hfall⟩ := ihrest hm
    refine ⟨?_, hfall⟩
    rw [forall_mem_append, forall_mem_append]
    exact ⟨⟨forall_mem_cons.mpr ⟨ht, howned₁⟩, forall_mem_cons.mpr ⟨hf, howned₂⟩⟩,
      forall_mem_cons.mpr ⟨hm, howned⟩⟩
  | iteClosed hend _ _ _ ihbody ihorelse =>
    have ht := hreach.step (move_true hend)
    have hf := hreach.step (move_false hend)
    refine ⟨?_, nofun⟩
    rw [forall_mem_append]
    exact ⟨forall_mem_cons.mpr ⟨ht, (ihbody ht).1⟩, forall_mem_cons.mpr ⟨hf, (ihorelse hf).1⟩⟩
  | loop _ _ _ henter hheader _ _ _ _ _ _ _ ihbody ihafter =>
    have hh := hreach.step (move_jump henter)
    have hd := hh.step (move_true hheader)
    have ha := hh.step (move_false hheader)
    refine ⟨?_, (ihafter ha).2⟩
    rw [forall_mem_append]
    exact ⟨forall_mem_cons.mpr ⟨hh, forall_mem_cons.mpr ⟨hd, (ihbody hd).1⟩⟩,
      forall_mem_cons.mpr ⟨ha, (ihafter ha).1⟩⟩

/-- What a flow says is true of some path. -/
structure Flow.Realized (F : Flow) (env : Environment) (P : Layout) (x : String)
    (loops : List (BlockName × BlockName)) (fall : Option Place) : Prop where
  misuse : F.misuse = true → Misused env P x
  falls : F.falls = true → ∃ c k, fall = some (c, k) ∧ MaySpend env P x (c, k)
  breaks : F.breaks = true → ∃ h a rest, loops = (h, a) :: rest ∧ MaySpend env P x (a, 0)
  continues : F.continues = true → ∃ h a rest, loops = (h, a) :: rest ∧ MaySpend env P x (h, 0)
  restarts : F.restarts = true → MaySpend env P x (entryName, 0)

theorem Flow.Realized.seq {f r : Flow} {fall' : Option Place}
    (hf : f.Realized env P x loops fall') (hr : r.Realized env P x loops fall) :
    (f.seq r).Realized env P x loops fall := by
  refine ⟨?_, hr.falls, ?_, ?_, ?_⟩
  all_goals
    simp only [Flow.seq, or_eq_true]
    intro h
    obtain h | h := h
  · exact hf.misuse h
  · exact hr.misuse h
  · exact hf.breaks h
  · exact hr.breaks h
  · exact hf.continues h
  · exact hr.continues h
  · exact hf.restarts h
  · exact hr.restarts h

theorem Flow.Realized.empty : ({} : Flow).Realized env P x loops fall :=
  ⟨nofun, nofun, nofun, nofun, nofun⟩

theorem realized_falls (hm : m = true → MaySpend env P x (c, k)) :
    ({ falls := m } : Flow).Realized env P x loops (some (c, k)) :=
  ⟨nofun, fun h => ⟨c, k, rfl, hm h⟩, nofun, nofun, nofun⟩

theorem Flow.Realized.join {f g : Flow} {fall₂ : Option Place} {n : BlockName}
    (hf : f.Realized env P x loops fall₁) (hg : g.Realized env P x loops fall₂)
    (hjoin₁ : FallsTo P fall₁ n) (hjoin₂ : FallsTo P fall₂ n) :
    (f.join g).Realized env P x loops (some (n, 0)) := by
  refine ⟨?_, ?_, ?_, ?_, ?_⟩
  all_goals
    simp only [Flow.join, or_eq_true]
    intro h
    obtain h | h := h
  · exact hf.misuse h
  · exact hg.misuse h
  · obtain ⟨c, k, hck, hspend⟩ := hf.falls h
    exact ⟨n, 0, rfl, hspend.step (move_jump (hjoin₁ c k hck)) not_mem_nil⟩
  · obtain ⟨c, k, hck, hspend⟩ := hg.falls h
    exact ⟨n, 0, rfl, hspend.step (move_jump (hjoin₂ c k hck)) not_mem_nil⟩
  · exact hf.breaks h
  · exact hg.breaks h
  · exact hf.continues h
  · exact hg.continues h
  · exact hf.restarts h
  · exact hg.restarts h

theorem Flow.Realized.maySpend {F : Flow} (h : F.Realized env P x loops (some (c, k)))
    (hfalls : F.falls = true) : MaySpend env P x (c, k) := by
  obtain ⟨c', k', hck, hspend⟩ := h.falls hfalls
  cases hck
  exact hspend

/-- The name may be spent at the header of a loop. -/
theorem headerSpent_realized {l : LoopParts} {h : BlockName}
    (hm : m = true → MaySpend env P x (b, j)) (henter : EndsWith P b j (.jump h))
    (hbody : (env.flow x l.body false).Realized env P x ((h, a) :: loops) fall₁)
    (hback : FallsTo P fall₁ h) (hheader : env.headerSpent x l m = true) :
    MaySpend env P x (h, 0) := by
  rw [headerSpent, Flow.back, or_eq_true, or_eq_true] at hheader
  obtain hspent | hfalls | hcont := hheader
  · exact (hm hspent).step (move_jump henter) not_mem_nil
  · obtain ⟨c, k, hck, hspend⟩ := hbody.falls hfalls
    exact hspend.step (move_jump (hback c k hck)) not_mem_nil
  · obtain ⟨h', a', rest, hloops, hspend⟩ := hbody.continues hcont
    cases hloops
    exact hspend

theorem assigns_exit {d : BlockName} (hda : d ≠ a) : (branch condition d a).assigns a = [] := by
  cases condition with
  | test => rfl
  | next => rw [assigns, if_neg hda.symm]

theorem Region.realized (h : Region env P index loops focus b j owned fall)
    (hreach : Reached env P (b, j)) (hm : m = true → MaySpend env P x (b, j)) :
    (env.flow x focus m).Realized env P x loops fall := by
  induction h generalizing m with
  | nil => exact realized_falls hm
  | skip hs _ ih =>
    rw [flow, simpleFlow, hs]
    exact (realized_falls hm).seq (ih hreach hm)
  | @action loops _ _ b j _ _ a hs ha _ ih =>
    rw [flow, simpleFlow, hs]
    have hfirst : Flow.Realized { misuse := m && decide (x ∈ env.actionUses a)
                                  falls := touched x (env.actionUses a) a.results m }
        env P x loops (some (b, j + 1)) :=
      ⟨misused_of_use hm (.act ha), fun h => ⟨b, j + 1, rfl, maySpend_touched hreach hm (.act ha) h⟩,
        nofun, nofun, nofun⟩
    exact hfirst.seq (ih (hreach.step (.act ha)) hfirst.maySpend)
  | @suspend loops _ _ b t j _ _ operation arguments hs hend _ ih =>
    rw [flow, simpleFlow, hs]
    have hmove : Moves env P (b, j) (env.linearNames operation arguments).dedup [] (t, 0) :=
      .follow hend mem_cons_self
    have hfirst : Flow.Realized
        { misuse := m && decide (x ∈ env.linearNames operation arguments)
          falls := touched x (env.linearNames operation arguments) [] m }
        env P x loops (some (t, 0)) :=
      ⟨misused_of_use hm hmove, fun h => ⟨t, 0, rfl, maySpend_touched hreach hm hmove h⟩,
        nofun, nofun, nofun⟩
    exact hfirst.seq (ih (hreach.step hmove) hfirst.maySpend)
  | @restart loops _ b j arguments hs hend =>
    rw [flow, simpleFlow, hs]
    have hmove : Moves env P (b, j) (env.linearNames "yield_sim" arguments).dedup []
      (entryName, 0) := .follow hend mem_cons_self
    have hfirst : Flow.Realized
        { misuse := m && decide (x ∈ env.linearNames "yield_sim" arguments)
          restarts := touched x (env.linearNames "yield_sim" arguments) [] m }
        env P x loops none :=
      ⟨misused_of_use hm hmove, nofun, nofun, nofun, maySpend_touched hreach hm hmove⟩
    exact hfirst.seq .empty
  | ite hend hbody horelse hjoin₁ hjoin₂ hopen _ hrest ihbody ihorelse ihrest =>
    have ht := hreach.step (move_true hend)
    have hf := hreach.step (move_false hend)
    have hboth := (ihbody ht fun h => (hm h).step (move_true hend) not_mem_nil).join
      (ihorelse hf fun h => (hm h).step (move_false hend) not_mem_nil) hjoin₁ hjoin₂
    refine hboth.seq (ihrest ?_ hboth.maySpend)
    obtain hsome | hsome := hopen
    · obtain ⟨⟨c, k⟩, hck⟩ := isSome_iff_exists.mp hsome
      exact ((hbody.reached ht).2 c k hck).step (move_jump (hjoin₁ c k hck))
    · obtain ⟨⟨c, k⟩, hck⟩ := isSome_iff_exists.mp hsome
      exact ((horelse.reached hf).2 c k hck).step (move_jump (hjoin₂ c k hck))
  | @iteClosed _ _ body orelse b t f _ _ _ hend _ _ _ ihbody ihorelse =>
    have hnone : FallsTo P none b := fun c k h => by cases h
    have hbody := ihbody (hreach.step (move_true hend))
      fun h => (hm h).step (move_true hend) not_mem_nil
    have horelse := ihorelse (hreach.step (move_false hend))
      fun h => (hm h).step (move_false hend) not_mem_nil
    have hfalls : ((env.flow x body m).join (env.flow x orelse m)).falls = false := by
      rw [Flow.join, or_eq_false_iff]
      refine ⟨Bool.eq_false_iff.mpr fun h => ?_, Bool.eq_false_iff.mpr fun h => ?_⟩
      · obtain ⟨c, k, hck, -⟩ := hbody.falls h
        cases hck
      · obtain ⟨c, k, hck, -⟩ := horelse.falls h
        cases hck
    rw [flow]
    refine (hbody.join horelse hnone hnone).seq ?_
    rw [hfalls]
    exact .empty
  | @loop loops s l b h d a j _ _ fall₁ _ hs _ _ henter hheader _ hback _ _ _ _ hda ihbody ihafter =>
    have hh := hreach.step (move_jump henter)
    have hd := hh.step (move_true hheader)
    have ha := hh.step (move_false hheader)
    have hspent : env.headerSpent x l m = true → MaySpend env P x (h, 0) :=
      headerSpent_realized hm henter (ihbody hd nofun) hback
    have hbody : (env.bodyFlow x l m).Realized env P x ((h, a) :: loops) fall₁ := by
      apply ihbody hd
      intro hi
      split at hi
      · cases hi
      · rename_i htarget
        apply (hspent hi).step (move_true hheader)
        rw [assigns_condition hs, mem_toList]
        exact htarget
    rw [flow_loop hs]
    have hinner : (env.bodyFlow x l m).inner.Realized env P x loops none :=
      ⟨hbody.misuse, nofun, nofun, nofun, hbody.restarts⟩
    refine hinner.seq (ihafter ha fun hor => ?_)
    rw [or_eq_true] at hor
    obtain hspent' | hbreaks := hor
    · apply (hspent hspent').step (move_false hheader)
      rw [assigns_exit hda]
      exact not_mem_nil
    · obtain ⟨h', a', rest, hloops, hspend⟩ := hbody.breaks hbreaks
      cases hloops
      exact hspend
  | @ret loops _ _ _ _ =>
    have hfirst : ({} : Flow).Realized env P x loops none := .empty
    exact hfirst.seq .empty
  | @brk loops h a _ _ hend =>
    have hfirst : ({ breaks := m } : Flow).Realized env P x ((h, a) :: loops) none :=
      ⟨nofun, nofun,
        fun hb => ⟨h, a, _, rfl, (hm hb).step (move_jump hend) not_mem_nil⟩, nofun, nofun⟩
    exact hfirst.seq .empty
  | @cont loops h a _ _ hend =>
    have hfirst : ({ continues := m } : Flow).Realized env P x ((h, a) :: loops) none :=
      ⟨nofun, nofun, nofun,
        fun hc => ⟨h, a, _, rfl, (hm hc).step (move_jump hend) not_mem_nil⟩, nofun⟩
    exact hfirst.seq .empty

end completeness

/-! ### Programs -/

/-- **Linear values along every path.**  In the graph of an accepted process every name is passed
as a linear argument at most once between two assignments to it, exactly if for no name the flow
of the body meets a use of the name while it may be spent. -/
theorem linear_use_iff_flow (env : Environment) (parameters : List String) (body : Body)
    (P : ProcessProgram) (h : constructProcess env parameters body = .ok P) :
    LinearUse env P.layout ↔ ∀ x, (env.processFlow x body).misuse = false := by
  obtain ⟨owned, fall, hlow⟩ := constructProcess_lowered h
  have hstart : Reached env P.layout (entryName, 0) := ⟨[], .start⟩
  constructor
  · intro hlinear x
    by_contra hmisuse
    rw [Bool.not_eq_false] at hmisuse
    have hrestart := (hlow.region.realized hstart (m := false) (x := x) nofun).restarts
    have hmisused := (hlow.region.realized hstart hrestart).misuse hmisuse
    obtain ⟨p, ts, hpath, hnot⟩ := hmisused.path
    exact hnot (hlinear entryName p ts hpath x)
  · intro hflow b p ts hpath x
    have hentry : Fits env P.layout P.index x (env.flow x body false).restarts
        (env.flow x body false).restarts (entryName, 0) := by
      have hbounded : (env.processFlow x body).Bounded (env.flow x body false).restarts true true
          true := by
        refine ⟨hflow x, fun h => ?_, fun _ => rfl, fun _ => rfl, fun _ => rfl⟩
        by_contra hne
        rw [Bool.not_eq_true] at hne
        rw [processFlow, hne, hne] at h
        cases h
      exact .run hlow.region hbounded (.top hlow.returns)
    by_cases hb : b ∈ entryName :: owned
    · have hreached : Reached env P.layout (b, 0) := by
        obtain rfl | hb := mem_cons.mp hb
        · exact hstart
        · exact (hlow.region.reached hstart).1 b hb
      obtain ⟨ts₀, hpath₀⟩ := hreached
      exact (path_clean hentry (hpath₀.trans hpath)).1.right
    · have hnone : P.layout b = none := by
        cases hlayout : P.layout b with
        | none => rfl
        | some a => exact absurd (hlow.names.mem_iff.mp (P.mem_names_of_layout hlayout)) hb
      rw [(hpath.of_none hnone).2]
      exact Touch.atMostOnce_nil

/-- A registry with one operation that takes its first argument over. -/
def traceEnvironment : Environment where
  effects := { declarations := [
    { operation := "trace_next", kind := .trace, linearArguments := [0] }] }

/-- `trace_next(r); r = s; trace_next(r)`. -/
def reassigned : Body :=
  .simple (callStatement "trace_next" "r") (.simple (.assign [.name "r"] (some (.operand (.name "s"))))
    (.simple (callStatement "trace_next" "r") .nil))

theorem reassigned_linear :
    ∃ P, constructProcess traceEnvironment ["r", "s"] reassigned = .ok P ∧
      LinearUse traceEnvironment P.layout := by
  refine ⟨_, rfl, (linear_use_iff_flow traceEnvironment ["r", "s"] reassigned _ rfl).mpr ?_⟩
  have huse : traceEnvironment.meaning (callStatement "trace_next" "r")
    = some (.action ⟨.effect "trace_next", ["r"], [], some .trace⟩) := rfl
  have hassign : traceEnvironment.meaning (.assign [.name "r"] (some (.operand (.name "s"))))
    = some (.action ⟨.assign, ["s"], ["r"], none⟩) := rfl
  have hnames : traceEnvironment.linearNames "trace_next" ["r"] = ["r"] := rfl
  intro x
  simp [processFlow, reassigned, flow, simpleFlow, huse, hassign,
    actionUses, hnames, Flow.seq, touched]

/-- `for i in range(3): trace_next(r)`. -/
def repeatedUse : Body :=
  .forLoop (.name "i") (.call { func := .name "range", args := [.int 3] })
    (.simple (callStatement "trace_next" "r") .nil) .nil .nil

def repeatedProgram : ProcessProgram where
  entry := entryName
  blocks := [
    ⟨entryName, [], .jump ⟨.forLoop, 1⟩⟩,
    ⟨⟨.forLoop, 1⟩, [], .branch (.next "i" "range(3)") ⟨.forBody, 1⟩ ⟨.afterFor, 1⟩⟩,
    ⟨⟨.forBody, 1⟩, [⟨.effect "trace_next", ["r"], [], some .trace⟩], .jump ⟨.forLoop, 1⟩⟩,
    ⟨⟨.afterFor, 1⟩, [], .ret⟩]
  effects := [⟨"trace_next", .trace⟩]

/-- The second iteration passes the name again. -/
theorem repeatedUse_not_linear :
    constructProcess traceEnvironment ["r"] repeatedUse = .ok repeatedProgram ∧
      ¬ LinearUse traceEnvironment repeatedProgram.layout := by
  refine ⟨rfl, fun h => ?_⟩
  have henter : Moves traceEnvironment repeatedProgram.layout (entryName, 0) [] []
    (⟨.forLoop, 1⟩, 0) := .follow (e := .jump ⟨.forLoop, 1⟩) ⟨[], rfl, rfl⟩ mem_cons_self
  have hbody : Moves traceEnvironment repeatedProgram.layout (⟨.forLoop, 1⟩, 0) [] ["i"]
    (⟨.forBody, 1⟩, 0) :=
    .follow (e := .branch (.next "i" "range(3)") ⟨.forBody, 1⟩ ⟨.afterFor, 1⟩) ⟨[], rfl, rfl⟩
      mem_cons_self
  have huse : Moves traceEnvironment repeatedProgram.layout (⟨.forBody, 1⟩, 0) ["r"] []
    (⟨.forBody, 1⟩, 1) :=
    .act (a := ⟨.effect "trace_next", ["r"], [], some .trace⟩) ⟨_, _, rfl, rfl⟩
  have hback : Moves traceEnvironment repeatedProgram.layout (⟨.forBody, 1⟩, 1) [] []
    (⟨.forLoop, 1⟩, 0) := .follow (e := .jump ⟨.forLoop, 1⟩) ⟨_, rfl, rfl⟩ mem_cons_self
  have hpath := ((((((Path.start (s := (entryName, 0))).step henter).step hbody).step huse).step
    hback).step hbody).step huse
  have hmem := h entryName _ _ hpath "r" [.assign "i"] [.assign "i"] [] rfl
  simp at hmem

end AgenticCircuit.Frontend
