import Mathlib.Algebra.Order.BigOperators.Group.Finset
import AgenticCircuit.Lib.Graph

/-! # Depth-first search with an explicit stack

The nodes are the numbers below `n` and `edges v` lists the successors of `v`.  A node is white until
it is pushed, grey while it is on the stack and black once it is popped.  A grey successor closes a
cycle and ends the search; a search that ends without one has found the graph acyclic
(`acyclic_of_search`). -/

namespace AgenticCircuit.DepthFirst

open List Function
open AgenticCircuit.Graph
open Relation (TransGen)

/-! ### Executable definitions -/

inductive Color where
  | white
  | grey
  | black
  deriving DecidableEq

/-- A node of the stack with the position of its next successor. -/
structure Frame where
  node : ℕ
  next : ℕ

/-- The colours, the place of each grey node counted from the bottom, and the stack, top first. -/
structure Search where
  color : ℕ → Color
  activePosition : ℕ → Option ℕ
  stack : List Frame

def Search.start : Search := ⟨fun _ => .white, fun _ => none, []⟩

def Search.push (s : Search) (v : ℕ) : Search :=
  ⟨update s.color v .grey, update s.activePosition v (some s.stack.length),
    ⟨v, 0⟩ :: s.stack⟩

/-- The nodes of the stack from `v` to the top, and `v` again. -/
def Search.cycle (s : Search) (v : ℕ) : List ℕ :=
  (s.stack.reverse.drop ((s.activePosition v).getD 0)).map Frame.node ++ [v]

variable (edges : ℕ → List ℕ)

/-- One turn of the loop, for the frame on top of the stack. -/
def step (s : Search) (frame : Frame) (rest : List Frame) : Except (List ℕ) Search :=
  match (edges frame.node)[frame.next]? with
  | none => .ok ⟨update s.color frame.node .black,
      update s.activePosition frame.node none, rest⟩
  | some successor =>
    let s := { s with stack := ⟨frame.node, frame.next + 1⟩ :: rest }
    match s.color successor with
    | .white => .ok (s.push successor)
    | .black => .ok s
    | .grey => .error (s.cycle successor)

/-- The loop runs until the stack is empty; `budget` bounds the number of turns. -/
def explore : ℕ → Search → Except (List ℕ) Search
  | 0, s => .ok s
  | budget + 1, s =>
    match s.stack with
    | [] => .ok s
    | frame :: rest => do
        let s ← step edges s frame rest
        explore budget s

/-- Every node is pushed and every edge is looked at once. -/
def budget (n : ℕ) : ℕ := ∑ v ∈ Finset.range n, ((edges v).length + 1)

/-- The search from one node. -/
def visit (n : ℕ) (s : Search) (v : ℕ) : Except (List ℕ) Search :=
  if s.color v = .white then explore edges (budget edges n) (s.push v) else .ok s

/-- The search from every node in turn; the error is a cycle. -/
def search (n : ℕ) : Except (List ℕ) Search := (List.range n).foldlM (visit edges n) .start

/-! ### What the search keeps -/

variable {edges}

/-- `w` is a successor of `v`. -/
def Edge (edges : ℕ → List ℕ) (v w : ℕ) : Prop := w ∈ edges v

/-- Each frame has only black successors before its next one, except the node `above` it. -/
def Waits (edges : ℕ → List ℕ) (color : ℕ → Color) : Option ℕ → List Frame → Prop
  | _, [] => True
  | above, frame :: rest =>
    (∀ w ∈ (edges frame.node).take frame.next, color w = .black ∨ above = some w) ∧
    Waits edges color (some frame.node) rest

theorem Waits.mono {color color' : ℕ → Color} (hle : ∀ w, color w = .black → color' w = .black) :
    ∀ {above : Option ℕ} {stack : List Frame}, Waits edges color above stack →
      Waits edges color' above stack
  | _, [], _ => trivial
  | _, _ :: _, h => ⟨fun w hw => (h.1 w hw).imp (hle w) id, h.2.mono hle⟩

/-- Once the node above has become black, nothing is above. -/
theorem Waits.done {color : ℕ → Color} {v : ℕ} {stack : List Frame} (hv : color v = .black)
    (h : Waits edges color (some v) stack) : Waits edges color none stack := by
  cases stack with
  | nil => trivial
  | cons frame rest =>
    refine ⟨fun w hw => .inl ?_, h.2⟩
    obtain hw | hw := h.1 w hw
    · exact hw
    · rw [← Option.some.inj hw]
      exact hv

/-- What holds at each turn, while the top frame has just reached the node `above`, if any. -/
structure Inv (edges : ℕ → List ℕ) (n : ℕ) (above : Option ℕ) (s : Search) : Prop where
  grey : ∀ v, s.color v = .grey ↔ v ∈ s.stack.map Frame.node
  nodup : (s.stack.map Frame.node).Nodup
  lt : ∀ v ∈ s.stack.map Frame.node, v < n
  closed : ∀ v, s.color v = .black → ∀ w ∈ edges v, s.color w = .black
  acyclic : Acyclic (On (Edge edges) {v | s.color v = .black})
  waits : Waits edges s.color above s.stack

theorem Inv.start (n : ℕ) : Inv edges n none .start where
  grey v := by simp [Search.start]
  nodup := by simp [Search.start]
  lt := by simp [Search.start]
  closed v hv := by simp [Search.start] at hv
  acyclic := acyclic_of_no_step fun v w h => by simp [Search.start, On] at h
  waits := trivial

section moves

variable {n : ℕ} {s : Search} {v : ℕ} {frame : Frame} {rest : List Frame}

theorem Inv.advance (h : Inv edges n none s) (hs : s.stack = frame :: rest)
    (hv : (edges frame.node)[frame.next]? = some v) :
    Inv edges n (some v) { s with stack := ⟨frame.node, frame.next + 1⟩ :: rest } := by
  have hwaits := h.waits
  rw [hs] at hwaits
  refine ⟨?_, ?_, ?_, h.closed, h.acyclic, ?_, hwaits.2⟩
  · simpa [hs] using h.grey
  · simpa [hs] using h.nodup
  · simpa [hs] using h.lt
  · intro w hmem
    rw [take_add_one, hv] at hmem
    obtain hmem | hmem := mem_append.mp hmem
    · exact .inl (by simpa using hwaits.1 w hmem)
    · exact .inr (by simpa [eq_comm] using hmem)

theorem Inv.settle (h : Inv edges n (some v) s) (hv : s.color v = .black) : Inv edges n none s :=
  { h with waits := h.waits.done hv }

theorem Inv.push (h : Inv edges n (some v) s) (hv : s.color v = .white) (hlt : v < n) :
    Inv edges n none (s.push v) := by
  have hstack : v ∉ s.stack.map Frame.node := fun hmem => by
    rw [← h.grey, hv] at hmem
    cases hmem
  have hblack : ∀ w, (s.push v).color w = .black ↔ s.color w = .black := by
    intro w
    by_cases hw : w = v
    · simp [Search.push, hw, hv]
    · simp [Search.push, hw]
  have hnodes : (s.push v).stack.map Frame.node = v :: s.stack.map Frame.node := rfl
  refine ⟨?_, ?_, ?_, ?_, ?_, ?_⟩
  · intro w
    by_cases hw : w = v
    · simp [Search.push, hw]
    · rw [hnodes, mem_cons, ← h.grey w]
      simp [Search.push, hw]
  · rw [hnodes]
    exact nodup_cons.mpr ⟨hstack, h.nodup⟩
  · intro w hw
    rw [hnodes, mem_cons] at hw
    obtain rfl | hw := hw
    · exact hlt
    · exact h.lt w hw
  · intro w hw x hx
    exact (hblack x).mpr (h.closed w ((hblack w).mp hw) x hx)
  · simpa only [hblack] using h.acyclic
  · exact ⟨by simp, h.waits.mono fun w hw => (hblack w).mpr hw⟩

/-- A frame without further successors is popped. -/
theorem Inv.pop (h : Inv edges n none s) (hs : s.stack = frame :: rest)
    (hend : (edges frame.node)[frame.next]? = none) :
    Inv edges n none ⟨update s.color frame.node .black,
      update s.activePosition frame.node none, rest⟩ := by
  have hwaits := h.waits
  have hnodup := h.nodup
  have hgrey : s.color frame.node = .grey := (h.grey _).mpr (by simp [hs])
  rw [hs] at hwaits hnodup
  rw [map_cons, nodup_cons] at hnodup
  have hsucc : ∀ w ∈ edges frame.node, s.color w = .black := by
    intro w hw
    rw [← take_of_length_le (List.getElem?_eq_none_iff.mp hend)] at hw
    simpa using hwaits.1 w hw
  have hblack : ∀ w, update s.color frame.node .black w = .black ↔
      w = frame.node ∨ s.color w = .black := by
    intro w
    by_cases hw : w = frame.node <;> simp [hw]
  refine ⟨?_, hnodup.2, ?_, ?_, ?_, ?_⟩
  · intro w
    by_cases hw : w = frame.node
    · simpa [hw] using hnodup.1
    · have := h.grey w
      rw [hs, map_cons, mem_cons] at this
      simpa [hw] using this
  · intro w hw
    exact h.lt w (by simpa [hs] using .inr (by simpa using hw))
  · intro w hw x hx
    rw [hblack] at hw ⊢
    obtain rfl | hw := hw
    · exact .inr (hsucc x hx)
    · exact .inr (h.closed w hw x hx)
  · have hset : {w | update s.color frame.node .black w = .black} =
        {frame.node} ∪ {w | s.color w = .black} := by
      ext w
      exact hblack w
    rw [hset]
    refine acyclic_on_union (acyclic_on_singleton ?_) h.acyclic ?_
    · intro hloop
      rw [hsucc _ hloop] at hgrey
      cases hgrey
    · rintro w hw x rfl hwx
      rw [h.closed w hw _ hwx] at hgrey
      cases hgrey
  · refine (hwaits.2.mono ?_).done ?_
    · exact fun w hw => (hblack w).mpr (.inr hw)
    · exact (hblack _).mpr (.inl rfl)

end moves

/-! ### The search ends -/

/-- The turns left: every white node and every successor not looked at. -/
def turns (edges : ℕ → List ℕ) (n : ℕ) (s : Search) : ℕ :=
  (∑ v ∈ Finset.range n, if s.color v = .white then (edges v).length + 1 else 0) +
    (s.stack.map fun frame => (edges frame.node).length - frame.next + 1).sum

section turns

variable {n : ℕ} {s : Search} {v : ℕ}

theorem turns_push (hv : s.color v = .white) (hlt : v < n) :
    turns edges n (s.push v) = turns edges n s := by
  have hother : ∀ w ∈ (Finset.range n).erase v,
      (if (s.push v).color w = .white then (edges w).length + 1 else 0) =
        if s.color w = .white then (edges w).length + 1 else 0 := by
    intro w hw
    simp [Search.push, Finset.ne_of_mem_erase hw]
  have hmem := Finset.mem_range.mpr hlt
  unfold turns
  rw [← Finset.add_sum_erase _ _ hmem, ← Finset.add_sum_erase (Finset.range n) _ hmem,
    Finset.sum_congr rfl hother]
  simp only [Search.push, update_self, reduceCtorEq, if_false, hv, if_true, map_cons, sum_cons]
  omega

theorem turns_le_budget (hs : s.stack = []) : turns edges n s ≤ budget edges n := by
  unfold turns budget
  rw [hs, map_nil, sum_nil, Nat.add_zero]
  refine Finset.sum_le_sum fun v _ => ?_
  split <;> omega

theorem stack_nil_of_turns (h : turns edges n s = 0) : s.stack = [] := by
  cases hs : s.stack with
  | nil => rfl
  | cons frame rest =>
    rw [turns, hs, map_cons, sum_cons] at h
    omega

end turns

section runs

variable {n : ℕ} (hedges : ∀ v, ∀ w ∈ edges v, w < n)
include hedges

variable {s s' : Search}

theorem step_inv {frame : Frame} {rest : List Frame} (h : Inv edges n none s)
    (hs : s.stack = frame :: rest) (hstep : step edges s frame rest = .ok s') :
    Inv edges n none s' ∧ turns edges n s' + 1 = turns edges n s ∧
      ∀ v, s'.color v = .white → s.color v = .white := by
  unfold step at hstep
  split at hstep
  case h_1 hend =>
    cases hstep
    have hgrey : s.color frame.node = .grey := (h.grey _).mpr (by simp [hs])
    have hwhite : ∀ v, update s.color frame.node .black v = .white ↔ s.color v = .white := by
      intro v
      by_cases hv : v = frame.node <;> simp [hv, hgrey]
    refine ⟨h.pop hs hend, ?_, fun v => (hwhite v).mp⟩
    have hlength := List.getElem?_eq_none_iff.mp hend
    simp only [turns, hs, hwhite, map_cons, sum_cons]
    omega
  case h_2 w hw =>
    have hlt := (List.getElem?_eq_some_iff.mp hw).1
    have hturns : turns edges n { s with stack := ⟨frame.node, frame.next + 1⟩ :: rest } + 1 =
        turns edges n s := by
      simp only [turns, hs, map_cons, sum_cons]
      omega
    have hinv := h.advance hs hw
    cases hcolor : s.color w with
    | white =>
      simp only [hcolor, Except.ok.injEq] at hstep
      subst hstep
      have hwn := hedges _ w (mem_of_getElem? hw)
      refine ⟨hinv.push hcolor hwn, ?_, ?_⟩
      · rw [turns_push (s := { s with stack := ⟨frame.node, frame.next + 1⟩ :: rest }) hcolor
          hwn, hturns]
      · intro v hv
        by_cases hvw : v = w
        · rw [hvw, hcolor]
        · simpa [Search.push, hvw] using hv
    | black =>
      simp only [hcolor, Except.ok.injEq] at hstep
      subst hstep
      exact ⟨hinv.settle hcolor, hturns, fun v hv => hv⟩
    | grey => simp [hcolor] at hstep

theorem explore_inv {budget : ℕ} (h : Inv edges n none s) (hbudget : turns edges n s ≤ budget)
    (hrun : explore edges budget s = .ok s') :
    Inv edges n none s' ∧ s'.stack = [] ∧ ∀ v, s'.color v = .white → s.color v = .white := by
  induction budget generalizing s with
  | zero =>
    cases hrun
    exact ⟨h, stack_nil_of_turns (Nat.le_zero.mp hbudget), fun v hv => hv⟩
  | succ budget ih =>
    unfold explore at hrun
    split at hrun
    case h_1 hs =>
      cases hrun
      exact ⟨h, hs, fun v hv => hv⟩
    case h_2 frame rest hs =>
      cases hstep : step edges s frame rest with
      | error cycle => simp [hstep, bind, Except.bind] at hrun
      | ok s₁ =>
        simp only [hstep] at hrun
        obtain ⟨h₁, hturns, hwhite⟩ := step_inv hedges h hs hstep
        obtain ⟨h', hempty, hwhite'⟩ := ih h₁ (by omega) hrun
        exact ⟨h', hempty, fun v hv => hwhite v (hwhite' v hv)⟩

/-- The search from one node keeps the invariant and leaves the node black. -/
theorem visit_inv {v : ℕ} (hv : v < n) (h : Inv edges n none s) (hs : s.stack = [])
    (hrun : visit edges n s v = .ok s') :
    Inv edges n none s' ∧ s'.stack = [] ∧ s'.color v ≠ .white ∧
      ∀ w, s'.color w = .white → s.color w = .white := by
  unfold visit at hrun
  split at hrun
  case isTrue hwhite =>
    have hpush : Inv edges n (some v) s := { h with waits := by rw [hs]; trivial }
    have hbudget : turns edges n (s.push v) ≤ budget edges n := by
      rw [turns_push hwhite hv]
      exact turns_le_budget hs
    obtain ⟨h', hempty, hle⟩ := explore_inv hedges (hpush.push hwhite hv) hbudget hrun
    refine ⟨h', hempty, fun hvw => ?_, fun w hw => ?_⟩
    · simpa [Search.push] using hle v hvw
    · by_cases hwv : w = v
      · rw [hwv, hwhite]
      · simpa [Search.push, hwv] using hle w hw
  case isFalse hwhite =>
    cases hrun
    exact ⟨h, hs, hwhite, fun w hw => hw⟩

theorem visits_inv {starts : List ℕ} (hlt : ∀ v ∈ starts, v < n) (h : Inv edges n none s)
    (hs : s.stack = []) (hrun : starts.foldlM (visit edges n) s = .ok s') :
    Inv edges n none s' ∧ s'.stack = [] ∧ (∀ v ∈ starts, s'.color v ≠ .white) ∧
      ∀ w, s'.color w = .white → s.color w = .white := by
  induction starts generalizing s with
  | nil =>
    cases hrun
    exact ⟨h, hs, by simp, fun w hw => hw⟩
  | cons v starts ih =>
    rw [foldlM_cons] at hrun
    cases hvisit : visit edges n s v with
    | error cycle => simp [hvisit, bind, Except.bind] at hrun
    | ok s₁ =>
      simp only [hvisit] at hrun
      obtain ⟨h₁, hs₁, hv, hwhite⟩ := visit_inv hedges (hlt v (by simp)) h hs hvisit
      obtain ⟨h', hs', hstarts, hwhite'⟩ :=
        ih (fun w hw => hlt w (mem_cons_of_mem v hw)) h₁ hs₁ hrun
      refine ⟨h', hs', ?_, fun w hw => hwhite w (hwhite' w hw)⟩
      intro w hw
      obtain rfl | hw := mem_cons.mp hw
      · exact fun hwhite => hv (hwhite' w hwhite)
      · exact hstarts w hw

/-- **A search that ends without a cycle has found the graph acyclic.** -/
theorem acyclic_of_search (hrun : search edges n = .ok s) :
    Acyclic (On (Edge edges) {v | v < n}) := by
  obtain ⟨h, hs, hwhite, -⟩ :=
    visits_inv hedges (fun v hv => mem_range.mp hv) (Inv.start n) rfl hrun
  refine h.acyclic.on_mono ?_ fun v _ w _ hvw => hvw
  intro v hv
  have hgrey := h.grey v
  rw [hs] at hgrey
  cases hcolor : s.color v with
  | white => exact absurd hcolor (hwhite v (mem_range.mpr hv))
  | grey => simp [hcolor] at hgrey
  | black => exact hcolor

end runs

end AgenticCircuit.DepthFirst
