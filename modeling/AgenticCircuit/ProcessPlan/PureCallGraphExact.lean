import AgenticCircuit.Lib.Checks
import AgenticCircuit.ProcessPlan.PureCallGraph
import Mathlib.Algebra.Order.BigOperators.Group.List
import Mathlib.Data.List.Chain

/-! # The pure functions that processes reach

The search keeps `SearchInv`: the functions of the graph are closed under calls, each after those it
calls, and the stack is a chain of calls to functions that are not in the graph.  So a search that ends
has found what is reached and that it has no cycle (`SearchInv.pureCalls`), and a turn fails only where
the model is not pure or not within the limits (`turn_ok`).  `validate_exact` puts the two together with
the binary search. -/

namespace AgenticCircuit.ProcessPlan.PureCallGraph

open List Checks
open Relation (TransGen)

/-! ### Effects -/

variable (ops : List Operation)

theorem trees_append (ops' : List Operation) : trees (ops ++ ops') = trees ops ++ trees ops' := by
  induction ops with
  | nil => rfl
  | cons op ops ih => rw [cons_append, trees, trees, ih, append_assoc]

theorem tree_eq (op : Operation) : op.tree = op :: trees (children op) := by
  cases op <;> simp [Operation.tree, children, trees, trees_append]

theorem trees_eq_flatMap : trees ops = ops.flatMap Operation.tree := by
  induction ops with
  | nil => rfl
  | cons op ops ih => rw [trees, ih, flatMap_cons]

/-- The operations that a list of tasks still looks at. -/
def remaining (tasks : List EffectTask) : List Operation :=
  tasks.flatMap fun task => if task.expanded then [task.operation] else task.operation.tree

/-- The turns that a list of tasks takes. -/
def turns (tasks : List EffectTask) : ℕ :=
  (tasks.map fun task => if task.expanded then 1 else 2 * task.operation.tree.length).sum

theorem remaining_new : remaining (ops.map (⟨·, false⟩)) = trees ops := by
  rw [remaining, trees_eq_flatMap, flatMap_map]
  rfl

theorem turns_new : turns (ops.map (⟨·, false⟩)) = 2 * (trees ops).length := by
  unfold turns
  rw [map_map]
  induction ops with
  | nil => rfl
  | cons op ops ih =>
    rw [map_cons, sum_cons, ih, trees, length_append]
    simp only [Function.comp_apply, Bool.false_eq_true, ↓reduceIte]
    omega

theorem perm_trees_reverse : (trees ops.reverse).Perm (trees ops) := by
  rw [trees_eq_flatMap, trees_eq_flatMap]
  exact (reverse_perm ops).flatMap_right _

/-- The calls among some operations. -/
def callsOf (ops : List Operation) : List Call :=
  ops.filterMap fun
    | .call call => some call
    | _ => none

/-- The loop ends with the calls of the remaining operations exactly when these have no effects. -/
theorem effectsLoop_spec {budget : ℕ} {tasks : List EffectTask} (found : List Call)
    (h : turns tasks ≤ budget) :
    (∃ result, effectsLoop budget tasks found = .ok result ∧
        result.Perm (found ++ callsOf (remaining tasks)) ∧
        ∀ op ∈ remaining tasks, localEffectFree op = true) ∨
      ((∃ e, effectsLoop budget tasks found = .error e) ∧
        ∃ op ∈ remaining tasks, localEffectFree op = false) := by
  induction budget generalizing tasks found with
  | zero =>
    cases tasks with
    | nil => exact .inl ⟨found, by simp [effectsLoop], by simp [remaining, callsOf], by simp [remaining]⟩
    | cons task tasks =>
      obtain ⟨op, expanded⟩ := task
      cases expanded <;> simp [turns, tree_eq] at h
  | succ budget ih =>
    rcases tasks with _ | ⟨⟨op, _ | _⟩, tasks⟩
    · exact .inl ⟨found, by simp [effectsLoop], by simp [remaining, callsOf], by simp [remaining]⟩
    · have hperm : (remaining ((children op).reverse.map (⟨·, false⟩) ++ ⟨op, true⟩ :: tasks)).Perm
          (remaining (⟨op, false⟩ :: tasks)) := by
        simp only [remaining, flatMap_append, flatMap_cons]
        rw [← append_assoc, tree_eq]
        refine Perm.append_right _ ?_
        refine (perm_append_singleton _ _).trans (Perm.cons _ ?_)
        exact (Perm.of_eq (remaining_new _)).trans (perm_trees_reverse _)
      have hturns : turns ((children op).reverse.map (⟨·, false⟩) ++ ⟨op, true⟩ :: tasks) ≤ budget := by
        have hnew := turns_new (children op).reverse
        have hlength := (perm_trees_reverse (children op)).length_eq
        simp only [turns, map_append, map_cons, sum_append, sum_cons, ↓reduceIte,
          Bool.false_eq_true, tree_eq, length_cons] at h hnew ⊢
        omega
      rw [effectsLoop]
      rcases ih found hturns with ⟨result, hrun, hresult, hfree⟩ | ⟨herror, op', hop', hbad⟩
      · refine .inl ⟨result, hrun, hresult.trans ?_, fun op' hop' => hfree op' (hperm.mem_iff.2 hop')⟩
        exact (hperm.filterMap _).append_left found
      · exact .inr ⟨herror, op', hperm.mem_iff.1 hop', hbad⟩
    · have hturns : turns tasks ≤ budget := by
        simp only [turns, map_cons, sum_cons, ↓reduceIte] at h ⊢
        omega
      have hremaining : remaining (⟨op, true⟩ :: tasks) = op :: remaining tasks := rfl
      rw [hremaining]
      by_cases hcall : ∃ call, op = .call call
      · obtain ⟨call, rfl⟩ := hcall
        rw [effectsLoop]
        rcases ih (found ++ [call]) hturns with ⟨result, hrun, hresult, hfree⟩ | ⟨herror, hbad⟩
        · refine .inl ⟨result, hrun, ?_, forall_mem_cons.2 ⟨rfl, hfree⟩⟩
          rwa [append_assoc, singleton_append] at hresult
        · obtain ⟨op', hop', hbad⟩ := hbad
          exact .inr ⟨herror, op', mem_cons_of_mem _ hop', hbad⟩
      · have hcalls : callsOf (op :: remaining tasks) = callsOf (remaining tasks) := by
          cases op <;> first | rfl | exact absurd ⟨_, rfl⟩ hcall
        have hloop : effectsLoop (budget + 1) (⟨op, true⟩ :: tasks) found =
            if localEffectFree op then effectsLoop budget tasks found
            else .error "function reachable from ac.process is not effect-free" := by
          cases op <;> first | rfl | exact absurd ⟨_, rfl⟩ hcall
        rw [hloop, hcalls]
        cases hop : localEffectFree op with
        | false => exact .inr ⟨⟨_, rfl⟩, op, mem_cons_self, hop⟩
        | true =>
          rw [if_pos rfl]
          rcases ih found hturns with ⟨result, hrun, hresult, hfree⟩ | ⟨herror, hbad⟩
          · exact .inl ⟨result, hrun, hresult, forall_mem_cons.2 ⟨hop, hfree⟩⟩
          · obtain ⟨op', hop', hbad⟩ := hbad
            exact .inr ⟨herror, op', mem_cons_of_mem _ hop', hbad⟩

theorem verifyFunctionEffects_ok {f : Function} {result : List Call}
    (h : verifyFunctionEffectsIterative f = .ok result) :
    result.Perm (calls f.body) ∧ ∀ op ∈ trees f.body, localEffectFree op = true := by
  obtain ⟨found, hfound, hresult⟩ := bind_ok.1 h
  cases hresult
  have hperm := perm_trees_reverse f.body
  have hturns : turns (f.body.reverse.map (⟨·, false⟩)) ≤ 2 * (trees f.body).length := by
    rw [turns_new, hperm.length_eq]
  rcases effectsLoop_spec [] hturns with ⟨found', hfound', hcalls, hfree⟩ | ⟨⟨e, herror⟩, -⟩
  · obtain rfl := Except.ok.inj (hfound.symm.trans hfound')
    rw [remaining_new] at hcalls hfree
    refine ⟨(perm_insertionSort _ _).trans (hcalls.trans (hperm.filterMap _)), fun op hop => ?_⟩
    exact hfree op (hperm.mem_iff.2 hop)
  · rw [herror] at hfound
    cases hfound

theorem exists_verifyFunctionEffects {f : Function}
    (h : ∀ op ∈ trees f.body, localEffectFree op = true) :
    ∃ result, verifyFunctionEffectsIterative f = .ok result := by
  have hperm := perm_trees_reverse f.body
  have hturns : turns (f.body.reverse.map (⟨·, false⟩)) ≤ 2 * (trees f.body).length := by
    rw [turns_new, hperm.length_eq]
  rcases effectsLoop_spec [] hturns with ⟨found, hfound, -⟩ | ⟨-, op, hop, hbad⟩
  · exact ⟨_, bind_ok.2 ⟨found, hfound, rfl⟩⟩
  · rw [remaining_new] at hop
    exact absurd (h op (hperm.mem_iff.1 hop)) (by simp [hbad])

/-! ### What the search keeps -/

variable {file : File} {model : Model} {limits : RawModelStructureLimits}
  {callLimits : PureCallGraphLimits} {s s' : Search} {name : String}

section search

variable {above : Option String} {f : Function} {rest : List Frame} {frame : Frame}

/-- What a function must satisfy to be entered. -/
structure Accepted (file : File) (limits : RawModelStructureLimits) (f : Function) : Prop where
  found : file.lookup f.name = some f
  reached : Reached file f.name
  body : f.body ≠ []
  lowerable : file.verifyProcessLowerability limits 0 f.body = true
  effectFree : ∀ op ∈ trees f.body, localEffectFree op = true

/-- A frame that has been entered has followed its calls up to `nextCall`; the last of them may be the
frame `above`. -/
structure Waits (file : File) (limits : RawModelStructureLimits) (s : Search) (above : Option String)
    (frame : Frame) : Prop where
  accepted : Accepted file limits frame.function
  indexed : (s.indexedCalls frame.name).Perm (calls frame.function.body)
  le : frame.nextCall ≤ (s.indexedCalls frame.name).length
  followed : ∀ call ∈ (s.indexedCalls frame.name).take frame.nextCall,
    s.states call.callee = .pure ∨ above = some call.callee
  above_mem : ∀ name ∈ above, ∃ call ∈ calls frame.function.body, call.callee = name

/-- The frames below the top have been entered. -/
def Stacked (file : File) (limits : RawModelStructureLimits) (s : Search) :
    Option String → List Frame → Prop
  | _, [] => True
  | above, frame :: rest =>
    frame.entered = true ∧ Waits file limits s above frame ∧ Stacked file limits s (some frame.name) rest

/-- The functions of the graph, each after those it calls. -/
structure Listed (file : File) (limits : RawModelStructureLimits) (s : Search) : Prop where
  pure_iff : ∀ name, s.states name = .pure ↔ name ∈ s.functions.map ValidatedPureFunction.name
  nodup : (s.functions.map ValidatedPureFunction.name).Nodup
  accepted : ∀ e ∈ s.functions, Accepted file limits e.function ∧ e.calls.Perm (calls e.function.body)
  ordered : ∀ before e after, s.functions = before ++ e :: after →
    ∀ call ∈ calls e.function.body, call.callee ∈ before.map ValidatedPureFunction.name

/-- What holds between two turns when the frames of the stack are below `above`. -/
structure SearchInv (file : File) (limits : RawModelStructureLimits) (above : Option String)
    (s : Search) : Prop where
  listed : Listed file limits s
  nodup : (s.stack.map Frame.name).Nodup
  active_iff : ∀ name, s.states name = .active ↔ name ∈ s.stack.map Frame.name
  stacked : Stacked file limits s above s.stack
  edges_eq : s.edges = (s.functions.map fun e => e.calls.length).sum +
    (s.stack.map Frame.nextCall).sum

theorem Stacked.mono {s' : Search} : ∀ {above : Option String} {stack : List Frame},
    Stacked file limits s above stack →
      (∀ frame ∈ stack, s'.indexedCalls frame.name = s.indexedCalls frame.name) →
      (∀ name, s.states name = .pure → s'.states name = .pure) →
      Stacked file limits s' above stack
  | _, [], _, _, _ => trivial
  | _, frame :: rest, h, hindexed, hpure => by
    obtain ⟨hentered, hwaits, hrest⟩ := h
    have hcalls := hindexed frame mem_cons_self
    refine ⟨hentered, ⟨hwaits.accepted, hcalls ▸ hwaits.indexed, hcalls ▸ hwaits.le, ?_,
      hwaits.above_mem⟩, hrest.mono (fun frame hframe => hindexed frame (mem_cons_of_mem _ hframe))
        hpure⟩
    rw [hcalls]
    exact fun call hcall => (hwaits.followed call hcall).imp_left (hpure _)

/-- Nothing is above once the name above is in the graph. -/
theorem Stacked.settle (hname : s.states name = .pure) :
    ∀ {stack : List Frame}, Stacked file limits s (some name) stack →
      Stacked file limits s none stack
  | [], _ => trivial
  | frame :: rest, h => by
    obtain ⟨hentered, hwaits, hrest⟩ := h
    refine ⟨hentered, { hwaits with followed := fun call hcall => .inl ?_, above_mem := by simp }, hrest⟩
    rcases hwaits.followed call hcall with hpure | habove
    · exact hpure
    · rw [← Option.some.inj habove]
      exact hname

theorem SearchInv.settle (h : SearchInv file limits (some name) s) (hname : s.states name = .pure) :
    SearchInv file limits none s :=
  { h with stacked := h.stacked.settle hname }

theorem Listed.congr (h : Listed file limits s) (hfunctions : s'.functions = s.functions)
    (hpure : ∀ name, s'.states name = .pure ↔ s.states name = .pure) : Listed file limits s' where
  pure_iff name := by rw [hpure, hfunctions, h.pure_iff]
  nodup := hfunctions ▸ h.nodup
  accepted := hfunctions ▸ h.accepted
  ordered := hfunctions ▸ h.ordered

/-- What entering a function checks and does. -/
theorem enter_ok (h : enter file limits callLimits s f = .ok s') :
    f.body ≠ [] ∧ file.verifyProcessLowerability limits 0 f.body = true ∧
      (∀ op ∈ trees f.body, localEffectFree op = true) ∧
      ∃ indexed : List Call, indexed.Perm (calls f.body) ∧
        s' = { s with
          indexedCalls := Function.update s.indexedCalls f.name indexed
          states := Function.update s.states f.name .active } := by
  unfold enter at h
  split_ifs at h with hbody hdepth hlowerable
  obtain ⟨indexed, hindexed, hrun⟩ := bind_ok.1 h
  obtain ⟨hperm, hfree⟩ := verifyFunctionEffects_ok hindexed
  exact ⟨hbody, by simpa using hlowerable, hfree, indexed, hperm, (Except.ok.inj hrun).symm⟩

theorem SearchInv.enter (h : SearchInv file limits (some f.name) { s with stack := rest })
    (hfound : file.lookup f.name = some f) (hreached : Reached file f.name)
    (hunvisited : s.states f.name = .unvisited)
    (hrun : PureCallGraph.enter file limits callLimits s f = .ok s') :
    SearchInv file limits none { s' with stack := ⟨f, 0, true⟩ :: rest } := by
  obtain ⟨hbody, hlowerable, hfree, indexed, hperm, rfl⟩ := enter_ok hrun
  have hnot : f.name ∉ rest.map Frame.name := fun hmem => by
    have hactive := (h.active_iff f.name).2 hmem
    rw [show s.states f.name = .active from hactive] at hunvisited
    cases hunvisited
  have hpure (name : String) :
      Function.update s.states f.name .active name = .pure ↔ s.states name = .pure := by
    rcases eq_or_ne name f.name with rfl | hne
    · simp [hunvisited]
    · rw [Function.update_of_ne hne]
  refine ⟨h.listed.congr rfl hpure, nodup_cons.2 ⟨hnot, h.nodup⟩, fun name => ?_, ⟨rfl, ?_, ?_⟩, ?_⟩
  · have hactive := h.active_iff name
    rcases eq_or_ne name f.name with rfl | hne
    · simp [Frame.name]
    · simpa [Frame.name, hne] using hactive
  · refine ⟨⟨hfound, hreached, hbody, hlowerable, hfree⟩, ?_, Nat.zero_le _, by simp, by simp⟩
    simpa [Frame.name] using hperm
  · refine h.stacked.mono (fun frame hframe => ?_) fun name hname => (hpure name).2 hname
    refine Function.update_of_ne (fun heq => hnot ?_) _ _
    exact heq ▸ mem_map_of_mem hframe
  · simpa using h.edges_eq

theorem SearchInv.follow {call : Call}
    (h : SearchInv file limits none { s with stack := frame :: rest })
    (hcall : (s.indexedCalls frame.name)[frame.nextCall]? = some call) :
    SearchInv file limits (some call.callee) { s with
      edges := s.edges + 1, stack := { frame with nextCall := frame.nextCall + 1 } :: rest } := by
  obtain ⟨hentered, hwaits, hrest⟩ := h.stacked
  have hlt : frame.nextCall < (s.indexedCalls frame.name).length :=
    (List.getElem?_eq_some_iff.1 hcall).1
  have hmem : call ∈ calls frame.function.body := hwaits.indexed.mem_iff.1 (mem_of_getElem? hcall)
  refine ⟨h.listed.congr rfl fun _ => Iff.rfl, h.nodup, h.active_iff, ⟨hentered, ?_, ?_⟩, ?_⟩
  · refine ⟨hwaits.accepted, hwaits.indexed, hlt, fun other hother => ?_, ?_⟩
    · change other ∈ (s.indexedCalls frame.name).take (frame.nextCall + 1) at hother
      rw [take_add_one, hcall, mem_append, Option.toList_some, mem_singleton] at hother
      rcases hother with hother | rfl
      · exact .inl ((hwaits.followed other hother).resolve_right (by simp))
      · exact .inr rfl
    · rintro name ⟨⟩
      exact ⟨call, hmem, rfl⟩
  · exact hrest.mono (fun _ _ => rfl) fun _ hname => hname
  · have hedges := h.edges_eq
    simp only [map_cons, sum_cons] at hedges ⊢
    omega

/-- The top frame has followed all its calls. -/
theorem SearchInv.pop (h : SearchInv file limits none { s with stack := frame :: rest })
    (hend : (s.indexedCalls frame.name)[frame.nextCall]? = none) :
    SearchInv file limits none { s with
      states := Function.update s.states frame.name .pure
      functions := s.functions ++ [⟨frame.function, s.indexedCalls frame.name⟩]
      stack := rest } := by
  obtain ⟨hentered, hwaits, hrest⟩ := h.stacked
  have hlength : frame.nextCall = (s.indexedCalls frame.name).length :=
    le_antisymm hwaits.le (getElem?_eq_none_iff.1 hend)
  have hfollowed : ∀ call ∈ s.indexedCalls frame.name, s.states call.callee = .pure := by
    intro call hcall
    refine (hwaits.followed call ?_).resolve_right (by simp)
    exact (take_of_length_le (le_of_eq hlength.symm)).symm ▸ hcall
  have hactive : s.states frame.name = .active := (h.active_iff frame.name).2 mem_cons_self
  have hnodup := nodup_cons.1 h.nodup
  have hnot : frame.name ∉ s.functions.map ValidatedPureFunction.name := fun hmem => by
    have hpure := (h.listed.pure_iff frame.name).2 hmem
    rw [show s.states frame.name = .pure from hpure] at hactive
    cases hactive
  refine ⟨⟨fun name => ?_, ?_, fun e he => ?_, fun before e after heq call hcall => ?_⟩, hnodup.2,
    fun name => ?_, ?_, ?_⟩
  · have hpure := h.listed.pure_iff name
    rcases eq_or_ne name frame.name with rfl | hne
    · simp [ValidatedPureFunction.name, Frame.name]
    · have hne' : ¬ name = frame.function.name := hne
      simpa [Function.update_of_ne hne, ValidatedPureFunction.name, hne'] using hpure
  · rw [map_append, nodup_append]
    refine ⟨h.listed.nodup, nodup_singleton _, fun a ha b hb => ?_⟩
    obtain rfl := mem_singleton.1 hb
    rintro rfl
    exact hnot ha
  · rcases mem_append.1 he with he | he
    · exact h.listed.accepted e he
    · obtain rfl := mem_singleton.1 he
      exact ⟨hwaits.accepted, hwaits.indexed⟩
  · rcases eq_nil_or_concat after with rfl | ⟨front, last, rfl⟩
    · have hparts := append_inj' heq rfl
      obtain rfl := singleton_inj.1 hparts.2
      obtain rfl := hparts.1
      refine (h.listed.pure_iff call.callee).1 (hfollowed call ?_)
      exact hwaits.indexed.mem_iff.2 hcall
    · have heq' : s.functions ++ [⟨frame.function, s.indexedCalls frame.name⟩] =
          (before ++ e :: front) ++ [last] :=
        heq.trans (by rw [concat_eq_append, append_assoc, cons_append])
      exact h.listed.ordered before e front (append_inj' heq' rfl).1 call hcall
  · have hstack := h.active_iff name
    rcases eq_or_ne name frame.name with rfl | hne
    · simpa using hnodup.1
    · simpa [hne] using hstack
  · have hstacked : Stacked file limits { s with
        states := Function.update s.states frame.name .pure
        functions := s.functions ++ [⟨frame.function, s.indexedCalls frame.name⟩]
        stack := rest } (some frame.name) rest := by
      refine hrest.mono (fun _ _ => rfl) fun name hname => ?_
      rcases eq_or_ne name frame.name with rfl | hne
      · simp
      · simpa [Function.update_of_ne hne] using hname
    exact hstacked.settle (Function.update_self ..)
  · have hedges := h.edges_eq
    simp only [map_cons, sum_cons, map_append, sum_append, map_nil, sum_nil] at hedges ⊢
    omega

/-! ### One turn -/

theorem lookup_spec (h : file.lookup name = some f) : f ∈ file.functions ∧ f.name = name := by
  unfold File.lookup at h
  have hname := find?_some h
  exact ⟨mem_of_find?_eq_some h, beq_iff_eq.1 hname⟩

/-- What holds between two turns: the top of the stack may still have to be entered. -/
def Ready (file : File) (limits : RawModelStructureLimits) (s : Search) : Prop :=
  SearchInv file limits none s ∨
    ∃ f rest, s.stack = ⟨f, 0, false⟩ :: rest ∧
      SearchInv file limits (some f.name) { s with stack := rest } ∧
      file.lookup f.name = some f ∧ Reached file f.name ∧ s.states f.name = .unvisited

/-- How far the search has come: pops and followed calls. -/
def Search.progress (s : Search) : ℕ := s.edges + s.functions.length

/-- A function leaves the stack for the graph. -/
structure Later (s s' : Search) : Prop where
  progress : s'.progress = s.progress + 1
  pure : ∀ name, s.states name = .pure → s'.states name = .pure
  stack : ∀ name ∈ s.stack.map Frame.name, s'.states name = .pure ∨ name ∈ s'.stack.map Frame.name

theorem advance_ready (h : SearchInv file limits none { s with stack := frame :: rest })
    (hrun : advance file callLimits s frame rest = .ok s') :
    Ready file limits s' ∧ Later { s with stack := frame :: rest } s' := by
  unfold advance at hrun
  dsimp only at hrun
  split at hrun
  case h_1 hend =>
    cases hrun
    refine ⟨.inl (h.pop hend), ?_, fun name hname => ?_, fun name hname => ?_⟩
    · simp only [Search.progress, length_append, length_singleton]
      omega
    · rcases eq_or_ne name frame.name with rfl | hne
      · simp
      · simpa [Function.update_of_ne hne] using hname
    · rcases mem_cons.1 hname with rfl | hname
      · exact .inl (Function.update_self ..)
      · exact .inr hname
  case h_2 call hcall =>
    have hfollow := h.follow hcall
    split at hrun
    · cases hrun
    split at hrun
    · cases hrun
    rename_i target htarget
    obtain ⟨-, hname⟩ := lookup_spec htarget
    have hprogress : s.edges + 1 + s.functions.length = s.edges + s.functions.length + 1 := by omega
    split at hrun
    · rename_i hpure
      cases hrun
      exact ⟨.inl (hfollow.settle (hname ▸ hpure)), hprogress, fun _ hpure => hpure,
        fun _ hmem => .inr hmem⟩
    · cases hrun
    · rename_i hunvisited
      cases hrun
      obtain ⟨-, hwaits, -⟩ := h.stacked
      have hmem : call ∈ calls frame.function.body :=
        hwaits.indexed.mem_iff.1 (mem_of_getElem? hcall)
      have hreached : Reached file call.callee :=
        hwaits.accepted.reached.call ⟨_, hwaits.accepted.found, call, hmem, rfl⟩
      refine ⟨.inr ⟨target, _, rfl, ?_, ?_, ?_, hunvisited⟩, hprogress, fun _ hpure => hpure,
        fun _ hmem => .inr (mem_cons_of_mem _ hmem)⟩
      · rw [hname]
        exact hfollow
      · rwa [hname]
      · rwa [hname]

/-- The top frame of a turn is entered, if it was not before. -/
theorem Ready.entered {s₁ : Search} (h : Ready file limits s) (hstack : s.stack = frame :: rest)
    (henter : (if frame.entered then .ok s else enter file limits callLimits s frame.function) =
      .ok s₁) :
    SearchInv file limits none { s₁ with stack := { frame with entered := true } :: rest } ∧
      s₁.progress = s.progress ∧ ∀ name, s.states name = .pure → s₁.states name = .pure := by
  rcases h with h | ⟨f, rest', hstack', h, hfound, hreached, hunvisited⟩
  · have hentered : frame.entered = true := by
      have hstacked := h.stacked
      rw [hstack] at hstacked
      exact hstacked.1
    rw [if_pos hentered] at henter
    cases henter
    have hframe : ({ frame with entered := true } : Frame) = frame := by
      rw [← hentered]
    refine ⟨?_, rfl, fun _ hname => hname⟩
    rw [hframe, ← hstack]
    exact h
  · obtain ⟨rfl, rfl⟩ := List.cons.inj (hstack.symm.trans hstack')
    rw [if_neg Bool.false_ne_true] at henter
    refine ⟨h.enter hfound hreached hunvisited henter, ?_⟩
    obtain ⟨-, -, -, indexed, -, rfl⟩ := enter_ok henter
    refine ⟨rfl, fun name hname => ?_⟩
    rcases eq_or_ne name f.name with rfl | hne
    · rw [hunvisited] at hname
      cases hname
    · exact (Function.update_of_ne hne ..).trans hname

theorem turn_ready (h : Ready file limits s) (hstack : s.stack = frame :: rest)
    (hrun : turn file limits callLimits s frame rest = .ok s') :
    Ready file limits s' ∧ Later s s' := by
  obtain ⟨s₁, henter, hadvance⟩ := bind_ok.1 hrun
  obtain ⟨hinv, hprogress, hpure⟩ := h.entered hstack henter
  obtain ⟨hready, hlater⟩ := advance_ready hinv hadvance
  refine ⟨hready, hlater.progress.trans (congrArg (· + 1) hprogress),
    fun name hname => hlater.pure name (hpure name hname), fun name hname => hlater.stack name ?_⟩
  rwa [hstack] at hname

/-! ### What has been seen -/

/-- The functions of the graph and of the stack. -/
def seen (s : Search) : List Function :=
  s.functions.map ValidatedPureFunction.function ++ s.stack.map Frame.function

theorem Stacked.accepted : ∀ {above : Option String} {stack : List Frame},
    Stacked file limits s above stack → ∀ frame ∈ stack, Accepted file limits frame.function ∧
      frame.nextCall ≤ (calls frame.function.body).length
  | _, [], _, _, hframe => absurd hframe not_mem_nil
  | _, frame :: rest, h, other, hother => by
    obtain ⟨-, hwaits, hrest⟩ := h
    rcases mem_cons.1 hother with rfl | hother
    · exact ⟨hwaits.accepted, hwaits.indexed.length_eq ▸ hwaits.le⟩
    · exact hrest.accepted other hother

theorem Stacked.transGen {s : Search} {above : String} : ∀ {stack : List Frame},
    Stacked file limits s (some above) stack → ∀ name ∈ stack.map Frame.name,
      TransGen (Calls file) name above
  | [], _, _, hname => absurd hname not_mem_nil
  | frame :: rest, h, name, hname => by
    obtain ⟨-, hwaits, hrest⟩ := h
    have hcalls : Calls file frame.name above :=
      ⟨_, hwaits.accepted.found, hwaits.above_mem above rfl⟩
    rcases mem_cons.1 hname with rfl | hname
    · exact .single hcalls
    · exact (hrest.transGen name hname).tail hcalls

theorem Stacked.isChain {s : Search} {above : String} : ∀ {stack : List Frame},
    Stacked file limits s (some above) stack →
      (above :: stack.map Frame.name).IsChain (flip (Calls file))
  | [], _ => .singleton _
  | _ :: _, h => by
    obtain ⟨-, hwaits, hrest⟩ := h
    exact .cons_cons ⟨_, hwaits.accepted.found, hwaits.above_mem above rfl⟩ hrest.isChain

theorem SearchInv.seen_nodup (h : SearchInv file limits above s) :
    ((seen s).map Function.name).Nodup := by
  rw [seen, map_append, map_map, map_map, nodup_append]
  refine ⟨h.listed.nodup, h.nodup, fun a ha b hb => ?_⟩
  rintro rfl
  have hpure : s.states a = .pure := (h.listed.pure_iff a).2 ha
  have hactive : s.states a = .active := (h.active_iff a).2 hb
  rw [hpure] at hactive
  cases hactive

theorem SearchInv.seen_accepted
    (h : SearchInv file limits above s) (hf : f ∈ seen s) : Accepted file limits f := by
  rcases mem_append.1 hf with hf | hf
  · obtain ⟨e, he, rfl⟩ := mem_map.1 hf
    exact (h.listed.accepted e he).1
  · obtain ⟨frame, hframe, rfl⟩ := mem_map.1 hf
    exact (h.stacked.accepted frame hframe).1

theorem SearchInv.calls_eq (h : SearchInv file limits above s) :
    ((seen s).map fun f => (calls f.body).length).sum =
      s.edges + (s.stack.map fun frame => (calls frame.function.body).length - frame.nextCall).sum := by
  have hfunctions : (s.functions.map fun e => (calls e.function.body).length).sum =
      (s.functions.map fun e => e.calls.length).sum :=
    congrArg List.sum (map_congr_left fun e he =>
      ((h.listed.accepted e he).2.length_eq).symm)
  have hstack : (s.stack.map fun frame => (calls frame.function.body).length).sum =
      (s.stack.map Frame.nextCall).sum +
        (s.stack.map fun frame => (calls frame.function.body).length - frame.nextCall).sum := by
    rw [← sum_map_add]
    refine congrArg List.sum (map_congr_left fun frame hframe => ?_)
    have hle := (h.stacked.accepted frame hframe).2
    omega
  have hedges := h.edges_eq
  rw [seen, map_append, map_map, map_map, sum_append]
  simp only [Function.comp_def]
  omega

theorem sum_le_of_subset {l m : List Function} (g : Function → ℕ) (hl : l.Nodup) (hsub : l ⊆ m) :
    (l.map g).sum ≤ (m.map g).sum := by
  obtain ⟨l', hperm, hsublist⟩ := subperm_of_subset hl hsub
  rw [← (hperm.map g).sum_eq]
  exact (hsublist.map g).sum_le_sum (fun _ _ => Nat.zero_le _)

theorem SearchInv.progress_le (h : SearchInv file limits above s) :
    s.progress + s.stack.length ≤ ((seen s).map fun f => (calls f.body).length + 1).sum := by
  have hcalls := h.calls_eq
  have hsum : ((seen s).map fun f => (calls f.body).length + 1).sum =
      ((seen s).map fun f => (calls f.body).length).sum + (seen s).length := by
    simp
  have hlength : (seen s).length = s.functions.length + s.stack.length := by simp [seen]
  unfold Search.progress
  omega

/-- While the stack is not empty there are turns left. -/
theorem Ready.progress_lt (h : Ready file limits s) (hstack : s.stack ≠ []) :
    s.progress < budget file := by
  rcases h with h | ⟨f, rest, hrest, h, hfound, -, hunvisited⟩
  · have hle := h.progress_le
    have hpos := length_pos_iff.2 hstack
    have hbudget := sum_le_of_subset (fun f => (calls f.body).length + 1) (.of_map _ h.seen_nodup)
      fun g hg => (lookup_spec (h.seen_accepted hg).found).1
    unfold budget
    omega
  · have hle := h.progress_le
    have hnot : f.name ∉ (seen { s with stack := rest }).map Function.name := by
      rw [seen, map_append, map_map, map_map, mem_append]
      rintro (hmem | hmem)
      · have hpure : s.states f.name = .pure := (h.listed.pure_iff f.name).2 hmem
        rw [hpure] at hunvisited
        cases hunvisited
      · have hactive : s.states f.name = .active := (h.active_iff f.name).2 hmem
        rw [hactive] at hunvisited
        cases hunvisited
    have hnodup : ((f :: seen { s with stack := rest }).map Function.name).Nodup :=
      nodup_cons.2 ⟨hnot, h.seen_nodup⟩
    have hbudget := sum_le_of_subset (fun f => (calls f.body).length + 1) (.of_map _ hnodup)
      (m := file.functions) (cons_subset.2 ⟨(lookup_spec hfound).1,
        fun g hg => (lookup_spec (h.seen_accepted hg).found).1⟩)
    rw [map_cons, sum_cons] at hbudget
    have hprogress : Search.progress { s with stack := rest } = s.progress := rfl
    unfold budget
    omega

/-! ### A turn that can be taken -/

theorem exists_enter (hbody : f.body ≠ []) (hdepth : s.stack.length ≤ callLimits.maxDepth)
    (hlowerable : file.verifyProcessLowerability limits 0 f.body = true)
    (hfree : ∀ op ∈ trees f.body, localEffectFree op = true) :
    ∃ s', enter file limits callLimits s f = .ok s' := by
  obtain ⟨indexed, hindexed⟩ := exists_verifyFunctionEffects hfree
  unfold enter
  rw [if_neg hbody, if_neg (not_lt.2 hdepth), if_neg (by simp [hlowerable])]
  exact ⟨_, bind_ok.2 ⟨indexed, hindexed, rfl⟩⟩

section progress

variable (hpure : PureCalls model.file) (hlowerable : Lowerable model.file limits)
  (hwithin : Within model limits callLimits)

include hpure hwithin in
theorem exists_advance (h : SearchInv model.file limits none { s with stack := frame :: rest }) :
    ∃ s', advance model.file callLimits s frame rest = .ok s' := by
  unfold advance
  dsimp only
  split
  case h_1 => exact ⟨_, rfl⟩
  case h_2 call hcall =>
    have hfollow := h.follow hcall
    obtain ⟨-, hwaits, -⟩ := h.stacked
    have hmem : call ∈ calls frame.function.body :=
      hwaits.indexed.mem_iff.1 (mem_of_getElem? hcall)
    have hreached : Reached model.file call.callee :=
      hwaits.accepted.reached.call ⟨_, hwaits.accepted.found, call, hmem, rfl⟩
    -- one more call of the functions seen so far is followed
    have hedges : s.edges + 1 ≤ callLimits.maxEdges := by
      have hcalls := hfollow.calls_eq
      have hle := hwithin.edges _ (.of_map _ hfollow.seen_nodup) fun f hf =>
        ⟨(lookup_spec (hfollow.seen_accepted hf).found).1, (hfollow.seen_accepted hf).reached⟩
      simp only at hcalls
      omega
    rw [if_neg (by omega)]
    obtain ⟨target, htarget, -⟩ := hpure.defined call.callee hreached
    rw [htarget]
    obtain ⟨-, hname⟩ := lookup_spec htarget
    dsimp only
    cases hstate : s.states target.name with
    | unvisited | pure => exact ⟨_, rfl⟩
    | active =>
      rw [hname] at hstate
      have hcycle := hfollow.stacked.transGen call.callee ((hfollow.active_iff call.callee).1 hstate)
      exact absurd hcycle (hpure.acyclic call.callee hreached)

include hwithin in
/-- The stack below a function that has not been visited leaves room for it. -/
theorem depth_le (h : SearchInv model.file limits (some f.name) { s with stack := rest })
    (hreached : Reached model.file f.name) (hunvisited : s.states f.name = .unvisited) :
    rest.length + 1 ≤ callLimits.maxDepth := by
  have hnot : f.name ∉ rest.map Frame.name := fun hmem => by
    have hactive : s.states f.name = .active := (h.active_iff f.name).2 hmem
    rw [hactive] at hunvisited
    cases hunvisited
  have hle := hwithin.depth (f.name :: rest.map Frame.name).reverse
    (nodup_reverse.2 (nodup_cons.2 ⟨hnot, h.nodup⟩)) (fun name hname => ?_)
    (isChain_reverse.2 h.stacked.isChain)
  · simpa using hle
  · rcases mem_cons.1 (mem_reverse.1 hname) with rfl | hname
    · exact hreached
    · obtain ⟨frame, hframe, rfl⟩ := mem_map.1 hname
      exact (h.stacked.accepted frame hframe).1.reached

include hpure hlowerable hwithin in
/-- **A turn of the search.**  A turn fails only where the model is not pure, not lowerable or not within
the limits. -/
theorem turn_ok (h : Ready model.file limits s) (hstack : s.stack = frame :: rest) :
    ∃ s', turn model.file limits callLimits s frame rest = .ok s' := by
  have hentered : ∃ s₁, (if frame.entered then .ok s
      else enter model.file limits callLimits s frame.function) = .ok s₁ := by
    rcases h with h | ⟨f, rest', hstack', h, hfound, hreached, hunvisited⟩
    · have hstacked := h.stacked
      rw [hstack] at hstacked
      exact ⟨s, if_pos hstacked.1⟩
    · obtain ⟨rfl, rfl⟩ := List.cons.inj (hstack.symm.trans hstack')
      rw [if_neg Bool.false_ne_true]
      obtain ⟨f', hfound', hbody⟩ := hpure.defined f.name hreached
      obtain rfl := Option.some.inj (hfound.symm.trans hfound')
      have hdepth := depth_le hwithin h hreached hunvisited
      refine exists_enter hbody ?_ (hlowerable f.name f hreached hfound hbody)
        (hpure.effectFree f.name f hreached hfound)
      rw [hstack]
      exact hdepth
  obtain ⟨s₁, henter⟩ := hentered
  obtain ⟨hinv, -⟩ := h.entered hstack henter
  obtain ⟨s', hadvance⟩ := exists_advance hpure hwithin hinv
  exact ⟨s', bind_ok.2 ⟨s₁, henter, hadvance⟩⟩

end progress

/-! ### The loop and the roots -/

variable {turnsLeft : ℕ} {root : String × Call}

/-- The loop ends with an empty stack, and what was on it is in the graph. -/
theorem loop_ready (h : Ready file limits s) (hturns : budget file ≤ s.progress + turnsLeft)
    (hrun : loop file limits callLimits turnsLeft s = .ok s') :
    SearchInv file limits none s' ∧ s'.stack = [] ∧
      (∀ name, s.states name = .pure → s'.states name = .pure) ∧
      ∀ name ∈ s.stack.map Frame.name, s'.states name = .pure := by
  have hdone {t : Search} (ht : Ready file limits t) (hstack : t.stack = []) :
      SearchInv file limits none t := by
    rcases ht with ht | ⟨f, rest, hrest, -⟩
    · exact ht
    · rw [hstack] at hrest
      cases hrest
  induction turnsLeft generalizing s with
  | zero =>
    have heq : s = s' := Except.ok.inj hrun
    subst heq
    have hstack : s.stack = [] := by
      by_contra hne
      have hlt := h.progress_lt hne
      omega
    exact ⟨hdone h hstack, hstack, fun _ hname => hname, by simp [hstack]⟩
  | succ turnsLeft ih =>
    rw [loop] at hrun
    split at hrun
    · rename_i hstack
      cases hrun
      exact ⟨hdone h hstack, hstack, fun _ hname => hname, by simp [hstack]⟩
    · rename_i frame rest hstack
      obtain ⟨t, hturn, hrun⟩ := bind_ok.1 hrun
      obtain ⟨hready, hlater⟩ := turn_ready h hstack hturn
      have hprogress := hlater.progress
      obtain ⟨hinv, hempty, hpure, hnames⟩ := ih hready (by omega) hrun
      refine ⟨hinv, hempty, fun name hname => hpure name (hlater.pure name hname), fun name hname => ?_⟩
      exact (hlater.stack name hname).elim (hpure name) (hnames name)

theorem exists_loop (h : Ready file limits s)
    (hturn : ∀ s frame rest, Ready file limits s → s.stack = frame :: rest → ∃ s',
      turn file limits callLimits s frame rest = .ok s') :
    ∃ s', loop file limits callLimits turnsLeft s = .ok s' := by
  induction turnsLeft generalizing s with
  | zero => exact ⟨s, rfl⟩
  | succ turnsLeft ih =>
    rw [loop]
    split
    · exact ⟨s, rfl⟩
    · rename_i frame rest hstack
      obtain ⟨t, ht⟩ := hturn s frame rest h hstack
      obtain ⟨s', hs'⟩ := ih (turn_ready h hstack ht).1
      exact ⟨s', bind_ok.2 ⟨t, ht, hs'⟩⟩

theorem ready_root (h : SearchInv file limits none s) (hstack : s.stack = [])
    (hfound : file.lookup f.name = some f) (hreached : Reached file f.name)
    (hpure : s.states f.name ≠ .pure) : Ready file limits { s with stack := [⟨f, 0, false⟩] } := by
  refine .inr ⟨f, [], rfl, ⟨h.listed.congr rfl fun _ => Iff.rfl, nodup_nil, ?_, trivial, ?_⟩,
    hfound, hreached, ?_⟩
  · simpa [hstack] using h.active_iff
  · simpa [hstack] using h.edges_eq
  · have hactive := h.active_iff f.name
    rw [hstack] at hactive
    cases hstate : s.states f.name with
    | unvisited => rfl
    | active => exact absurd (hactive.1 hstate) not_mem_nil
    | pure => exact absurd hstate hpure

theorem mem_roots : root ∈ file.roots → ∃ p ∈ file.processes, root.2 ∈ calls p.body := by
  intro h
  unfold File.roots at h
  obtain ⟨p, hp, hroot⟩ := mem_flatMap.1 ((perm_insertionSort _ _).mem_iff.1 h)
  obtain ⟨call, hcall, rfl⟩ := mem_map.1 hroot
  exact ⟨p, hp, hcall⟩

theorem exists_root {p : Process} {call : Call} (hp : p ∈ file.processes)
    (hcall : call ∈ calls p.body) : ∃ root ∈ file.roots, root.2 = call := by
  refine ⟨(p.owner ++ "::" ++ p.name ++ "::" ++ call.callee, call), ?_, rfl⟩
  refine (perm_insertionSort _ _).mem_iff.2 (mem_flatMap.2 ⟨p, hp, ?_⟩)
  exact mem_map.2 ⟨call, hcall, rfl⟩

theorem searchRoot_inv (h : SearchInv file limits none s) (hstack : s.stack = [])
    (hroot : root ∈ file.roots) (hrun : searchRoot file limits callLimits s root = .ok s') :
    SearchInv file limits none s' ∧ s'.stack = [] ∧
      (∀ name, s.states name = .pure → s'.states name = .pure) ∧ s'.states root.2.callee = .pure := by
  obtain ⟨p, hp, hcall⟩ := mem_roots hroot
  have hreached : Reached file root.2.callee := .site hp hcall
  unfold searchRoot at hrun
  split at hrun
  · cases hrun
  rename_i f hfound
  obtain ⟨-, hname⟩ := lookup_spec hfound
  split at hrun
  · rename_i hpure
    cases hrun
    exact ⟨h, hstack, fun _ hname => hname, hname ▸ hpure⟩
  · rename_i hpure
    have hready := ready_root h hstack (hname ▸ hfound) (hname ▸ hreached) hpure
    obtain ⟨hinv, hempty, hmono, hnames⟩ := loop_ready hready (by omega) hrun
    refine ⟨hinv, hempty, hmono, hname ▸ hnames f.name ?_⟩
    exact mem_singleton.2 rfl

/-- All roots have been searched. -/
theorem foldlM_searchRoot {roots : List (String × Call)}
    (hroots : ∀ root ∈ roots, root ∈ file.roots) (h : SearchInv file limits none s)
    (hstack : s.stack = []) (hrun : roots.foldlM (searchRoot file limits callLimits) s = .ok s') :
    SearchInv file limits none s' ∧ s'.stack = [] ∧
      (∀ name, s.states name = .pure → s'.states name = .pure) ∧
      ∀ root ∈ roots, s'.states root.2.callee = .pure := by
  induction roots generalizing s with
  | nil =>
    cases hrun
    exact ⟨h, hstack, fun _ hname => hname, by simp⟩
  | cons root roots ih =>
    rw [foldlM_cons] at hrun
    obtain ⟨t, ht, hrun⟩ := bind_ok.1 hrun
    obtain ⟨hroot, hroots⟩ := forall_mem_cons.1 hroots
    obtain ⟨hinv, hempty, hmono, hpure⟩ := searchRoot_inv h hstack hroot ht
    obtain ⟨hinv', hempty', hmono', hpure'⟩ := ih hroots hinv hempty hrun
    exact ⟨hinv', hempty', fun name hname => hmono' name (hmono name hname),
      forall_mem_cons.2 ⟨hmono' _ hpure, hpure'⟩⟩

end search

/-! ### The graph -/

section graph

variable {callee caller : String}

theorem SearchInv.start : SearchInv file limits none .start where
  listed := by
    refine ⟨by simp [Search.start], by simp [Search.start], by simp [Search.start], ?_⟩
    intro before e after heq
    simp [Search.start] at heq
  nodup := nodup_nil
  active_iff := by simp [Search.start]
  stacked := trivial
  edges_eq := rfl

theorem Listed.calls (h : Listed file limits s) (hcaller : s.states caller = .pure)
    (hcalls : Calls file caller callee) : s.states callee = .pure := by
  obtain ⟨e, he, rfl⟩ := mem_map.1 ((h.pure_iff caller).1 hcaller)
  obtain ⟨f, hfound, call, hcall, rfl⟩ := hcalls
  obtain rfl := Option.some.inj (hfound.symm.trans (h.accepted e he).1.found)
  obtain ⟨before, after, heq⟩ := append_of_mem he
  have hbefore := h.ordered before e after heq call hcall
  rw [h.pure_iff, heq, map_append]
  exact mem_append_left _ hbefore

theorem Listed.idxOf_lt (h : Listed file limits s) (hcaller : s.states caller = .pure)
    (hcalls : Calls file caller callee) :
    (s.functions.map ValidatedPureFunction.name).idxOf callee <
      (s.functions.map ValidatedPureFunction.name).idxOf caller := by
  obtain ⟨e, he, rfl⟩ := mem_map.1 ((h.pure_iff caller).1 hcaller)
  obtain ⟨f, hfound, call, hcall, rfl⟩ := hcalls
  obtain rfl := Option.some.inj (hfound.symm.trans (h.accepted e he).1.found)
  obtain ⟨before, after, heq⟩ := append_of_mem he
  have hbefore := h.ordered before e after heq call hcall
  have hnodup := h.nodup
  rw [heq, map_append, map_cons] at hnodup ⊢
  have hnot : e.name ∉ before.map ValidatedPureFunction.name := fun hmem =>
    (nodup_append.1 hnodup).2.2 _ hmem _ mem_cons_self rfl
  rw [idxOf_append_of_mem hbefore, idxOf_append_of_notMem hnot]
  exact Nat.lt_add_right _ (idxOf_lt_length_of_mem hbefore)

theorem Listed.acyclic (h : Listed file limits s) {name : String} (hname : s.states name = .pure) :
    ¬ TransGen (Calls file) name name := by
  have hdescends {callee : String} (hcalls : TransGen (Calls file) name callee) :
      s.states callee = .pure ∧ (s.functions.map ValidatedPureFunction.name).idxOf callee <
        (s.functions.map ValidatedPureFunction.name).idxOf name := by
    induction hcalls with
    | single hcall => exact ⟨h.calls hname hcall, h.idxOf_lt hname hcall⟩
    | tail _ hcall ih => exact ⟨h.calls ih.1 hcall, (h.idxOf_lt ih.1 hcall).trans ih.2⟩
  exact fun hcycle => (hdescends hcycle).2.false

theorem Listed.reached_iff (h : Listed file limits s)
    (hsites : ∀ root ∈ file.roots, s.states root.2.callee = .pure) (name : String) :
    s.states name = .pure ↔ Reached file name := by
  constructor
  · intro hname
    obtain ⟨e, he, rfl⟩ := mem_map.1 ((h.pure_iff name).1 hname)
    exact (h.accepted e he).1.reached
  · intro hreached
    induction hreached with
    | site hp hcall =>
      obtain ⟨root, hroot, rfl⟩ := exists_root hp hcall
      exact hsites root hroot
    | call _ hcalls ih => exact h.calls ih hcalls

/-- A search that has come to its end has found the model pure. -/
theorem Listed.pureCalls (h : Listed file limits s)
    (hsites : ∀ root ∈ file.roots, s.states root.2.callee = .pure) :
    PureCalls file ∧ Lowerable file limits := by
  have haccepted {name : String} (hreached : Reached file name) :
      ∃ f, file.lookup name = some f ∧ Accepted file limits f := by
    have hname := (h.pure_iff name).1 ((h.reached_iff hsites name).2 hreached)
    obtain ⟨e, he, rfl⟩ := mem_map.1 hname
    exact ⟨e.function, (h.accepted e he).1.found, (h.accepted e he).1⟩
  refine ⟨⟨fun name hreached => ?_, fun name f hreached hfound => ?_, fun name hreached => ?_⟩,
    fun name f hreached hfound _ => ?_⟩
  · obtain ⟨f, hfound, hf⟩ := haccepted hreached
    exact ⟨f, hfound, hf.body⟩
  · obtain ⟨g, hg, haccepted⟩ := haccepted hreached
    obtain rfl := Option.some.inj (hfound.symm.trans hg)
    exact haccepted.effectFree
  · exact h.acyclic ((h.reached_iff hsites name).2 hreached)
  · obtain ⟨g, hg, haccepted⟩ := haccepted hreached
    obtain rfl := Option.some.inj (hfound.symm.trans hg)
    exact haccepted.lowerable

end graph

/-! ### Lookup -/

section lookup

variable {functions : List ValidatedPureFunction} {first last : ℕ} {e : ValidatedPureFunction}

theorem mem_of_lookupBetween (h : lookupBetween functions name first last = some e) :
    e ∈ functions ∧ e.name = name := by
  fun_induction lookupBetween functions name first last with
  | case1 => cases h
  | case2 _ _ _ _ _ _ _ ih => exact ih h
  | case3 _ _ _ _ _ _ _ _ ih => exact ih h
  | case4 first last _ middle candidate hmiddle hlt hgt =>
    obtain rfl := Option.some.inj h
    exact ⟨mem_of_getElem? hmiddle, le_antisymm (not_lt.1 hgt) (not_lt.1 hlt)⟩
  | case5 => cases h

/-- The search keeps the place of the name between its bounds. -/
theorem lookupBetween_isSome (hsorted : (functions.map ValidatedPureFunction.name).Pairwise (· < ·))
    {place : ℕ} (hplace : functions[place]? = some e) (hname : e.name = name)
    (hfirst : first ≤ place) (hlast : place < last) (hlength : last ≤ functions.length) :
    ∃ e, lookupBetween functions name first last = some e := by
  have horder {i j : ℕ} {a b : ValidatedPureFunction} (ha : functions[i]? = some a)
      (hb : functions[j]? = some b) (hij : i < j) : a.name < b.name := by
    obtain ⟨hi, rfl⟩ := List.getElem?_eq_some_iff.1 ha
    obtain ⟨hj, rfl⟩ := List.getElem?_eq_some_iff.1 hb
    exact pairwise_iff_getElem.1 (pairwise_map.1 hsorted) i j hi hj hij
  fun_induction lookupBetween functions name first last with
  | case1 first last hlt middle hnone =>
    have hle := getElem?_eq_none_iff.1 hnone
    omega
  | case2 first last _ middle candidate hmiddle hlt ih =>
    refine ih ?_ hlast hlength
    by_contra hnot
    rcases Nat.lt_or_eq_of_le (show place ≤ middle by omega) with hless | rfl
    · exact absurd ((horder hplace hmiddle hless).trans hlt) (by simp [hname])
    · obtain rfl := Option.some.inj (hplace.symm.trans hmiddle)
      exact absurd hlt (by simp [hname])
  | case3 first last _ middle candidate hmiddle _ hgt ih =>
    refine ih hfirst ?_ (by omega)
    by_contra hnot
    rcases Nat.lt_or_eq_of_le (show middle ≤ place by omega) with hless | rfl
    · exact absurd (hgt.trans (horder hmiddle hplace hless)) (by simp [hname])
    · obtain rfl := Option.some.inj (hplace.symm.trans hmiddle)
      exact absurd hgt (by simp [hname])
  | case4 _ _ _ _ candidate => exact ⟨candidate, rfl⟩
  | case5 => omega

theorem lookup_eq_some (hsorted : (functions.map ValidatedPureFunction.name).Pairwise (· < ·))
    (h : name ∈ functions.map ValidatedPureFunction.name) :
    ∃ e ∈ functions, lookup functions name = some e ∧ e.name = name := by
  obtain ⟨e, he, hname⟩ := mem_map.1 h
  obtain ⟨place, hplace⟩ := mem_iff_getElem?.1 he
  have hlt := (List.getElem?_eq_some_iff.1 hplace).1
  obtain ⟨found, hfound⟩ := lookupBetween_isSome hsorted hplace hname (Nat.zero_le _) hlt le_rfl
  exact ⟨found, (mem_of_lookupBetween hfound).1, hfound, (mem_of_lookupBetween hfound).2⟩

theorem lookup_eq_none (h : name ∉ functions.map ValidatedPureFunction.name) :
    lookup functions name = none := by
  rw [Option.eq_none_iff_forall_ne_some]
  intro e he
  obtain ⟨hmem, hname⟩ := mem_of_lookupBetween he
  exact h (mem_map.2 ⟨e, hmem, hname⟩)

end lookup

/-! ### The whole model -/

theorem verifySymbols_ok {functions : List Function} {symbols : List String}
    (hnodup : (functions.map Function.name).Nodup) (hnot : ∀ f ∈ functions, f.name ∉ symbols) :
    verifySymbols symbols functions = .ok () := by
  induction functions generalizing symbols with
  | nil => rfl
  | cons f rest ih =>
    rw [map_cons, nodup_cons] at hnodup
    rw [verifySymbols, if_neg (hnot f mem_cons_self)]
    refine ih hnodup.2 fun g hg hmem => ?_
    rcases mem_cons.1 hmem with heq | hmem
    · exact hnodup.1 (heq ▸ mem_map_of_mem hg)
    · exact hnot g (mem_cons_of_mem _ hg) hmem

theorem search_of_validate {graph : List ValidatedPureFunction}
    (h : validatePureProcessCallGraph model limits callLimits = .ok graph) :
    ∃ s, Listed model.file limits s ∧
      (∀ root ∈ model.file.roots, s.states root.2.callee = .pure) ∧
      graph = s.functions.insertionSort fun a b => a.name ≤ b.name := by
  unfold validatePureProcessCallGraph at h
  obtain ⟨-, -, h⟩ := bind_ok.1 h
  split at h
  · cases h
  obtain ⟨-, -, h⟩ := bind_ok.1 h
  obtain ⟨s, hs, h⟩ := bind_ok.1 h
  obtain ⟨hinv, -, -, hroots⟩ := foldlM_searchRoot (fun _ hroot => hroot) SearchInv.start rfl hs
  exact ⟨s, hinv.listed, hroots, (Except.ok.inj h).symm⟩

theorem exists_foldlM (hpure : PureCalls model.file) (hlowerable : Lowerable model.file limits)
    (hwithin : Within model limits callLimits) {roots : List (String × Call)}
    (hroots : ∀ root ∈ roots, root ∈ model.file.roots) {s : Search}
    (h : SearchInv model.file limits none s) (hstack : s.stack = []) :
    ∃ s', roots.foldlM (searchRoot model.file limits callLimits) s = .ok s' := by
  induction roots generalizing s with
  | nil => exact ⟨s, rfl⟩
  | cons root roots ih =>
    obtain ⟨hroot, hroots⟩ := forall_mem_cons.1 hroots
    have hsearch : ∃ t, searchRoot model.file limits callLimits s root = .ok t := by
      obtain ⟨p, hp, hcall⟩ := mem_roots hroot
      have hreached : Reached model.file root.2.callee := .site hp hcall
      obtain ⟨f, hfound, -⟩ := hpure.defined _ hreached
      obtain ⟨-, hname⟩ := lookup_spec hfound
      unfold searchRoot
      rw [hfound]
      dsimp only
      split
      · exact ⟨s, rfl⟩
      · rename_i hstate
        refine exists_loop (ready_root h hstack (hname ▸ hfound) (hname ▸ hreached) hstate) ?_
        exact fun _ _ _ hready => turn_ok hpure hlowerable hwithin hready
    obtain ⟨t, ht⟩ := hsearch
    obtain ⟨hinv, hempty, -⟩ := searchRoot_inv h hstack hroot ht
    obtain ⟨s', hs'⟩ := ih hroots hinv hempty
    exact ⟨s', by rw [foldlM_cons]; exact bind_ok.2 ⟨t, ht, hs'⟩⟩

theorem exists_validate (hsymbols : (model.file.functions.map Function.name).Nodup)
    (hwithin : Within model limits callLimits) (hpure : PureCalls model.file)
    (hlowerable : Lowerable model.file limits) :
    ∃ graph, validatePureProcessCallGraph model limits callLimits = .ok graph := by
  obtain ⟨s, hs⟩ := exists_foldlM hpure hlowerable hwithin (fun _ hroot => hroot) SearchInv.start rfl
  refine ⟨s.functions.insertionSort fun a b => a.name ≤ b.name, ?_⟩
  unfold validatePureProcessCallGraph
  refine bind_ok.2 ⟨(), verifySymbols_ok hsymbols (by simp), ?_⟩
  rw [if_neg (not_lt.2 hwithin.functions)]
  exact bind_ok.2 ⟨(), hwithin.walk, bind_ok.2 ⟨s, hs, rfl⟩⟩

/-- **The call graph of the pure functions.**  Within the limits, a model is accepted exactly when the
functions that its processes reach are pure, do not come to call themselves and are lowerable.  The graph
has each of them once, in the order of the names, and is searched by name. -/
theorem validate_exact (hsymbols : (model.file.functions.map Function.name).Nodup)
    (hwithin : Within model limits callLimits) :
    ((∃ graph, validatePureProcessCallGraph model limits callLimits = .ok graph) ↔
      PureCalls model.file ∧ Lowerable model.file limits) ∧
    ∀ graph, validatePureProcessCallGraph model limits callLimits = .ok graph →
      (graph.map ValidatedPureFunction.name).Pairwise (· < ·) ∧
      (∀ name, name ∈ graph.map ValidatedPureFunction.name ↔ Reached model.file name) ∧
      (∀ name, Reached model.file name → ∃ e ∈ graph, lookup graph name = some e ∧ e.name = name ∧
        model.file.lookup name = some e.function) ∧
      ∀ name, ¬ Reached model.file name → lookup graph name = none := by
  refine ⟨⟨?_, fun h => exists_validate hsymbols hwithin h.1 h.2⟩, ?_⟩
  · rintro ⟨graph, hgraph⟩
    obtain ⟨s, hlisted, hsites, -⟩ := search_of_validate hgraph
    exact hlisted.pureCalls hsites
  · intro graph hgraph
    obtain ⟨s, hlisted, hsites, rfl⟩ := search_of_validate hgraph
    have hperm : (s.functions.insertionSort fun a b => a.name ≤ b.name).Perm s.functions :=
      perm_insertionSort _ _
    have hmem (name : String) : name ∈ (s.functions.insertionSort fun a b => a.name ≤ b.name).map
        ValidatedPureFunction.name ↔ Reached model.file name := by
      rw [(hperm.map _).mem_iff, ← hlisted.pure_iff, hlisted.reached_iff hsites]
    have hsorted : ((s.functions.insertionSort fun a b => a.name ≤ b.name).map
        ValidatedPureFunction.name).Pairwise (· < ·) := by
      have hle : (s.functions.insertionSort fun a b => a.name ≤ b.name).Pairwise
          fun a b => a.name ≤ b.name := pairwise_insertionSort _ _
      have hne := (hperm.map ValidatedPureFunction.name).nodup_iff.2 hlisted.nodup
      exact (pairwise_map.2 hle).and hne |>.imp fun h => lt_of_le_of_ne h.1 h.2
    refine ⟨hsorted, hmem, fun name hreached => ?_, fun name hreached => ?_⟩
    · obtain ⟨e, he, hlookup, hname⟩ := lookup_eq_some hsorted ((hmem name).2 hreached)
      refine ⟨e, he, hlookup, hname, hname ▸ ?_⟩
      exact (hlisted.accepted e (hperm.mem_iff.1 he)).1.found
    · exact lookup_eq_none fun h => hreached ((hmem name).1 h)

/-- A small file with all its callees is within the limits. -/
theorem Within.of_size (hwalk : verifyWalk model limits = .ok ())
    (hfunctions : model.file.functions.length ≤ min callLimits.maxFunctions callLimits.maxDepth)
    (hedges : (model.file.functions.map fun f => (calls f.body).length).sum ≤ callLimits.maxEdges)
    (hsites : ∀ p ∈ model.file.processes, ∀ call ∈ calls p.body,
      call.callee ∈ model.file.functions.map Function.name)
    (hcallees : ∀ f ∈ model.file.functions, ∀ call ∈ calls f.body,
      call.callee ∈ model.file.functions.map Function.name) : Within model limits callLimits where
  walk := hwalk
  functions := hfunctions.trans (min_le_left _ _)
  edges reached hnodup hreached :=
    (sum_le_of_subset _ hnodup fun f hf => (hreached f hf).1).trans hedges
  depth chain hnodup hreached _ := by
    have hsub : chain ⊆ model.file.functions.map Function.name := by
      intro name hname
      cases hreached name hname with
      | site hp hcall => exact hsites _ hp _ hcall
      | call _ hcalls =>
        obtain ⟨f, hfound, call, hcall, rfl⟩ := hcalls
        exact hcallees f (lookup_spec hfound).1 call hcall
    have hle := (subperm_of_subset hnodup hsub).length_le
    rw [length_map] at hle
    exact hle.trans (hfunctions.trans (min_le_right _ _))

/-- Two functions that a process calls share a third. -/
def shared : Model where
  file :=
    { processes := [⟨0, "core", "main", 0,
        [.call ⟨1, "left", [], 0⟩, .call ⟨2, "right", [], 0⟩, .call ⟨3, "left", [], 0⟩,
          .simple 4 .yieldSim [] 0 none false]⟩]
      functions := [⟨10, "right", 0, 0, [.call ⟨11, "base", [], 0⟩, .ret 12 []]⟩,
        ⟨20, "left", 0, 0, [.call ⟨21, "base", [], 0⟩, .ret 22 []]⟩, ⟨30, "base", 0, 0, [.ret 31 []]⟩] }
  nodes := 15
  edges := 0
  depth := 3

theorem validate_exact_shared : PureCalls shared.file ∧ Lowerable shared.file {} := by
  have hwithin : Within shared {} {} :=
    .of_size (by decide) (by decide) (by decide) (by decide) (by decide)
  have hexact := validate_exact (by decide) hwithin
  refine hexact.1.1 ?_
  have haccepted : (validatePureProcessCallGraph shared {} {}).toOption.isSome = true := by
    decide +kernel
  cases hresult : validatePureProcessCallGraph shared {} {} with
  | ok graph => exact ⟨graph, rfl⟩
  | error e =>
    rw [hresult] at haccepted
    cases haccepted

/-- A function with a loop whose bounds are its arguments. -/
def dynamicLoop : Model where
  file :=
    { processes := [⟨0, "core", "main", 3,
        [.call ⟨1, "scan", [.argument 0 0 0, .argument 0 0 1, .argument 0 0 2], 0⟩,
          .simple 2 .yieldSim [] 0 none false]⟩]
      functions := [⟨10, "scan", 3, 0,
        [.forOp 11 (.argument 10 0 0) (.argument 10 0 1) (.argument 10 0 2) [] [.yield 12 []],
          .ret 13 []]⟩] }
  nodes := 9
  edges := 9
  depth := 3

/-- The loop of `dynamicLoop` has no effects, and its function calls nothing; it is refused because a
loop without constant bounds has to suspend. -/
theorem pure_loop_refused :
    ¬ ∀ (model : Model) (limits : RawModelStructureLimits) (callLimits : PureCallGraphLimits),
      (model.file.functions.map Function.name).Nodup → Within model limits callLimits →
      ((∃ graph, validatePureProcessCallGraph model limits callLimits = .ok graph) ↔
        PureCalls model.file) := by
  intro h
  have hwithin : Within dynamicLoop {} {} :=
    .of_size (by decide) (by decide) (by decide) (by decide) (by decide)
  have hcalls : ∀ f ∈ dynamicLoop.file.functions, calls f.body = [] := by decide
  have hnone (a b : String) : ¬ Calls dynamicLoop.file a b := by
    rintro ⟨f, hfound, call, hcall, -⟩
    rw [hcalls f (lookup_spec hfound).1] at hcall
    exact not_mem_nil hcall
  have hscan : ∀ name, Reached dynamicLoop.file name → name = "scan" := by
    intro name hreached
    cases hreached with
    | site hp hcall =>
      have hsites : ∀ p ∈ dynamicLoop.file.processes, ∀ call ∈ calls p.body, call.callee = "scan" := by
        decide
      exact hsites _ hp _ hcall
    | call _ hcall => exact absurd hcall (hnone _ _)
  have hpure : PureCalls dynamicLoop.file := by
    refine ⟨fun name hreached => ?_, fun name f hreached hfound => ?_, fun name _ hcycle => ?_⟩
    · obtain rfl := hscan name hreached
      exact ⟨_, rfl, cons_ne_nil _ _⟩
    · have hfree : ∀ f ∈ dynamicLoop.file.functions, ∀ op ∈ trees f.body, localEffectFree op = true := by
        simp [dynamicLoop, trees, Operation.tree, localEffectFree]
      exact hfree f (lookup_spec hfound).1
    · obtain ⟨b, hcall, -⟩ := Relation.TransGen.head'_iff.1 hcycle
      exact hnone _ _ hcall
  obtain ⟨graph, hgraph⟩ := (h dynamicLoop {} {} (by decide) hwithin).2 hpure
  have hrefused : (validatePureProcessCallGraph dynamicLoop {} {}).toOption.isSome = false := by
    decide +kernel
  rw [hgraph] at hrefused
  cases hrefused

end AgenticCircuit.ProcessPlan.PureCallGraph
