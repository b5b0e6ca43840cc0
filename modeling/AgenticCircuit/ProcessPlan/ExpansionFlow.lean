import AgenticCircuit.ProcessPlan.ExpansionStep
import AgenticCircuit.ProcessPlan.PureCallGraphExact

/-! # Data flow through expansion

Every operand of every action is a capture or a result of an action, and denotes the value of the
source, exactly when the operands of the source are settled (`keepsDataFlow_iff_settled`).  A call
whose callee returns the result of another call shows the difference (`nested_call_unproduced`). -/

namespace AgenticCircuit.ProcessPlan

open List Operation

/-- A function of the call graph is the function of its name in the file, and has a body. -/
theorem find_of_validated {file : File} {callGraph : List Function}
    (h : file.validatePureProcessCallGraph = some callGraph) (name : String) (f : Function)
    (hfind : callGraph.find? (fun f => f.name == name) = some f) :
    file.lookup name = some f ∧ f.body ≠ [] := by
  unfold File.validatePureProcessCallGraph at h
  split at h
  rotate_left
  · cases h
  rename_i graph hgraph
  cases h
  obtain ⟨s, hlisted, -, rfl⟩ := PureCallGraph.search_of_validate hgraph
  obtain ⟨e, he, rfl⟩ := mem_map.mp (mem_of_find?_eq_some hfind)
  obtain ⟨haccepted, -⟩ := hlisted.accepted e ((perm_insertionSort _ _).mem_iff.mp he)
  have hname : e.function.name = name := by simpa using find?_some hfind
  exact ⟨hname ▸ haccepted.found, haccepted.body⟩

/-! ### Data flow -/

section flow

variable {file : File} {process : Process} {visited : List Task} {s : Expansion}

variable {op : Operation} {v : Value} {α β : Type} {R S : α → β → Prop} {l : List α} {r : List β}

theorem exists_reads (hop : op.isAction = true) (hv : v ∈ op.operands) :
    ∃ kind ∈ op.kinds, v ∈ reads kind op := by
  cases op with
  | simple _ _ _ _ _ _ => exact ⟨.original, mem_cons_self, hv⟩
  | forOp id lower upper step inits body =>
    simp only [operands, mem_cons] at hv
    obtain rfl | rfl | rfl | hv := hv
    · exact ⟨.forInitialize, by simp [kinds], mem_cons_self⟩
    · exact ⟨.forCondition, by simp [kinds], by simp [reads]⟩
    · exact ⟨.forIncrement, by simp [kinds], by simp [reads]⟩
    · exact ⟨.forInitialize, by simp [kinds], mem_cons_of_mem _ hv⟩
  | _ => cases hop

theorem settled_reads (hfile : file.WellFormed) (hprocess : process ∈ file.processes)
    (h : OperandsSettled file process) {context : ExpansionContext}
    (hreach : Reached file process context op) {kind : ActionKind} (hkind : kind ∈ op.kinds)
    (hv : v ∈ reads kind op) : Settled file context v := by
  have hsettled := (h context op hreach).1
  have ho := hreach.owner hfile hprocess
  cases op with
  | simple _ _ _ _ _ _ =>
    obtain rfl := mem_singleton.mp hkind
    exact hsettled rfl v hv
  | instrumentation _ _ =>
    obtain rfl := mem_singleton.mp hkind
    cases hv
  | forOp id lower upper step inits body =>
    have hoperand : ∀ w ∈ lower :: upper :: step :: inits, Settled file context w :=
      fun w hw => hsettled rfl w hw
    simp only [kinds, mem_cons, not_mem_nil, or_false] at hkind
    obtain rfl | rfl | rfl := hkind
    · refine hoperand v ?_
      simp only [reads, mem_cons] at hv ⊢
      tauto
    · simp only [reads, mem_cons, not_mem_nil, or_false] at hv
      obtain rfl | rfl := hv
      · exact .loopArgument ho
      · exact hoperand v (by simp)
    · simp only [reads, mem_append, mem_cons, not_mem_nil, or_false] at hv
      obtain (rfl | rfl) | hv := hv
      · exact .loopArgument ho
      · exact hoperand v (by simp)
      · obtain ⟨i, _, rfl⟩ := mem_map.mp hv
        exact .loopArgument ho
  | _ => cases hkind

theorem Inv.produced_iff (h : Inv file process visited s) (hs : s.pending = []) {p : PlannedValue} :
    ((∃ i < process.captures, p = .original (.argument process.id 0 i) .root) ∨
      ∃ producer ∈ s.actions, p ∈ producer.results) ↔ Produced file process p := by
  have hschedule := h.schedule
  rw [hs] at hschedule
  have hresults : ∀ {context : ExpansionContext} {op : Operation} (kind : ActionKind),
      Reached file process context op → kind ∈ op.kinds → p ∈ plannedResults kind op context →
      ∃ producer ∈ s.actions, p ∈ producer.results := by
    intro context op kind hreach hkind hp
    obtain ⟨a, ha, rfl, rfl, rfl⟩ := h.complete ⟨op, context⟩ (hschedule.complete hreach) kind hkind
    exact ⟨a, ha, (h.sound a ha).results ▸ hp⟩
  constructor
  · rintro (⟨i, hi, rfl⟩ | ⟨a, ha, hp⟩)
    · exact .capture hi
    · have hsound := h.sound a ha
      rw [hsound.results] at hp
      have hreach := hsound.reached
      have hkind := hsound.kind_mem
      generalize a.operation = op at hp hreach hkind
      generalize a.kind = kind at hp hkind
      cases op with
      | simple id name operands results constant effectFree =>
        obtain rfl := mem_singleton.mp hkind
        obtain ⟨v, hv, rfl⟩ := mem_map.mp hp
        obtain ⟨k, hk, rfl⟩ := mem_map.mp hv
        exact .result hreach rfl (mem_range.mp hk)
      | instrumentation id body =>
        obtain rfl := mem_singleton.mp hkind
        cases hp
      | forOp id lower upper step inits body =>
        simp only [kinds, mem_cons, not_mem_nil, or_false] at hkind
        obtain rfl | rfl | rfl := hkind
        · obtain rfl | hp := mem_cons.mp hp
          · exact .synthetic hreach (.inl rfl)
          · obtain ⟨v, hv, rfl⟩ := mem_map.mp hp
            obtain ⟨i, hi, rfl⟩ := mem_map.mp hv
            exact .carried hreach (mem_range.mp hi)
        · obtain rfl := mem_singleton.mp hp
          exact .synthetic hreach (.inl rfl)
        · obtain rfl | hp := mem_cons.mp hp
          · exact .synthetic hreach (.inl rfl)
          · obtain ⟨i, hi, rfl⟩ := mem_map.mp hp
            exact .synthetic hreach (.inr ⟨rfl, mem_range.mp hi⟩)
      | _ => cases hkind
  · intro hp
    cases hp with
    | capture hi => exact .inl ⟨_, hi, rfl⟩
    | @result context op k hreach hsimple hk =>
      refine .inr (hresults .original hreach ?_ ?_)
      · cases op with
        | simple _ _ _ _ _ _ => exact mem_cons_self
        | _ => cases hsimple
      · exact mem_map_of_mem (mem_map_of_mem (mem_range.mpr hk))
    | carried hreach hi =>
      refine .inr (hresults .forInitialize hreach (by simp [kinds]) ?_)
      exact mem_cons_of_mem _ (mem_map_of_mem (mem_map_of_mem (mem_range.mpr hi)))
    | @synthetic context id lower upper step inits body phase i hreach hi =>
      right
      cases phase with
      | initialization =>
        obtain rfl : i = 0 := hi.resolve_right fun h => by cases h.1
        exact hresults .forInitialize hreach (by simp [kinds]) mem_cons_self
      | condition =>
        obtain rfl : i = 0 := hi.resolve_right fun h => by cases h.1
        exact hresults .forCondition hreach (by simp [kinds]) mem_cons_self
      | increment =>
        refine hresults .forIncrement hreach (by simp [kinds]) ?_
        cases i with
        | zero => exact mem_cons_self
        | succ i =>
          have hlt : i < inits.length := by omega
          exact mem_cons_of_mem _ (mem_map.mpr ⟨i, mem_range.mpr hlt, rfl⟩)

/-- Two relations that pair the same lists hold of the same pairs. -/
theorem exists_of_forall₂ (hR : List.Forall₂ R l r) (hS : List.Forall₂ S l r) {a : α} (ha : a ∈ l) :
    ∃ b, R a b ∧ S a b := by
  induction hR with
  | nil => cases ha
  | cons hab _ ih =>
    cases hS with
    | cons hab' hS =>
      obtain rfl | ha := mem_cons.mp ha
      · exact ⟨_, hab, hab'⟩
      · exact ih hS ha

theorem forall₂_of_mem (h : List.Forall₂ R l r) (himp : ∀ a ∈ l, ∀ b, R a b → S a b) :
    List.Forall₂ S l r := by
  induction h with
  | nil => exact .nil
  | cons hab _ ih =>
    exact .cons (himp _ mem_cons_self _ hab)
      (ih fun a ha => himp a (mem_cons_of_mem _ ha))

variable {limits : RawModelStructureLimits} {expanded : ExpandedProcess}

/-- **Data flow through expansion.**  The operands of an expanded process are produced and denote the
values of the source exactly when the operands of the source are settled. -/
theorem keepsDataFlow_iff_settled (hfile : file.WellFormed) (hprocess : process ∈ file.processes)
    (hrun : expandProcess limits file process = some expanded) :
    KeepsDataFlow file expanded ↔ OperandsSettled file process := by
  unfold expandProcess at hrun
  split at hrun
  · cases hrun
  obtain ⟨callGraph, hgraph, hrun⟩ := Option.bind_eq_some_iff.mp hrun
  obtain ⟨s₀, hstart, hrun⟩ := Option.bind_eq_some_iff.mp hrun
  obtain ⟨s, hpending, hrun⟩ := Option.bind_eq_some_iff.mp hrun
  cases hrun
  obtain ⟨visited, h, hs⟩ := Inv.expandPending hfile hprocess (find_of_validated hgraph)
    (Inv.start hfile hprocess hstart) hpending
  have hschedule := h.schedule
  rw [hs] at hschedule
  have hcalls : ∀ context call k, Reached file process context (.call call) → k < call.results →
      Known file process visited (.result call.id k) context :=
    fun context call k hreach hk => .result (t := ⟨.call call, context⟩) (hschedule.complete hreach) hk
  constructor
  · intro hkeeps context op hreach
    have hvisited := hschedule.complete hreach
    refine ⟨fun hop v hv => ?_, ?_⟩
    · obtain ⟨kind, hkind, hv⟩ := exists_reads hop hv
      obtain ⟨a, ha, rfl, rfl, rfl⟩ := h.complete _ hvisited kind hkind
      obtain ⟨ps, qs, hoperands, hreads, _⟩ := (h.sound a ha).operands
      have hflow := forall₂_take_append _ _ _ (hoperands ▸ hkeeps a ha)
      rw [← hreads.length_eq, take_left] at hflow
      obtain ⟨p, hlate, hproduced, _⟩ := exists_of_forall₂ hreads hflow hv
      obtain ⟨hsettled, _⟩ | ⟨_, hnot⟩ := hlate.resolved.dichotomy hfile hprocess
      · exact hsettled
      · exact absurd ((h.produced_iff hs).mp hproduced) hnot
    · rintro id lower upper step inits body rfl v hv
      obtain ⟨a, ha, hkind, hop, rfl⟩ :=
        h.complete _ hvisited .forIncrement (by simp [kinds])
      obtain ⟨ps, qs, hoperands, hreads, hyields⟩ := (h.sound a ha).operands
      have hflow := forall₂_drop_append _ _ _ (hoperands ▸ hkeeps a ha)
      rw [← hreads.length_eq, drop_left] at hflow
      rw [hkind, hop] at hyields hflow
      obtain ⟨p, hslot, hproduced, _⟩ := exists_of_forall₂ hyields hflow hv
      obtain ⟨hsettled, _⟩ | ⟨_, hnot⟩ :=
        YieldSlot.dichotomy hfile hprocess hcalls hreach hslot
      · exact hsettled
      · exact absurd ((h.produced_iff hs).mp hproduced) hnot
  · intro hsettled a ha
    have haction := h.sound a ha
    obtain ⟨ps, qs, hoperands, hreads, hyields⟩ := haction.operands
    rw [hoperands]
    refine rel_append ?_ ?_
    · refine forall₂_of_mem hreads fun v hv p hlate => ?_
      have hv := settled_reads hfile hprocess hsettled haction.reached haction.kind_mem hv
      obtain ⟨_, hp, hd⟩ | ⟨hnot, _⟩ := hlate.resolved.dichotomy hfile hprocess
      · exact ⟨(h.produced_iff hs).mpr hp, hd⟩
      · exact absurd hv hnot
    · refine forall₂_of_mem hyields fun v hv p hslot => ?_
      have hreach := haction.reached
      have hkind := haction.kind_mem
      generalize a.operation = op at hslot hreach hkind hv
      cases op with
      | forOp id lower upper step inits body =>
        have hv : v ∈ yielded body := by
          revert hv
          cases a.kind <;> simp [yields]
        have hv := (hsettled _ _ hreach).2 id lower upper step inits body rfl v hv
        obtain ⟨_, hp, hd⟩ | ⟨hnot, _⟩ := YieldSlot.dichotomy hfile hprocess hcalls hreach hslot
        · exact ⟨(h.produced_iff hs).mpr hp, hd⟩
        · exact absurd hv hnot
      | _ => cases hslot

end flow

/-! ### A function that returns the result of another call -/

/-- `@g` doubles its argument and `@f` returns what `@g` returns. -/
def doubleFunction : Function where
  id := 20
  name := "g"
  arguments := 1
  results := 1
  body := [.simple 21 (.arith "addi") [.argument 20 0 0, .argument 20 0 0] 1 none true,
    .ret 22 [.result 21 0]]

def forwardFunction : Function where
  id := 10
  name := "f"
  arguments := 1
  results := 1
  body := [.call ⟨11, "g", [.argument 10 0 0], 1⟩, .ret 12 [.result 11 0]]

/-- A process that adds what the callee returns for its capture to a statistic. -/
def callingProcess (callee : String) : Process where
  id := 0
  owner := "m"
  name := "p"
  captures := 1
  body := [.call ⟨1, callee, [.argument 0 0 0], 1⟩, .simple 2 .statAdd [.result 1 0] 0 none false,
    .simple 3 .yieldSim [] 0 none false]

def callingFile (callee : String) : File where
  processes := [callingProcess callee]
  functions := [forwardFunction, doubleFunction]

theorem callingFile_wellFormed {callee : String} (h : callee = "f" ∨ callee = "g") :
    (callingFile callee).WellFormed where
  ids_nodup := by obtain rfl | rfl := h <;> decide +kernel
  process_dominated := by obtain rfl | rfl := h <;> decide +kernel
  function_dominated := by obtain rfl | rfl := h <;> decide +kernel
  returnsLast := by obtain rfl | rfl := h <;> decide +kernel
  callMatches := by obtain rfl | rfl := h <;> decide +kernel

/-- The operands that are captures or results of actions, as a test. -/
def ExpandedProcess.operandsProduced (expanded : ExpandedProcess) : Bool :=
  expanded.actions.all fun a => a.operands.all fun p =>
    (List.range expanded.process.captures).any
        (fun i => p == .original (.argument expanded.process.id 0 i) .root) ||
      expanded.actions.any fun producer => producer.results.contains p

theorem KeepsDataFlow.operandsProduced {file : File} {expanded : ExpandedProcess}
    (h : KeepsDataFlow file expanded) : expanded.operandsProduced = true := by
  rw [ExpandedProcess.operandsProduced, all_eq_true]
  intro a ha
  rw [all_eq_true]
  intro p hp
  have hflow := (h a ha).flip
  obtain ⟨v, _, hproduced, _⟩ := exists_of_forall₂ hflow hflow hp
  rw [Bool.or_eq_true, any_eq_true, any_eq_true]
  refine hproduced.imp ?_ ?_
  · rintro ⟨i, hi, rfl⟩
    exact ⟨i, mem_range.mpr hi, beq_self_eq_true _⟩
  · rintro ⟨producer, hmem, hresult⟩
    exact ⟨producer, hmem, contains_iff_mem.mpr hresult⟩

/-- The statistic reads the result of the inner call, which no action produces. -/
theorem nested_call_unproduced : ∃ expanded, (callingFile "f").WellFormed ∧
    callingProcess "f" ∈ (callingFile "f").processes ∧
    expandProcess {} (callingFile "f") (callingProcess "f") = some expanded ∧
    ¬ KeepsDataFlow (callingFile "f") expanded := by
  have hsome : (expandProcess {} (callingFile "f") (callingProcess "f")).isSome = true := by
    decide +kernel
  obtain ⟨expanded, hexpanded⟩ := Option.isSome_iff_exists.mp hsome
  refine ⟨expanded, callingFile_wellFormed (.inl rfl), mem_singleton_self _, hexpanded, ?_⟩
  intro hkeeps
  have hproduced : (expandProcess {} (callingFile "f") (callingProcess "f")).map
      ExpandedProcess.operandsProduced = some false := by decide +kernel
  rw [hexpanded, Option.map_some, hkeeps.operandsProduced] at hproduced
  cases hproduced

theorem reached_direct {context : ExpansionContext} {op : Operation}
    (h : Reached (callingFile "g") (callingProcess "g") context op) :
    (context = .root ∧ op ∈ (callingProcess "g").body) ∨
      (context = ExpansionContext.root.enter ⟨1, "g", [.argument 0 0 0], 1⟩ ∧
        op ∈ doubleFunction.body) := by
  induction h with
  | body hop => exact .inl ⟨rfl, hop⟩
  | region _ hop ih =>
    obtain ⟨_, hparent⟩ | ⟨_, hparent⟩ := ih
    all_goals
      simp only [callingProcess, doubleFunction, mem_cons, not_mem_nil, or_false]
        at hparent
    · obtain rfl | rfl | rfl := hparent <;> cases hop
    · obtain rfl | rfl := hparent <;> cases hop
  | callee _ hf hop ih =>
    obtain ⟨rfl, hparent⟩ | ⟨_, hparent⟩ := ih
    all_goals
      simp only [callingProcess, doubleFunction, mem_cons, not_mem_nil, or_false,
        call.injEq, reduceCtorEq] at hparent
    subst hparent
    cases hf
    exact .inr ⟨rfl, hop⟩

theorem direct_settled : OperandsSettled (callingFile "g") (callingProcess "g") := by
  intro context op hreach
  obtain ⟨rfl, hop⟩ | ⟨rfl, hop⟩ := reached_direct hreach
  all_goals
    simp only [callingProcess, doubleFunction, mem_cons, not_mem_nil, or_false] at hop
  · obtain rfl | rfl | rfl := hop
    · exact ⟨by simp [Operation.isAction], by simp⟩
    · refine ⟨fun _ v hv => ?_, by simp⟩
      obtain rfl := mem_singleton.mp hv
      exact .computed (f := doubleFunction) rfl rfl rfl rfl rfl
    · exact ⟨fun _ v hv => (by cases hv), by simp⟩
  · obtain rfl | rfl := hop
    · refine ⟨fun _ v hv => ?_, by simp⟩
      obtain rfl : v = .argument 20 0 0 := by simpa [operands] using hv
      exact .argument (v := .argument 0 0 0) rfl rfl (.capture rfl)
    · exact ⟨by simp [Operation.isAction], by simp⟩

/-- A function that computes what it returns. -/
theorem keepsDataFlow_direct : ∃ expanded,
    expandProcess {} (callingFile "g") (callingProcess "g") = some expanded ∧
    KeepsDataFlow (callingFile "g") expanded := by
  have hsome : (expandProcess {} (callingFile "g") (callingProcess "g")).isSome = true := by
    decide +kernel
  obtain ⟨expanded, hexpanded⟩ := Option.isSome_iff_exists.mp hsome
  exact ⟨expanded, hexpanded, (keepsDataFlow_iff_settled (callingFile_wellFormed (.inr rfl))
    (mem_singleton_self _) hexpanded).mpr direct_settled⟩

end AgenticCircuit.ProcessPlan
