import AgenticCircuit.ProcessPlan.Forwarding

/-! # What a turn of expansion keeps

A turn of the loop keeps `Inv`: known values are resolved as `Resolved` has it, unknown ones stand for
themselves, and the operands of the actions so far are `Late` or, for yielded values, `YieldSlot`.  A
call result may wait for an inner call (`Waiting`); when the stack is back in the context of the call,
it does not wait any more. -/

namespace AgenticCircuit.ProcessPlan

open List Expansion Environment ExpansionContext PlannedValue
open Bool (and_eq_true)

/-! ### The operands of an action in the source -/

/-- The actions of an operation. -/
def Operation.kinds : Operation → List ActionKind
  | .simple .. | .instrumentation .. => [.original]
  | .forOp .. => [.forInitialize, .forCondition, .forIncrement]
  | _ => []

/-- The values an action reads when its operation is visited. -/
def reads : ActionKind → Operation → List Value
  | .original, op => op.operands
  | .forInitialize, .forOp _ lower _ _ inits _ => lower :: inits
  | .forCondition, .forOp id _ upper _ _ _ => [inductionVar id, upper]
  | .forIncrement, .forOp id _ _ step inits _ =>
    [inductionVar id, step] ++ iterArgs id inits.length
  | _, _ => []

/-- The values that a loop yields, the last operands of its increment. -/
def yields : ActionKind → Operation → List Value
  | .forIncrement, .forOp _ _ _ _ _ body => yielded body
  | _, _ => []

/-- **Data flow is kept.**  Every operand of every action is a capture or a result of an action, and
denotes what the operand of the source does. -/
def KeepsDataFlow (file : File) (expanded : ExpandedProcess) : Prop :=
  ∀ a ∈ expanded.actions, Forall₂
    (fun v p =>
      ((∃ i < expanded.process.captures,
          p = .original (.argument expanded.process.id 0 i) .root) ∨
        ∃ producer ∈ expanded.actions, p ∈ producer.results) ∧
      Denotes file expanded.process a.context v p)
    (reads a.kind a.operation ++ yields a.kind a.operation) a.operands

def plannedResults : ActionKind → Operation → ExpansionContext → List PlannedValue
  | .original, op, context => op.results.map (.original · context)
  | .forInitialize, .forOp id _ _ _ inits _, context =>
    .synthetic id context .initialization 0 :: (iterArgs id inits.length).map (.original · context)
  | .forCondition, .forOp id _ _ _ _ _, context => [.synthetic id context .condition 0]
  | .forIncrement, .forOp id _ _ _ inits _, context =>
    .synthetic id context .increment 0 ::
      (List.range inits.length).map fun i => .synthetic id context .increment (i + 1)
  | _, _, _ => []

/-! ### What a turn keeps -/

section invariant

variable (file : File) (process : Process)

/-- The value in place of one that the operation yields. -/
def Yields (known : Value → ExpansionContext → Prop) (context : ExpansionContext) :
    Operation → Value → PlannedValue → Prop
  | .forOp id _ _ _ _ body, v, p => YieldSlot file process known context id body v p
  | _, _, _ => False

structure ActionOf (known : Value → ExpansionContext → Prop) (a : ExpandedAction) : Prop where
  reached : Reached file process a.context a.operation
  kind_mem : a.kind ∈ a.operation.kinds
  results : a.results = plannedResults a.kind a.operation a.context
  operands : ∃ ps qs, a.operands = ps ++ qs ∧
    Forall₂ (Late file process known a.context) (reads a.kind a.operation) ps ∧
    Forall₂ (Yields file process known a.context a.operation) (yields a.kind a.operation) qs

/-- A call result stands for itself only until its call is visited, deeper in the stack. -/
def Waiting (visited pending : List Task) (context : ExpansionContext) (p : PlannedValue) : Prop :=
  ∀ id k inner call, p = .original (.result id k) inner →
    file.owner id = some (.operation (.call call)) →
    Known file process visited (.result id k) inner ∨
      (⟨.call call, inner⟩ ∈ pending ∧ k < call.results ∧
        context.callSites.length < inner.callSites.length)

structure Inv (visited : List Task) (s : Expansion) : Prop where
  schedule : Schedule file process visited s.pending
  unknown : ∀ v context, ¬ Known file process visited v context →
    s.environment.value v context = .original v context
  resolved : ∀ v context, Known file process visited v context →
    Resolved file process context v (s.environment.value v context)
  waiting : ∀ v context, Known file process visited v context →
    Waiting file process visited s.pending context (s.environment.value v context)
  sound : ∀ a ∈ s.actions, ActionOf file process (Known file process visited) a
  complete : ∀ t ∈ visited, ∀ kind ∈ t.operation.kinds,
    ∃ a ∈ s.actions, a.kind = kind ∧ a.operation = t.operation ∧ a.context = t.context

end invariant

section steps

variable {file : File} {process : Process} {known known' : Value → ExpansionContext → Prop}
  {ρ : PlannedValue → PlannedValue}
variable {context : ExpansionContext} {f : Function} {inits : List Value} {k : ℕ} {p : PlannedValue}
  {upper v : Value}

theorem Late.mono (hmono : ∀ v context, known v context → known' v context)
    (h : Late file process known context v p) : Late file process known' context v p :=
  ⟨h.resolved, fun id k c call hp ho => hmono _ _ (h.fixed id k c call hp ho)⟩

section

variable (hlate : ∀ context v p, Late file process known context v p →
      Late file process known' context v (ρ p))
    (hown : ∀ context op m, Reached file process context op → m < op.numResults →
      (∀ call, op = .call call → ¬ known (.result op.id m) context) →
      Early file process known' context (.result op.id m) (ρ (.original (.result op.id m) context)))

include hlate hown

theorem Early.map (h : Early file process known context v p) :
    Early file process known' context v (ρ p) := by
  induction h with
  | own hreach hm hunknown => exact hown _ _ _ hreach hm hunknown
  | passed hreach hf hret hv h => exact .passed hreach hf hret hv (hlate _ _ _ h)
  | returned hreach hf hret _ ih => exact .returned hreach hf hret ih

theorem ActionOf.map
    (hinduction : ∀ context id lower upper step inits body,
      Reached file process context (.forOp id lower upper step inits body) →
      ρ (.original (inductionVar id) context) = .original (inductionVar id) context)
    {a : ExpandedAction} (h : ActionOf file process known a) :
    ActionOf file process known' (mapOperands ρ a) where
  reached := h.reached
  kind_mem := h.kind_mem
  results := h.results
  operands := by
    obtain ⟨ps, qs, hoperands, hreads, hyields⟩ := h.operands
    refine ⟨ps.map ρ, qs.map ρ, ?_, ?_, ?_⟩
    · simp [mapOperands, hoperands]
    · rw [forall₂_map_right_iff]
      exact hreads.imp fun v p => hlate _ v p
    · rw [forall₂_map_right_iff]
      refine hyields.imp fun v p hslot => ?_
      have hreach := h.reached
      show Yields file process known' a.context a.operation v (ρ p)
      generalize a.operation = op at hslot hreach
      cases op with
      | forOp id lower upper step inits body =>
        cases hslot with
        | induction =>
          rw [hinduction _ _ _ _ _ _ _ hreach]
          exact .induction
        | inside hne hin hearly => exact .inside hne hin (hearly.map hlate hown)
        | outside hne hout h => exact .outside hne hout (hlate _ _ _ h)
      | _ => cases hslot

end

variable {scope : List Value}

theorem mem_scope_of_dominated {op : Operation} (h : op.dominated scope = true) :
    ∀ v ∈ op.operands, v ∈ scope := by
  intro v hv
  cases op with
  | forOp id lower upper step inits body =>
    rw [Operation.dominated, and_eq_true] at h
    simpa using all_eq_true.mp h.1 v hv
  | ifOp id condition results thenBody elseBody =>
    rw [Operation.dominated, and_eq_true, and_eq_true] at h
    obtain rfl := mem_singleton.mp hv
    simpa using h.1.1
  | whileOp id inits results before after =>
    rw [Operation.dominated, and_eq_true, and_eq_true] at h
    simpa using all_eq_true.mp h.1.1 v hv
  | instrumentation id body => cases hv
  | _ => simpa using all_eq_true.mp h v hv

variable {visited rest : List Task} {t : Task} {s s' : Expansion}

theorem Inv.late (h : Inv file process visited s) (hs : s.pending = t :: rest)
    (hv : Known file process visited v t.context) :
    Late file process (Known file process visited) t.context v
      (s.environment.value v t.context) := by
  refine ⟨h.resolved v _ hv, fun id k inner call hp ho => ?_⟩
  obtain hknown | ⟨hpending, _, hlt⟩ := h.waiting v _ hv id k inner call hp ho
  · exact hknown
  · have hstacked := h.schedule.stacked
    rw [hs] at hpending hstacked
    obtain heq | hmem := mem_cons.mp hpending
    · rw [← heq] at hlt
      exact absurd hlt (lt_irrefl _)
    · have := ((pairwise_cons.mp hstacked).1 _ hmem).length_le
      simp only at this
      omega

theorem Inv.reached (h : Inv file process visited s) (hs : s.pending = t :: rest)
    (hop : t.operation = op) : Reached file process t.context op :=
  hop ▸ h.schedule.reached t (by simp [hs])

theorem Inv.operand_known (h : Inv file process visited s) (hs : s.pending = t :: rest) :
    ∀ v ∈ t.operation.operands, Known file process visited v t.context := by
  have hready := h.schedule.ready
  rw [hs] at hready
  obtain ⟨⟨scope, hscope, hdom⟩, _⟩ := hready
  exact fun v hv => hscope v (mem_scope_of_dominated hdom v hv)

theorem Waiting.step (h : Waiting file process visited (t :: rest) context p) (tasks : List Task) :
    Waiting file process (t :: visited) (tasks ++ rest) context p := by
  intro id k inner call hp ho
  obtain hknown | ⟨hpending, hk, hlt⟩ := h id k inner call hp ho
  · exact .inl (hknown.mono (subset_cons_self _ _))
  · obtain heq | hpending := mem_cons.mp hpending
    · -- the call itself is visited now
      obtain rfl : call.id = id := File.id_of_owner ho
      left
      rw [← heq]
      exact Known.result (t := ⟨.call call, inner⟩) mem_cons_self hk
    · exact .inr ⟨mem_append_right _ hpending, hk, hlt⟩

/-- What a task makes known. -/
inductive Defines (file : File) (t : Task) : Value → ExpansionContext → Prop
  | result {k : ℕ} : k < t.operation.numResults →
      Defines file t (.result t.operation.id k) t.context
  | loopArgument {id j : ℕ} {lower upper step : Value} {inits : List Value} {body : List Operation} :
      t.operation = .forOp id lower upper step inits body → j ≤ inits.length →
      Defines file t (.argument id 0 j) t.context
  | whileArgument {id results block i : ℕ} {inits : List Value} {before after : List Operation} :
      t.operation = .whileOp id inits results before after →
      Defines file t (.argument id block i) t.context
  | argument {call : Call} {f : Function} {j : ℕ} : t.operation = .call call →
      file.lookup call.callee = some f → j < f.arguments →
      Defines file t (.argument f.id 0 j) (t.context.enter call)

theorem known_cons : Known file process (t :: visited) v context ↔
      Known file process visited v context ∨ Defines file t v context := by
  constructor
  · intro h
    cases h with
    | capture hi => exact .inl (.capture hi)
    | result hx hk =>
      obtain rfl | hx := mem_cons.mp hx
      · exact .inr (.result hk)
      · exact .inl (.result hx hk)
    | loopArgument hx hop hj =>
      obtain rfl | hx := mem_cons.mp hx
      · exact .inr (.loopArgument hop hj)
      · exact .inl (.loopArgument hx hop hj)
    | whileArgument hx hop =>
      obtain rfl | hx := mem_cons.mp hx
      · exact .inr (.whileArgument hop)
      · exact .inl (.whileArgument hx hop)
    | argument hx hop hf hj =>
      obtain rfl | hx := mem_cons.mp hx
      · exact .inr (.argument hop hf hj)
      · exact .inl (.argument hx hop hf hj)
  · rintro (h | h)
    · exact h.mono (subset_cons_self _ _)
    · cases h with
      | result hk => exact .result mem_cons_self hk
      | loopArgument hop hj => exact .loopArgument mem_cons_self hop hj
      | whileArgument hop => exact .whileArgument mem_cons_self hop
      | argument hop hf hj => exact .argument mem_cons_self hop hf hj

theorem known_nil : Known file process [] v context ↔
      ∃ i < process.captures, v = .argument process.id 0 i ∧ context = .root := by
  constructor
  · intro h
    cases h with
    | capture hi => exact ⟨_, hi, rfl, rfl⟩
    | result hx _ => cases hx
    | loopArgument hx _ _ => cases hx
    | whileArgument hx _ => cases hx
    | argument hx _ _ _ => cases hx
  · rintro ⟨i, hi, rfl, rfl⟩
    exact .capture hi

theorem Defines.result_id {id : ℕ}
    (h : Defines file t (.result id k) context) : id = t.operation.id := by
  generalize hv : Value.result id k = v at h
  cases h with
  | result _ => exact (Value.result.inj hv).1
  | _ => cases hv

theorem Defines.result_context {id : ℕ}
    (h : Defines file t (.result id k) context) : context = t.context := by
  generalize hv : Value.result id k = v at h
  cases h with
  | result _ => rfl
  | _ => cases hv

variable {j : ℕ} {call : Call} {r : Value}

theorem Known.exists_task {id : ℕ} (h : Known file process visited (.result id k) context) :
    ∃ x ∈ visited, x.key = (id, context) := by
  generalize hv : Value.result id k = v at h
  cases h with
  | @result x _ hx _ =>
    obtain ⟨hid, _⟩ := Value.result.inj hv
    exact ⟨x, hx, Prod.ext hid.symm rfl⟩
  | _ => cases hv

theorem Inv.result_unknown (h : Inv file process visited s) {x : Task} (hx : x ∈ s.pending)
    {op : Operation} (hop : op ∈ x.operation.tree) (k : ℕ) :
    ¬ Known file process visited (.result op.id k) x.context := by
  intro hv
  obtain ⟨y, hy, hkey⟩ := hv.exists_task
  have hnodup := h.schedule.keys_nodup
  rw [nodup_append'] at hnodup
  refine hnodup.2.2 (mem_map_of_mem hy) (mem_flatMap.mpr ⟨x, hx, ?_⟩)
  rw [hkey]
  exact mem_map_of_mem hop

theorem mem_tree_self (op : Operation) : op ∈ op.tree := by
  cases op <;> simp [Operation.tree]

theorem mem_terminator {ops : List Operation} {last : Operation}
    (hdom : blockDominated scope ops = true) (hlast : ops.getLast? = some last) :
    ∀ v ∈ last.operands, v ∈ scope ∨ DefinedIn ops v := by
  induction ops generalizing scope with
  | nil => cases hlast
  | cons op ops ih =>
    rw [blockDominated, and_eq_true] at hdom
    intro v hv
    cases ops with
    | nil =>
      cases hlast
      exact .inl (mem_scope_of_dominated hdom.1 v hv)
    | cons next ops =>
      rw [getLast?_cons_cons] at hlast
      obtain hmem | ⟨o, ho, hmem⟩ := ih hdom.2 hlast v hv
      · obtain hmem | hmem := mem_append.mp hmem
        · exact .inr ⟨op, mem_cons_self, hmem⟩
        · exact .inl hmem
      · exact .inr ⟨o, mem_cons_of_mem _ ho, hmem⟩

theorem mem_yielded {body : List Operation} (hdom : blockDominated scope body = true) :
    ∀ v ∈ yielded body, v ∈ scope ∨ DefinedIn body v := by
  intro v hv
  unfold yielded at hv
  split at hv
  · rename_i hlast
    exact mem_terminator hdom hlast v hv
  · cases hv

theorem Inv.callee_unknown (h : Inv file process visited s) (hs : s.pending = t :: rest)
    (hop : t.operation = .call call) (o m : ℕ) :
    ¬ Known file process visited (.result o m) (t.context.enter call) := by
  have hschedule := h.schedule
  rw [hs] at hschedule
  intro hv
  obtain ⟨x, hx, hkey⟩ := hv.exists_task
  exact hschedule.context_ne hop x (by simp [hx]) (congrArg Prod.snd hkey)

theorem returns_length (h : f.returnsLast = true) : f.returns.length = f.results := by
  unfold Function.returnsLast at h
  rw [and_eq_true] at h
  unfold Function.returns
  cases hend : f.body.getLast? with
  | none => simp [hend] at h
  | some last =>
    cases last with
    | ret id operands => simpa [hend] using h.2
    | _ => simp [hend] at h

/-- The pairs of operands and arguments of a call. -/
def argumentPairs (call : Call) (f : Function) : List (Value × Value) :=
  call.operands.zip (blockArguments f.id 0 f.arguments)

/-- The pairs of returned values and results of a call. -/
def resultPairs (call : Call) (f : Function) : List (Value × Value) :=
  f.returns.zip ((List.range call.results).map (.result call.id))

theorem argumentPairs_snd (h : call.operands.length = f.arguments) :
    (argumentPairs call f).map Prod.snd = blockArguments f.id 0 f.arguments := by
  rw [argumentPairs, map_snd_zip]
  simp [blockArguments, h]

theorem resultPairs_snd (h : f.returns.length = call.results) :
    (resultPairs call f).map Prod.snd = (List.range call.results).map (.result call.id) := by
  rw [resultPairs, map_snd_zip]
  simp [h]

theorem mem_argumentPairs (h : call.operands.length = f.arguments)
    (hv : call.operands[j]? = some v) : (v, .argument f.id 0 j) ∈ argumentPairs call f := by
  have hj : j < f.arguments := h ▸ (List.getElem?_eq_some_iff.mp hv).1
  refine mem_of_getElem? (i := j) (getElem?_zip_eq_some.mpr ⟨hv, ?_⟩)
  simp [blockArguments, hj]

theorem mem_resultPairs (h : f.returns.length = call.results) (hr : f.returns[k]? = some r) :
    (r, .result call.id k) ∈ resultPairs call f := by
  have hk : k < call.results := h ▸ (List.getElem?_eq_some_iff.mp hr).1
  refine mem_of_getElem? (i := k) (getElem?_zip_eq_some.mpr ⟨hr, ?_⟩)
  simp [hk]

variable (hfile : file.WellFormed) (hprocess : process ∈ file.processes)

include hfile hprocess

theorem Known.of_result {id : ℕ} {call : Call}
    (ht : Reached file process t.context t.operation) (hop : ∀ call, t.operation ≠ .call call)
    (ho : file.owner id = some (.operation (.call call)))
    (h : Known file process (t :: visited) (.result id k) context) :
    Known file process visited (.result id k) context := by
  generalize hv : Value.result id k = v at h
  cases h with
  | result hx hk =>
    obtain rfl | hx := mem_cons.mp hx
    · cases hv
      have heq := ho.symm.trans (ht.owner hfile hprocess)
      simp only [Option.some.injEq, Owner.operation.injEq] at heq
      exact absurd heq.symm (hop call)
    · exact .result hx hk
  | _ => cases hv

section

variable (h : Inv file process visited s) (hs : s.pending = t :: rest)

include h hs

variable {new : List ExpandedAction}

/-- A turn for an operation other than a call. -/
theorem Inv.of_region (hop : ∀ call, t.operation ≠ .call call)
    (hpending : s'.pending = t.children file ++ rest) (hactions : s'.actions = s.actions ++ new)
    (hsame : ∀ v context, Known file process visited v context ∨
      ¬ Known file process (t :: visited) v context → s'.environment.value v context =
      s.environment.value v context)
    (hresolved : ∀ v context, Known file process (t :: visited) v context →
      ¬ Known file process visited v context →
      Resolved file process context v (s'.environment.value v context))
    (hnocall : ∀ v context, Known file process (t :: visited) v context →
      ¬ Known file process visited v context → ∀ id k inner call, s'.environment.value v context =
      .original (.result id k) inner → file.owner id ≠ some (.operation (.call call)))
    (hsound : ∀ a ∈ new, ActionOf file process (Known file process (t :: visited)) a)
    (hcomplete : ∀ kind ∈ t.operation.kinds, ∃ a ∈ new, a.kind = kind ∧ a.operation = t.operation ∧
      a.context = t.context) : Inv file process (t :: visited) s' := by
  have hschedule := h.schedule
  have hwaiting := h.waiting
  rw [hs] at hschedule hwaiting
  have ht : Reached file process t.context t.operation := hschedule.reached t (by simp)
  have hsub : ∀ v context, Known file process visited v context →
      Known file process (t :: visited) v context :=
    fun _ _ hv => hv.mono (subset_cons_self _ _)
  refine ⟨?_, ?_, ?_, ?_, ?_, ?_⟩
  · rw [hpending]
    exact hschedule.step hfile fun call heq => absurd heq (hop call)
  · intro v context hv
    rw [hsame v context (.inr hv)]
    exact h.unknown v context fun hold => hv (hsub v context hold)
  · intro v context hv
    by_cases hold : Known file process visited v context
    · rw [hsame v context (.inl hold)]
      exact h.resolved v context hold
    · exact hresolved v context hv hold
  · intro v context hv
    by_cases hold : Known file process visited v context
    · rw [hsame v context (.inl hold), hpending]
      exact (hwaiting v context hold).step _
    · intro id k inner call hp ho
      exact absurd ho (hnocall v context hv hold id k inner call hp)
  · intro a ha
    rw [hactions] at ha
    obtain ha | ha := mem_append.mp ha
    · have hmap : ActionOf file process (Known file process (t :: visited))
          (mapOperands id a) := (h.sound a ha).map
        (fun context v p hlate => hlate.mono hsub)
        (fun context op m hreach hm hunknown => .own hreach hm fun call heq hnew =>
          hunknown call heq (Known.of_result hfile hprocess ht hop
            (by rw [← heq]; exact hreach.owner hfile hprocess) hnew))
        (fun _ _ _ _ _ _ _ _ => rfl)
      rwa [mapOperands_id] at hmap
    · exact hsound a ha
  · intro x hx kind hkind
    rw [hactions]
    obtain rfl | hx := mem_cons.mp hx
    · obtain ⟨a, ha, hspec⟩ := hcomplete kind hkind
      exact ⟨a, mem_append_right _ ha, hspec⟩
    · obtain ⟨a, ha, hspec⟩ := h.complete x hx kind hkind
      exact ⟨a, mem_append_left _ ha, hspec⟩

/-- A turn that binds nothing. -/
theorem Inv.of_unbound (hop : ∀ call, t.operation ≠ .call call)
    (hloop : ∀ id lower upper step inits body, t.operation ≠ .forOp id lower upper step inits body)
    (hpending : s'.pending = t.children file ++ rest) (hactions : s'.actions = s.actions ++ new)
    (hvalue : s'.environment.value = s.environment.value)
    (hsound : ∀ a ∈ new, ActionOf file process (Known file process (t :: visited)) a)
    (hcomplete : ∀ kind ∈ t.operation.kinds, ∃ a ∈ new, a.kind = kind ∧ a.operation = t.operation ∧
      a.context = t.context) : Inv file process (t :: visited) s' := by
  have ht := h.reached hs rfl
  refine h.of_region hfile hprocess hs hop hpending hactions (fun _ _ _ => by rw [hvalue]) ?_ ?_
    hsound hcomplete
  · intro v context hv hold
    rw [hvalue, h.unknown v context hold]
    cases (known_cons.mp hv).resolve_left hold with
    | result hk => exact .result ht hk hop hloop
    | loopArgument heq _ => exact absurd heq (hloop _ _ _ _ _ _)
    | whileArgument heq => exact .whileArgument (heq ▸ ht)
    | argument heq _ _ => exact absurd heq (hop _)
  · intro v context hv hold id k inner call hp ho
    rw [hvalue, h.unknown v context hold] at hp
    cases hp
    exact hold (Known.of_result hfile hprocess ht hop ho hv)

omit hfile hprocess in
theorem Inv.reads_late {vs : List Value} (hvs : ∀ v ∈ vs, Known file process visited v t.context) :
    Forall₂ (Late file process (Known file process (t :: visited)) t.context) vs
      (vs.map (s.environment.value · t.context)) := by
  rw [forall₂_map_right_iff, forall₂_same]
  exact fun v hv => (h.late hs (hvs v hv)).mono fun _ _ hv => hv.mono (subset_cons_self _ _)

end

/-- A turn that adds an action with the operands and results of the operation. -/
theorem Inv.addOriginalAction (h : Inv file process visited s) (hs : s.pending = t :: rest)
    (hkinds : t.operation.kinds = [.original]) (hpushed : t.operation.pushed = [])
    (hop : ∀ call, t.operation ≠ .call call)
    (hloop : ∀ id lower upper step inits body,
      t.operation ≠ .forOp id lower upper step inits body) : Inv file process (t :: visited)
      (Expansion.addOriginalAction t.operation t.context { s with pending := rest }) := by
  have ht := h.reached hs rfl
  refine h.of_unbound hfile hprocess hs hop hloop ?_ rfl ?_ ?_ ?_
  · rw [children_of_ne_call hop, hpushed]
    rfl
  · simp only [Expansion.addOriginalAction, defineValues_value,
      resolveValues_value ht.iterations]
  · intro a ha
    obtain rfl := mem_singleton.mp ha
    refine ⟨ht, by rw [hkinds]; exact mem_cons_self, ?_, _, [], (append_nil _).symm, ?_,
      .nil⟩
    · simp only [defineValues_fst, resolveValues_value ht.iterations]
      refine map_congr_left fun v hv => ?_
      obtain ⟨k, _, rfl⟩ := mem_map.mp hv
      exact h.unknown _ _ (h.result_unknown (by simp [hs]) (mem_tree_self _) k)
    · simp only [resolveValues_fst ht.iterations]
      exact h.reads_late hs (h.operand_known hs)
  · intro kind hkind
    rw [hkinds] at hkind
    obtain rfl := mem_singleton.mp hkind
    exact ⟨_, mem_singleton_self _, rfl, rfl, rfl⟩

section

variable (h : Inv file process visited s) (hs : s.pending = t :: rest)

include h hs

variable {id : ℕ} {lower step : Value} {body : List Operation}

theorem Inv.loopArgument_unknown (hop : t.operation = .forOp id lower upper step inits body)
    (j : ℕ) : ¬ Known file process visited (.argument id 0 j) t.context := by
  have ho := (h.reached hs hop).owner hfile hprocess
  have hkey := h.schedule
  rw [hs] at hkey
  intro hv
  generalize heq : Value.argument id 0 j = v at hv
  generalize hcontext : t.context = context at hv
  cases hv with
  | capture _ =>
    cases heq
    cases ho.symm.trans (owner_process hfile hprocess)
  | result _ _ => cases heq
  | @loopArgument x id' _ _ _ _ _ _ hx hop' _ =>
    cases heq
    refine hkey.key_notMem (mem_map.mpr ⟨x, hx, ?_⟩)
    rw [Task.key, Task.key, hop, hop', hcontext]
    rfl
  | @whileArgument x _ _ _ _ _ _ _ hx hop' =>
    cases heq
    have hreach := h.schedule.reached x (by simp [hx])
    rw [hop'] at hreach
    cases ho.symm.trans (hreach.owner hfile hprocess)
  | argument _ _ hf _ =>
    cases heq
    cases ho.symm.trans (owner_function hfile hf)

omit hfile hprocess in
theorem Inv.body_id_ne (hop : t.operation = .forOp id lower upper step inits body) {op : Operation}
    (hmem : op ∈ body) : op.id ≠ id := by
  have hnodup := h.schedule.keys_nodup
  rw [hs, flatMap_cons] at hnodup
  have hkeys : t.keys.Nodup := hnodup.of_append_right.of_append_left
  rw [Task.keys, hop, Operation.tree, map_cons, nodup_cons] at hkeys
  intro heq
  refine hkeys.1 (mem_map.mpr ⟨op, mem_trees hmem, ?_⟩)
  rw [heq]
  rfl

/-- The state after the actions of a loop, seen through the values. -/
structure LoopBound (id count : ℕ) (context : ExpansionContext)
    (value value' : Value → ExpansionContext → PlannedValue) : Prop where
  results : ∀ i < count, value' (.result id i) context = value (.argument id 0 (i + 1)) context
  others : ∀ v c, (∀ i < count, v ≠ .result id i) ∨ c ≠ context → value' v c = value v c

/-- The yielded values of a loop, before its body is expanded. -/
theorem Inv.yieldSlot (hop : t.operation = .forOp id lower upper step inits body)
    {value' : Value → ExpansionContext → PlannedValue}
    (hvalue : LoopBound id inits.length t.context s.environment.value value')
    (hv : v ∈ yielded body) :
    YieldSlot file process (Known file process (t :: visited)) t.context id body v
      (value' v t.context) := by
  have ht := h.reached hs rfl
  have hready := h.schedule.ready
  rw [hs] at hready
  obtain ⟨⟨scope, hscope, hdom⟩, _⟩ := hready
  rw [hop, Operation.dominated, and_eq_true] at hdom
  have hargument : ∀ j, value' (.argument id 0 j) t.context = .original (.argument id 0 j) t.context := by
    intro j
    rw [hvalue.others (.argument id 0 j) t.context (.inl (by simp))]
    exact h.unknown _ _ (h.loopArgument_unknown hfile hprocess hs hop j)
  have hinside : DefinedIn body v → YieldSlot file process (Known file process (t :: visited))
      t.context id body v (value' v t.context) := by
    rintro ⟨op, hmem, hresult⟩
    obtain ⟨m, hm, rfl⟩ := mem_map.mp hresult
    have hne := h.body_id_ne hs hop hmem
    have htree : op ∈ t.operation.tree := by
      rw [hop]
      exact mem_cons_of_mem _ (mem_trees hmem)
    have hunknown := h.result_unknown (x := t) (by simp [hs]) htree m
    rw [hvalue.others _ _ (.inl fun i _ heq => hne (Value.result.inj heq).1), h.unknown _ _ hunknown]
    refine .inside (by simp [inductionVar]) ⟨op, hmem, hresult⟩ (.own (.region ht (by rw [hop]; exact hmem))
      (mem_range.mp hm) fun call _ hknown => ?_)
    obtain hold | hnew := known_cons.mp hknown
    · exact hunknown hold
    · have hid := hnew.result_id
      rw [hop] at hid
      exact hne hid
  obtain hmem | hin := mem_yielded hdom.2 v hv
  · rw [cons_append, mem_cons, mem_append] at hmem
    obtain rfl | hmem | hmem := hmem
    · rw [inductionVar, hargument 0]
      exact .induction
    · obtain ⟨i, hi, rfl⟩ := mem_map.mp hmem
      rw [hargument]
      refine .outside (by simp [inductionVar]) ?_
        ⟨.carried (hop ▸ ht) (mem_range.mp hi), fun _ _ _ _ heq => by cases heq⟩
      rintro ⟨op, _, hresult⟩
      obtain ⟨_, _, heq⟩ := mem_map.mp hresult
      cases heq
    · have hknown := hscope v hmem
      by_cases hin : DefinedIn body v
      · exact hinside hin
      · have hsame : value' v t.context = s.environment.value v t.context := by
          refine hvalue.others _ _ (.inl fun i hi heq => ?_)
          rw [heq] at hknown
          have hself := h.result_unknown (x := t) (by simp [hs]) (mem_tree_self _) i
          rw [hop] at hself
          exact hself hknown
        rw [hsame]
        refine .outside ?_ hin
          ((h.late hs hknown).mono fun _ _ hv => hv.mono (subset_cons_self _ _))
        rintro rfl
        exact h.loopArgument_unknown hfile hprocess hs hop 0 hknown
  · exact hinside hin

/-- A turn for a loop. -/
theorem Inv.expandFor {limits : RawModelStructureLimits}
    (hop : t.operation = .forOp id lower upper step inits body)
    (hrun :
      Expansion.expandFor limits id lower upper step inits body t.context { s with pending := rest } =
      some s') :
    Inv file process (t :: visited) s' := by
  have ht := h.reached hs rfl
  have hloop := h.reached hs hop
  simp only [Expansion.expandFor, Option.bind_eq_bind, Option.bind_eq_some_iff] at hrun
  obtain ⟨s₁, h₁, s₂, h₂, hpush⟩ := hrun
  obtain ⟨rfl, _⟩ := reserveNodes_eq h₁
  obtain rfl := reserveEdges_eq h₂
  have hpushed := pushBlock_eq hpush
  obtain ⟨hloopValue, hloopActions⟩ :=
    loopActions_eq id lower upper step inits body ht.iterations s.environment
  have hbind := bindCarried_eq id t.context s.environment inits.length
  set value' := (bindCarried id t.context inits.length s.environment).2.value with hvalue'
  have hcarried : LoopBound id inits.length t.context s.environment.value value' :=
    ⟨hbind.2.2, hbind.2.1⟩
  have hvalue : ∀ v c, s'.environment.value v c =
      if v = inductionVar id ∧ c = t.context then .synthetic id t.context .initialization 0
      else value' v c := by
    intro v c
    rw [hpushed.environment, bindInduction_value]
    simp only [hloopValue]
  have hunknownArgument := h.loopArgument_unknown hfile hprocess hs hop
  have hunknownResult : ∀ i, ¬ Known file process visited (.result id i) t.context := by
    intro i
    have hself := h.result_unknown (x := t) (by simp [hs]) (mem_tree_self _) i
    rwa [hop] at hself
  have hknownSame : ∀ v, Known file process visited v t.context →
      value' v t.context = s.environment.value v t.context := by
    intro v hv
    refine hcarried.others _ _ (.inl fun i _ heq => hunknownResult i ?_)
    rwa [heq] at hv
  have hiter : (iterArgs id inits.length).map (s.environment.value · t.context) =
      (iterArgs id inits.length).map (.original · t.context) := by
    refine map_congr_left fun v hv => ?_
    obtain ⟨i, _, rfl⟩ := mem_map.mp hv
    exact h.unknown _ _ (hunknownArgument _)
  have hreads : ∀ vs : List Value, (∀ v ∈ vs, v ∈ t.operation.operands) →
      Forall₂ (Late file process (Known file process (t :: visited)) t.context) vs
        (vs.map (value' · t.context)) := by
    intro vs hvs
    have hknown : ∀ v ∈ vs, Known file process visited v t.context :=
      fun v hv => h.operand_known hs v (hvs v hv)
    rw [map_congr_left fun v hv => hknownSame v (hknown v hv)]
    exact h.reads_late hs hknown
  have hinduction : Late file process (Known file process (t :: visited)) t.context (inductionVar id)
      (.synthetic id t.context .initialization 0) := ⟨.induction hloop, fun _ _ _ _ heq => by cases heq⟩
  have hcall : ∀ call, t.operation ≠ .call call := by
    intro call heq
    rw [hop] at heq
    cases heq
  have hnew : ∀ v context, Defines file t v context → context = t.context ∧
      ((∃ i < inits.length, v = .result id i ∧
          s'.environment.value v t.context = .original (.argument id 0 (i + 1)) t.context) ∨
        (v = inductionVar id ∧
          s'.environment.value v t.context = .synthetic id t.context .initialization 0) ∨
        ∃ i < inits.length, v = .argument id 0 (i + 1) ∧
          s'.environment.value v t.context = .original v t.context) := by
    intro v context hv
    cases hv with
    | @result i hi =>
      rw [hop] at hi ⊢
      refine ⟨rfl, .inl ⟨i, hi, rfl, ?_⟩⟩
      rw [hvalue, if_neg (by simp [inductionVar])]
      exact (hcarried.results i hi).trans (h.unknown _ _ (hunknownArgument _))
    | @loopArgument id' j _ _ _ _ _ hop' hj =>
      cases hop.symm.trans hop'
      refine ⟨rfl, .inr ?_⟩
      cases j with
      | zero => exact .inl ⟨rfl, by rw [hvalue, if_pos ⟨rfl, rfl⟩]⟩
      | succ i =>
        refine .inr ⟨i, hj, rfl, ?_⟩
        rw [hvalue, if_neg (by simp [inductionVar]),
          hcarried.others _ _ (.inl fun _ _ heq => by cases heq)]
        exact h.unknown _ _ (hunknownArgument _)
    | whileArgument hop' | argument hop' _ _ => cases hop.symm.trans hop'
  refine h.of_region hfile hprocess hs hcall ?_
    (hpushed.actions.trans (congrArg _ hloopActions)) ?_ ?_ ?_ ?_ ?_
  · rw [hpushed.pending, children_of_ne_call hcall, hop]
    rfl
  · intro v context hv
    have hne : ¬ (v = inductionVar id ∧ context = t.context) := by
      rintro ⟨rfl, rfl⟩
      obtain hv | hv := hv
      · exact hunknownArgument 0 hv
      · exact hv (.loopArgument mem_cons_self hop (Nat.zero_le _))
    rw [hvalue, if_neg hne]
    refine hcarried.others _ _ ?_
    by_cases hcontext : context = t.context
    · refine .inl fun i hi heq => ?_
      subst heq hcontext
      obtain hv | hv := hv
      · exact hunknownResult i hv
      · have hnew : Known file process (t :: visited) (.result t.operation.id i) t.context :=
          .result mem_cons_self (by rw [hop]; exact hi)
        rw [hop] at hnew
        exact hv hnew
    · exact .inr hcontext
  · intro v context hv hold
    obtain ⟨rfl, hnew⟩ := hnew v context ((known_cons.mp hv).resolve_left hold)
    obtain ⟨i, hi, rfl, heq⟩ | ⟨rfl, heq⟩ | ⟨i, hi, rfl, heq⟩ := hnew
    · rw [heq]
      exact .loopResult hloop hi
    · rw [heq]
      exact .induction hloop
    · rw [heq]
      exact .carried hloop hi
  · intro v context hv hold id' k inner call hp
    obtain ⟨rfl, hnew⟩ := hnew v context ((known_cons.mp hv).resolve_left hold)
    obtain ⟨i, _, _, heq⟩ | ⟨_, heq⟩ | ⟨i, _, rfl, heq⟩ := hnew
    all_goals
      rw [heq] at hp
      cases hp
  · intro a ha
    simp only [mem_cons, not_mem_nil, or_false] at ha
    obtain rfl | rfl | rfl := ha
    · refine ⟨hloop, by simp [Operation.kinds], ?_, _, [], (append_nil _).symm, ?_, .nil⟩
      · simp only [plannedResults, hiter]
      · exact hreads (lower :: inits) fun v hv => by
          rw [hop]
          simp only [Operation.operands, mem_cons] at hv ⊢
          tauto
    · refine ⟨hloop, by simp [Operation.kinds], rfl, _, [], (append_nil _).symm, ?_, .nil⟩
      exact .cons hinduction (hreads [upper] fun v hv => by
        rw [hop]
        simp only [Operation.operands, mem_cons] at hv ⊢
        tauto)
    · refine ⟨hloop, by simp [Operation.kinds], rfl, _, _, rfl, ?_, ?_⟩
      · refine rel_append (.cons hinduction (hreads [step] fun v hv => ?_)) ?_
        · rw [hop]
          simp only [Operation.operands, mem_cons] at hv ⊢
          tauto
        · rw [hiter, forall₂_map_right_iff, forall₂_same]
          intro v hv
          obtain ⟨i, hi, rfl⟩ := mem_map.mp hv
          exact ⟨.carried hloop (mem_range.mp hi), fun _ _ _ _ heq => by cases heq⟩
      · simp only [yields]
        rw [forall₂_map_right_iff, forall₂_same]
        exact fun v hv => h.yieldSlot hfile hprocess hs hop hcarried hv
  · intro kind hkind
    rw [hop] at hkind ⊢
    simp only [Operation.kinds, mem_cons, not_mem_nil, or_false] at hkind
    obtain rfl | rfl | rfl := hkind
    · exact ⟨_, mem_cons_self, rfl, rfl, rfl⟩
    · exact ⟨_, mem_cons_of_mem _ mem_cons_self, rfl, rfl, rfl⟩
    · exact ⟨_, mem_cons_of_mem _ (mem_cons_of_mem _ mem_cons_self), rfl, rfl, rfl⟩

end

/-- What the forwarding of a call leaves behind. -/
structure CallBound (file : File) (t : Task) (call : Call) (f : Function)
    (ρ : PlannedValue → PlannedValue) (s s' : Expansion) : Prop where
  actions : s'.actions = s.actions.map (mapOperands ρ)
  pending : s'.pending = s.pending
  keeps : ∀ p, (∀ j, p ≠ .original (.argument f.id 0 j) (t.context.enter call)) →
    (∀ k, p ≠ .original (.result call.id k) t.context) → ρ p = p
  argument : ∀ j v, call.operands[j]? = some v →
    s'.environment.value (.argument f.id 0 j) (t.context.enter call) =
      s.environment.value v t.context
  result : ∀ k < call.results, ∃ p, s'.environment.value (.result call.id k) t.context = p ∧
    ρ (.original (.result call.id k) t.context) = p ∧
    ((∃ j v, f.returns[k]? = some (.argument f.id 0 j) ∧ call.operands[j]? = some v ∧
        p = s.environment.value v t.context) ∨
      ∃ op ∈ f.body, ∃ m < op.numResults, f.returns[k]? = some (.result op.id m) ∧
        p = .original (.result op.id m) (t.context.enter call))
  unchanged : ∀ v context, ¬ Defines file t v context →
    s'.environment.value v context = s.environment.value v context

omit hprocess in
theorem Resolved.ne_argument (hprocess : process ∈ file.processes) {inner : ExpansionContext}
    (h : Resolved file process context v p) {id block : ℕ}
    (ho : file.owner id = some (.function f)) : p ≠ .original (.argument id block j) inner := by
  induction h with
  | capture _ =>
    intro heq
    cases heq
    cases ho.symm.trans (owner_process hfile hprocess)
  | whileArgument hreach | carried hreach _ | loopResult hreach _ =>
    intro heq
    cases heq
    cases ho.symm.trans (hreach.owner hfile hprocess)
  | argument _ _ _ _ ih | passed _ _ _ _ _ ih => exact ih
  | result _ _ _ _ | induction _ | returned _ _ _ _ _ => exact nofun

theorem Inv.argument_unknown (h : Inv file process visited s) (hs : s.pending = t :: rest)
    (hop : t.operation = .call call) (hf : file.lookup call.callee = some f) (j : ℕ) :
    ¬ Known file process visited (.argument f.id 0 j) (t.context.enter call) := by
  have ho := owner_function hfile hf
  have hkey := h.schedule
  rw [hs] at hkey
  intro hv
  generalize heq : Value.argument f.id 0 j = v at hv
  generalize hcontext : t.context.enter call = context at hv
  cases hv with
  | capture _ =>
    rw [(Value.argument.inj heq).1] at ho
    cases ho.symm.trans (owner_process hfile hprocess)
  | result _ _ => cases heq
  | @loopArgument x _ _ _ _ _ _ _ hx hop' _ | @whileArgument x _ _ _ _ _ _ _ hx hop' =>
    rw [(Value.argument.inj heq).1] at ho
    have hreach := h.schedule.reached x (by simp [hx])
    rw [hop'] at hreach
    cases ho.symm.trans (hreach.owner hfile hprocess)
  | @argument x call' _ _ hx hop' _ _ =>
    obtain ⟨hctx, rfl⟩ := enter_inj hcontext
    refine hkey.key_notMem (mem_map.mpr ⟨x, hx, ?_⟩)
    rw [Task.key, Task.key, hop, hop', hctx]

omit hprocess in
theorem returned_cases {name : String} (hf : file.lookup name = some f)
    (hr : f.returns[k]? = some r) : (∃ j < f.arguments, r = .argument f.id 0 j) ∨
      ∃ op ∈ f.body, ∃ m < op.numResults, r = .result op.id m := by
  have hmem := mem_of_getElem? hr
  unfold Function.returns at hmem
  split at hmem
  · rename_i hlast
    have hdom := hfile.function_dominated f (mem_of_find?_eq_some hf)
    obtain hscope | ⟨op, hop, hresult⟩ := mem_terminator hdom hlast r hmem
    · obtain ⟨j, hj, rfl⟩ := mem_map.mp hscope
      exact .inl ⟨j, mem_range.mp hj, rfl⟩
    · obtain ⟨m, hm, rfl⟩ := mem_map.mp hresult
      exact .inr ⟨op, hop, m, mem_range.mp hm, rfl⟩
  · cases hmem

theorem call_signature (hreach : Reached file process context (.call call))
    (hf : file.lookup call.callee = some f) (hbody : f.body ≠ []) :
    call.operands.length = f.arguments ∧ f.returns.length = call.results := by
  have hmatch := hfile.callMatches _ (hreach.mem_operations hprocess)
  simp only [File.callMatches, hf, and_eq_true, beq_iff_eq] at hmatch
  rw [returns_length (hfile.returnsLast f (mem_of_find?_eq_some hf) hbody), hmatch.2]
  exact ⟨hmatch.1, rfl⟩

section calls

variable {limits : RawModelStructureLimits} {call : Call} {f : Function} {s₁ s₂ : Expansion}
variable {ρ : PlannedValue → PlannedValue}

section

variable (h : Inv file process visited s) (hs : s.pending = t :: rest)
    (hop : t.operation = .call call)

include h hs hop

omit hfile hprocess in
theorem Inv.callOperand_known : ∀ v ∈ call.operands, Known file process visited v t.context := by
  have hknown := h.operand_known hs
  rwa [hop] at hknown

omit hfile hprocess in
theorem Inv.callResult_unknown (k : ℕ) :
    ¬ Known file process visited (.result call.id k) t.context := by
  have hself := h.result_unknown (x := t) (by simp [hs]) (mem_tree_self _) k
  rwa [hop] at hself

theorem Inv.forwardArguments (hf : file.lookup call.callee = some f)
    (hoperands : call.operands.length = f.arguments)
    (hrun : addForwardings limits t.context (t.context.enter call) (argumentPairs call f)
        { s with pending := rest } =
      some s₁) :
    ∃ ρ, Forwarded t.context (t.context.enter call) (argumentPairs call f) ρ
      { s with pending := rest } s₁ := by
  have ht := h.reached hs hop
  refine addForwardings_eq ht.iterations (t.context.enter_ne call).symm ?_ ?_ ?_ hrun
  · rw [argumentPairs_snd hoperands]
    exact nodup_range.map fun _ _ heq => by simpa using heq
  · rw [argumentPairs_snd hoperands]
    intro w hw
    obtain ⟨j, _, rfl⟩ := mem_map.mp hw
    exact h.unknown _ _ (h.argument_unknown hfile hprocess hs hop hf j)
  · rw [argumentPairs_snd hoperands]
    intro pair hpair w hw
    obtain ⟨j, _, rfl⟩ := mem_map.mp hw
    have hknown := h.callOperand_known hs hop _ (of_mem_zip hpair).1
    exact (h.resolved _ _ hknown).ne_argument hfile hprocess (owner_function hfile hf)

omit hprocess in
/-- What the returned values stand for when only the arguments of the callee are bound. -/
theorem Inv.returned_value (hf : file.lookup call.callee = some f)
    (hoperands : call.operands.length = f.arguments)
    (hρ : Forwarded t.context (t.context.enter call) (argumentPairs call f) ρ
        { s with pending := rest } s₁)
    {k : ℕ} {r : Value} (hr : f.returns[k]? = some r) :
    (∃ j v, r = .argument f.id 0 j ∧ call.operands[j]? = some v ∧
      s₁.environment.value r (t.context.enter call) = s.environment.value v t.context) ∨
    ∃ op ∈ f.body, ∃ m < op.numResults, r = .result op.id m ∧
      s₁.environment.value r (t.context.enter call) = .original r (t.context.enter call) := by
  obtain ⟨j, hj, rfl⟩ | ⟨op, hmem, m, hm, rfl⟩ := returned_cases hfile hf hr
  · obtain ⟨v, hv⟩ : ∃ v, call.operands[j]? = some v :=
      ⟨_, getElem?_eq_getElem (hoperands ▸ hj)⟩
    exact .inl ⟨j, v, rfl, hv, hρ.bound _ (mem_argumentPairs hoperands hv)⟩
  · refine .inr ⟨op, hmem, m, hm, rfl, ?_⟩
    rw [hρ.unchanged _ _ (.inr (by rw [argumentPairs_snd hoperands]; simp [blockArguments]))]
    exact h.unknown _ _ (h.callee_unknown hs hop _ _)

theorem Inv.forwardReturns (hf : file.lookup call.callee = some f)
    (hoperands : call.operands.length = f.arguments) (hreturns : f.returns.length = call.results)
    (hρ : Forwarded t.context (t.context.enter call) (argumentPairs call f) ρ
        { s with pending := rest } s₁)
    (hrun : s₁.addForwardings limits (t.context.enter call) t.context (resultPairs call f) =
      some s₂) :
    ∃ ρ', Forwarded (t.context.enter call) t.context (resultPairs call f) ρ' s₁ s₂ := by
  have ht := h.reached hs hop
  have hiterations : (t.context.enter call).iterations = [] := ht.iterations
  have hunknown := h.callResult_unknown hs hop
  have hne := t.context.enter_ne call
  refine addForwardings_eq hiterations hne ?_ ?_ ?_ hrun
  · rw [resultPairs_snd hreturns]
    exact nodup_range.map fun _ _ heq => by simpa using heq
  · rw [resultPairs_snd hreturns]
    intro w hw
    obtain ⟨k, _, rfl⟩ := mem_map.mp hw
    rw [hρ.unchanged _ _ (.inl hne.symm)]
    exact h.unknown _ _ (hunknown k)
  · rw [resultPairs_snd hreturns]
    intro pair hpair w hw hp
    obtain ⟨k', _, rfl⟩ := mem_map.mp hw
    obtain ⟨k, hk⟩ := mem_iff_getElem?.mp hpair
    obtain ⟨j, v, _, hv, heq⟩ | ⟨op, _, m, _, _, heq⟩ :=
      h.returned_value hfile hs hop hf hoperands hρ (getElem?_zip_eq_some.mp hk).1
    · -- an operand of the call does not wait for the call
      rw [heq] at hp
      have hlate := h.late hs (h.callOperand_known hs hop v (mem_of_getElem? hv))
      exact hunknown k' (hlate.fixed _ _ _ _ hp (ht.owner hfile hprocess))
    · rw [heq] at hp
      exact hne (original.inj hp).2

theorem Inv.callBound (hf : file.lookup call.callee = some f) (hbody : f.body ≠ [])
    (h₁ : addForwardings limits t.context (t.context.enter call) (argumentPairs call f)
        { s with pending := rest } =
      some s₁) (h₂ : s₁.forwardReturns limits call t.context f.body = some s₂) :
    ∃ ρ, CallBound file t call f ρ { s with pending := rest } s₂ := by
  have ht := h.reached hs hop
  have hne := t.context.enter_ne call
  obtain ⟨hoperands, hreturns⟩ := call_signature hfile hprocess ht hf hbody
  obtain ⟨ρ₁, hρ₁⟩ := h.forwardArguments hfile hprocess hs hop hf hoperands h₁
  rw [forwardReturns_eq (hfile.returnsLast f (mem_of_find?_eq_some hf) hbody)] at h₂
  obtain ⟨ρ₂, hρ₂⟩ := h.forwardReturns hfile hprocess hs hop hf hoperands hreturns hρ₁ h₂
  have harguments : ∀ p, (∀ j, p ≠ .original (.argument f.id 0 j) (t.context.enter call)) →
      ρ₁ p = p := by
    intro p hp
    refine hρ₁.keeps p fun w hw => ?_
    rw [argumentPairs_snd hoperands] at hw
    obtain ⟨j, _, rfl⟩ := mem_map.mp hw
    exact hp j
  refine ⟨ρ₂ ∘ ρ₁, ?_, hρ₂.pending.trans hρ₁.pending, ?_, ?_, ?_, ?_⟩
  · rw [hρ₂.actions, hρ₁.actions, map_map]
    refine map_congr_left fun a _ => ?_
    simp [mapOperands]
  · intro p hargument hresult
    rw [Function.comp_apply, harguments p hargument]
    refine hρ₂.keeps p fun w hw => ?_
    rw [resultPairs_snd hreturns] at hw
    obtain ⟨k, _, rfl⟩ := mem_map.mp hw
    exact hresult k
  · intro j v hv
    rw [hρ₂.unchanged _ _ (.inl hne)]
    exact hρ₁.bound _ (mem_argumentPairs hoperands hv)
  · intro k hk
    obtain ⟨r, hr⟩ : ∃ r, f.returns[k]? = some r :=
      ⟨_, getElem?_eq_getElem (hreturns ▸ hk)⟩
    have hpair := mem_resultPairs hreturns hr
    refine ⟨_, hρ₂.bound _ hpair, ?_, ?_⟩
    · rw [Function.comp_apply, harguments (.original (.result call.id k) t.context) (by simp)]
      exact hρ₂.replaces _ hpair
    · obtain ⟨j, v, rfl, hv, heq⟩ | ⟨op, hmem, m, hm, rfl, heq⟩ :=
        h.returned_value hfile hs hop hf hoperands hρ₁ hr
      · exact .inl ⟨j, v, hr, hv, heq⟩
      · exact .inr ⟨op, hmem, m, hm, hr, heq⟩
  · intro v context hv
    have hargument : context ≠ t.context.enter call ∨ v ∉ (argumentPairs call f).map Prod.snd := by
      by_contra hcon
      obtain ⟨rfl, hmem⟩ := (not_or.mp hcon).imp not_not.mp not_not.mp
      rw [argumentPairs_snd hoperands] at hmem
      obtain ⟨j, hj, rfl⟩ := mem_map.mp hmem
      exact hv (.argument hop hf (mem_range.mp hj))
    have hresult : context ≠ t.context ∨ v ∉ (resultPairs call f).map Prod.snd := by
      by_contra hcon
      obtain ⟨rfl, hmem⟩ := (not_or.mp hcon).imp not_not.mp not_not.mp
      rw [resultPairs_snd hreturns] at hmem
      obtain ⟨k, hk, rfl⟩ := mem_map.mp hmem
      have hnew : Defines file t (.result t.operation.id k) t.context :=
        .result (by rw [hop]; exact mem_range.mp hk)
      rw [hop] at hnew
      exact hv hnew
    rw [hρ₂.unchanged v context hresult, hρ₁.unchanged v context hargument]

/-- An unknown call result is replaced when its call is visited, any other value stays. -/
theorem CallBound.early (hf : file.lookup call.callee = some f)
    (hbound : CallBound file t call f ρ { s with pending := rest } s₂) {context : ExpansionContext}
    {op : Operation} {m : ℕ} (hreach : Reached file process context op) (hm : m < op.numResults)
    (hunknown : ∀ call, op = .call call → ¬ Known file process visited (.result op.id m) context) :
    Early file process (Known file process (t :: visited)) context (.result op.id m)
      (ρ (.original (.result op.id m) context)) := by
  have ht := h.reached hs hop
  by_cases hself : op.id = call.id ∧ context = t.context
  · obtain ⟨hid, rfl⟩ := hself
    have heq := (hreach.owner hfile hprocess).symm.trans
      ((congrArg file.owner hid).trans (ht.owner hfile hprocess))
    simp only [Option.some.injEq, Owner.operation.injEq] at heq
    subst heq
    obtain ⟨p, _, hρ, hcases⟩ := hbound.result m hm
    rw [show Operation.id (.call call) = call.id from rfl, hρ]
    obtain ⟨j, v, hret, hv, rfl⟩ | ⟨inner, hmem, m', hm', hret, rfl⟩ := hcases
    · have hlate := h.late hs (h.callOperand_known hs hop v (mem_of_getElem? hv))
      exact .passed ht hf hret hv
        (hlate.mono fun _ _ hv => hv.mono (subset_cons_self _ _))
    · refine .returned ht hf hret (.own (.callee ht hf hmem) hm' fun _ _ hknown => ?_)
      obtain hold | hnew := known_cons.mp hknown
      · exact h.callee_unknown hs hop _ _ hold
      · exact t.context.enter_ne call hnew.result_context
  · have hother : ∀ k, original (.result op.id m) context ≠
        .original (.result call.id k) t.context := by
      intro k heq
      obtain ⟨hv, hcontext⟩ := original.inj heq
      exact hself ⟨(Value.result.inj hv).1, hcontext⟩
    rw [hbound.keeps (.original (.result op.id m) context) (fun _ => nofun) hother]
    refine .own hreach hm fun call' hcall' hknown => ?_
    obtain hold | hnew := known_cons.mp hknown
    · exact hunknown call' hcall' hold
    · refine hself ⟨?_, hnew.result_context⟩
      have hid := hnew.result_id
      rwa [hop] at hid

/-- The values a call makes known.  A result of the callee may be that of an inner call, which is
pending now. -/
theorem CallBound.new_value (hf : file.lookup call.callee = some f)
    (hbound : CallBound file t call f ρ { s with pending := rest } s₂) {v : Value}
    {context : ExpansionContext} (hv : Defines file t v context) :
    Resolved file process context v (s₂.environment.value v context) ∧
    Waiting file process (t :: visited) (t.children file ++ rest) context
      (s₂.environment.value v context) := by
  have ht := h.reached hs hop
  have hlate : ∀ {j : ℕ} {w : Value}, call.operands[j]? = some w →
      Late file process (Known file process (t :: visited)) t.context w
        (s.environment.value w t.context) := by
    intro j w hw
    exact (h.late hs (h.callOperand_known hs hop w (mem_of_getElem? hw))).mono
      fun _ _ hknown => hknown.mono (subset_cons_self _ _)
  cases hv with
  | @result k hk =>
    rw [hop] at hk ⊢
    obtain ⟨p, hp, _, hcases⟩ := hbound.result k hk
    rw [show Operation.id (.call call) = call.id from rfl, hp]
    obtain ⟨j, w, hret, hw, rfl⟩ | ⟨op, hmem, m, hm, hret, rfl⟩ := hcases
    · exact ⟨.passed ht hf hret hw (hlate hw).resolved,
        fun id k inner call' hp ho => .inl ((hlate hw).fixed id k inner call' hp ho)⟩
    · refine ⟨.returned ht hf hmem hm hret, fun id k inner call' hp ho => .inr ?_⟩
      cases hp
      have hin : Reached file process (t.context.enter call) op := .callee ht hf hmem
      have heq := ho.symm.trans (hin.owner hfile hprocess)
      simp only [Option.some.injEq, Owner.operation.injEq] at heq
      subst heq
      refine ⟨mem_append_left _ ?_, hm, ?_⟩
      · rw [children_of_call hop hf]
        exact mem_map_of_mem hmem
      · simp [enter]
  | loopArgument hop' _ | whileArgument hop' => cases hop.symm.trans hop'
  | @argument call' f' j hop' hf' hj =>
    cases hop.symm.trans hop'
    cases hf.symm.trans hf'
    have hmatch := hfile.callMatches _ (ht.mem_operations hprocess)
    simp only [File.callMatches, hf, and_eq_true, beq_iff_eq] at hmatch
    obtain ⟨w, hw⟩ : ∃ w, call.operands[j]? = some w :=
      ⟨_, getElem?_eq_getElem (hmatch.1 ▸ hj)⟩
    rw [hbound.argument j w hw]
    exact ⟨.argument ht hf hw (hlate hw).resolved,
      fun id k inner call' hp ho => .inl ((hlate hw).fixed id k inner call' hp ho)⟩

/-- A turn for a call. -/
theorem Inv.expandCall {callGraph : List Function}
    (hgraph : ∀ f, callGraph.find? (fun f => f.name == call.callee) = some f →
      file.lookup call.callee = some f ∧ f.body ≠ [])
    (hrun : Expansion.expandCall limits callGraph call t.context { s with pending := rest } =
      some s') : Inv file process (t :: visited) s' := by
  have ht := h.reached hs hop
  have howner := ht.owner hfile hprocess
  simp only [Expansion.expandCall, Option.bind_eq_bind, Option.bind_eq_some_iff] at hrun
  obtain ⟨f, hfind, hrun⟩ := hrun
  split at hrun
  · cases hrun
  simp only [Option.bind_eq_some_iff] at hrun
  obtain ⟨s₁, h₁, s₂, h₂, hpush⟩ := hrun
  obtain ⟨hf, hbody⟩ := hgraph f hfind
  obtain ⟨ρ, hbound⟩ := h.callBound hfile hprocess hs hop hf hbody h₁ h₂
  have hpushed := pushBlock_eq hpush
  have hlate : ∀ v ∈ call.operands, Late file process (Known file process visited) t.context v
      (s.environment.value v t.context) :=
    fun v hv => h.late hs (h.callOperand_known hs hop v hv)
  have hsub : ∀ v context, Known file process visited v context →
      Known file process (t :: visited) v context :=
    fun _ _ hv => hv.mono (subset_cons_self _ _)
  have hvalue : ∀ v context, s'.environment.value v context = s₂.environment.value v context :=
    fun v context => by rw [hpushed.environment]
  have hpending : s'.pending = t.children file ++ rest := by
    rw [hpushed.pending, hbound.pending, children_of_call hop hf]
  have hwaiting := h.waiting
  have hschedule := h.schedule
  rw [hs] at hwaiting hschedule
  have hold : ∀ v context, Known file process visited v context →
      s'.environment.value v context = s.environment.value v context := by
    intro v context hv
    rw [hvalue]
    refine hbound.unchanged v context fun hnew => ?_
    cases hnew with
    | result _ =>
      rw [hop] at hv
      exact h.callResult_unknown hs hop _ hv
    | loopArgument hop' _ | whileArgument hop' => cases hop.symm.trans hop'
    | argument hop' hf' _ =>
      cases hop.symm.trans hop'
      exact h.argument_unknown hfile hprocess hs hop hf' _ hv
  refine ⟨?_, ?_, ?_, ?_, ?_, ?_⟩
  · rw [hpending]
    refine hschedule.step hfile fun call' heq => ⟨f, ?_⟩
    cases hop.symm.trans heq
    exact hf
  · intro v context hv
    rw [hvalue, hbound.unchanged v context fun hnew => hv (known_cons.mpr (.inr hnew))]
    exact h.unknown v context fun hknown => hv (hsub v context hknown)
  · intro v context hv
    obtain hv | hv := known_cons.mp hv
    · rw [hold v context hv]
      exact h.resolved v context hv
    · rw [hvalue]
      exact (hbound.new_value hfile hprocess h hs hop hf hv).1
  · intro v context hv
    obtain hv | hv := known_cons.mp hv
    · rw [hold v context hv, hpending]
      exact (hwaiting v context hv).step _
    · rw [hvalue, hpending]
      exact (hbound.new_value hfile hprocess h hs hop hf hv).2
  · intro a ha
    rw [hpushed.actions, hbound.actions] at ha
    obtain ⟨a₀, ha₀, rfl⟩ := mem_map.mp ha
    refine (h.sound a₀ ha₀).map (fun context v p hp => ?_)
      (fun _ _ _ hreach hm hunknown =>
        hbound.early hfile hprocess h hs hop hf hreach hm hunknown)
      fun context id lower upper step inits body hreach => ?_
    · rw [hbound.keeps p
        (fun j => hp.resolved.ne_argument hfile hprocess (owner_function hfile hf))
        fun k heq => h.callResult_unknown hs hop k (hp.fixed _ _ _ _ heq howner)]
      exact hp.mono hsub
    · refine hbound.keeps (.original (inductionVar id) context) (fun j heq => ?_) fun _ => nofun
      have hid : id = f.id := (Value.argument.inj (original.inj heq).1).1
      have ho := hreach.owner hfile hprocess
      rw [show Operation.id (.forOp id lower upper step inits body) = id from rfl, hid] at ho
      cases ho.symm.trans (owner_function hfile hf)
  · intro x hx kind hkind
    obtain rfl | hx := mem_cons.mp hx
    · rw [hop] at hkind
      cases hkind
    · obtain ⟨a, ha, hspec⟩ := h.complete x hx kind hkind
      refine ⟨mapOperands ρ a, ?_, hspec⟩
      rw [hpushed.actions, hbound.actions]
      exact mem_map_of_mem ha

end

end calls

variable {limits : RawModelStructureLimits} {callGraph : List Function}

theorem Inv.expandTask (h : Inv file process visited s) (hs : s.pending = t :: rest)
    (hgraph : ∀ name f, callGraph.find? (fun f => f.name == name) = some f → file.lookup name =
      some f ∧ f.body ≠ [])
    (hrun : expandTask limits callGraph t { s with pending := rest } = some s') :
    Inv file process (t :: visited) s' := by
  obtain ⟨op, context⟩ := t
  have hblocks : ∀ (first second : List Operation) (s₁ : Expansion),
      (∀ call, op ≠ .call call) →
      (∀ id lower upper step inits body, op ≠ .forOp id lower upper step inits body) →
      op.kinds = [] → op.pushed = second ++ first →
      pushBlock limits context first { s with pending := rest } = some s₁ →
      s₁.pushBlock limits context second = some s' →
      Inv file process (⟨op, context⟩ :: visited) s' := by
    intro first second s₁ hcall hloop hkinds hpushed h₁ h₂
    have hfirst := pushBlock_eq h₁
    have hsecond := pushBlock_eq h₂
    have hactions : s'.actions = s.actions ++ [] := by
      rw [hsecond.actions, hfirst.actions, append_nil]
    refine h.of_unbound hfile hprocess hs hcall hloop ?_ hactions ?_ nofun ?_
    · rw [hsecond.pending, hfirst.pending, children_of_ne_call hcall]
      simp [hpushed]
    · rw [hsecond.environment, hfirst.environment]
    · rw [hkinds]
      exact nofun
  have hskip : (∀ call, op ≠ .call call) →
      (∀ id lower upper step inits body, op ≠ .forOp id lower upper step inits body) →
      op.kinds = [] → op.pushed = [] → { s with pending := rest } = s' →
      Inv file process (⟨op, context⟩ :: visited) s' := by
    rintro hcall hloop hkinds hpushed rfl
    exact hblocks [] [] _ hcall hloop hkinds hpushed rfl rfl
  cases op with
  | simple _ _ _ _ _ _ | instrumentation _ _ =>
    cases hrun
    exact h.addOriginalAction hfile hprocess hs rfl rfl nofun nofun
  | call call => exact h.expandCall hfile hprocess hs rfl (hgraph call.callee) hrun
  | forOp id lower upper step inits body => exact h.expandFor hfile hprocess hs rfl hrun
  | ret _ _ | yield _ _ | condition _ _ => exact hskip nofun nofun rfl rfl (Option.some.inj hrun)
  | ifOp _ _ _ _ _ | whileOp _ _ _ _ _ =>
    obtain ⟨s₁, h₁, h₂⟩ := Option.bind_eq_some_iff.mp hrun
    exact hblocks _ _ s₁ nofun nofun rfl rfl h₁ h₂

/-- The whole loop. -/
theorem Inv.expandPending (hgraph : ∀ name f, callGraph.find? (fun f => f.name == name) = some f →
      file.lookup name = some f ∧ f.body ≠ []) :
    ∀ {turns : ℕ} {visited : List Task} {s : Expansion}, Inv file process visited s →
      Expansion.expandPending limits callGraph turns s = some s' →
      ∃ visited', Inv file process visited' s' ∧ s'.pending = []
  | 0, visited, s, h, hrun => by
    unfold Expansion.expandPending at hrun
    split at hrun
    · rename_i hempty
      cases hrun
      exact ⟨visited, h, isEmpty_iff.mp hempty⟩
    · cases hrun
  | turns + 1, visited, s, h, hrun => by
    unfold Expansion.expandPending at hrun
    split at hrun
    · cases hrun
      exact ⟨visited, h, ‹_›⟩
    · obtain ⟨s₁, h₁, h₂⟩ := Option.bind_eq_some_iff.mp hrun
      exact Inv.expandPending hgraph (h.expandTask hfile hprocess ‹_› hgraph h₁) h₂

theorem process_ids_nodup : ((trees process.body).map Operation.id).Nodup := by
  have h := hfile.ids_nodup
  rw [File.owners, map_append, map_append] at h
  have h := h.of_append_right.of_append_right
  rw [map_map, File.operations, map_append, map_flatMap, map_flatMap] at h
  exact (nodup_flatMap.mp h.of_append_left).1 process hprocess

theorem Inv.start (hrun : start limits process = some s) : Inv file process [] s := by
  have hpushed := pushBlock_eq hrun
  have hvalue : ∀ v context, s.environment.value v context = .original v context := by
    intro v context
    rw [hpushed.environment, defineValues_value]
    rfl
  have hpending : s.pending = process.body.map fun op => ⟨op, .root⟩ := by
    rw [hpushed.pending, append_nil]
  refine ⟨?_, fun v context _ => hvalue v context, ?_, ?_, ?_, nofun⟩
  · rw [hpending]
    refine ⟨?_, ?_, ?_, ?_, nofun, ?_, ?_⟩
    · intro t ht
      obtain ⟨op, hop, rfl⟩ := mem_map.mp ht
      exact .body hop
    · rw [map_nil, nil_append, flatMap_keys]
      have hids := (process_ids_nodup hfile hprocess).map
        (f := fun id => (id, root)) fun _ _ heq => (Prod.mk.inj heq).1
      rwa [map_map] at hids
    · intro t ht
      obtain ⟨op, _, rfl⟩ := mem_map.mp ht
      exact .inl rfl
    · exact fun op hop => mem_map_of_mem hop
    · rw [pairwise_map]
      exact pairwise_of_forall fun _ _ => prefix_refl _
    · have hscope : ∀ v ∈ blockArguments process.id 0 process.captures,
          Known file process [] v .root := by
        intro v hv
        obtain ⟨i, hi, rfl⟩ := mem_map.mp hv
        exact .capture (mem_range.mp hi)
      have hnil : Ready (Known file process []) [] := trivial
      have hready := Ready.block hscope (hfile.process_dominated process hprocess) hnil
      rwa [append_nil] at hready
  · intro v context hv
    rw [hvalue]
    obtain ⟨i, hi, rfl, rfl⟩ := known_nil.mp hv
    exact .capture hi
  · intro v context hv id k inner call hp ho
    obtain ⟨i, _, rfl, rfl⟩ := known_nil.mp hv
    rw [hvalue] at hp
    cases hp
  · rw [hpushed.actions]
    exact nofun

end steps

end AgenticCircuit.ProcessPlan
