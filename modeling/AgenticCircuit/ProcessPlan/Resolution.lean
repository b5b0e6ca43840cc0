import AgenticCircuit.ProcessPlan.Expansion

/-! # What the operands of an expanded process stand for

* `Reached` is the set of operations that expansion visits, with the call context of each.
* `Denotes` follows a value of the source to the action that computes it: an argument to the operand
  of its call, a call result to the returned value, a loop result to the carried value.
* `Settled` and `Patched` say, in terms of the source alone, which operands are found.  A call
  result is bound before the body of the callee is expanded, so it is found later on when the callee
  returns an argument or computes the value itself (`Settled`).  Older than the call are the yielded
  values of the loops around it; these are patched at every call, and only there (`Patched`).
* `Resolved` and `Early` are the planned values the expansion has in place of the two kinds of
  operands.  Each of them is right exactly for the settled values (`Resolved.dichotomy`,
  `Early.dichotomy`). -/

namespace AgenticCircuit.ProcessPlan

open List ExpansionContext

/-! ### The operations that are visited -/

/-- The operations that are pushed with an operation, the last block first. -/
def Operation.pushed : Operation → List Operation
  | .forOp _ _ _ _ _ body => body
  | .ifOp _ _ _ thenBody elseBody => elseBody ++ thenBody
  | .whileOp _ _ _ before after => after ++ before
  | _ => []

/-- The operations whose results are results of an action of their own. -/
def Operation.isSimple : Operation → Bool
  | .simple .. => true
  | _ => false

/-- The operations that become actions. -/
def Operation.isAction : Operation → Bool
  | .simple .. | .forOp .. => true
  | _ => false

section relations

variable (file : File) (process : Process)

inductive Reached : ExpansionContext → Operation → Prop
  | body {op : Operation} : op ∈ process.body → Reached .root op
  | region {context : ExpansionContext} {parent op : Operation} :
      Reached context parent → op ∈ parent.pushed → Reached context op
  | callee {context : ExpansionContext} {call : Call} {f : Function} {op : Operation} :
      Reached context (.call call) → file.lookup call.callee = some f → op ∈ f.body →
      Reached (context.enter call) op

/-! ### What a value denotes -/

/-- The planned value that a value of the source stands for in a call context. -/
inductive Denotes : ExpansionContext → Value → PlannedValue → Prop
  | capture {i : ℕ} : i < process.captures →
      Denotes .root (.argument process.id 0 i) (.original (.argument process.id 0 i) .root)
  | result {context : ExpansionContext} {op : Operation} {k : ℕ} :
      Reached file process context op → op.isSimple = true → k < op.numResults →
      Denotes context (.result op.id k) (.original (.result op.id k) context)
  | induction {context : ExpansionContext} {id : ℕ} {lower upper step : Value} {inits : List Value}
      {body : List Operation} :
      Reached file process context (.forOp id lower upper step inits body) →
      Denotes context (inductionVar id) (.synthetic id context .initialization 0)
  | carried {context : ExpansionContext} {id : ℕ} {lower upper step : Value} {inits : List Value}
      {body : List Operation} {i : ℕ} :
      Reached file process context (.forOp id lower upper step inits body) → i < inits.length →
      Denotes context (.argument id 0 (i + 1)) (.original (.argument id 0 (i + 1)) context)
  | loopResult {context : ExpansionContext} {id : ℕ} {lower upper step : Value} {inits : List Value}
      {body : List Operation} {i : ℕ} :
      Reached file process context (.forOp id lower upper step inits body) → i < inits.length →
      Denotes context (.result id i) (.original (.argument id 0 (i + 1)) context)
  | argument {context : ExpansionContext} {call : Call} {f : Function} {j : ℕ} {v : Value}
      {p : PlannedValue} :
      Reached file process context (.call call) → file.lookup call.callee = some f →
      call.operands[j]? = some v → Denotes context v p →
      Denotes (context.enter call) (.argument f.id 0 j) p
  | callResult {context : ExpansionContext} {call : Call} {f : Function} {k : ℕ} {v : Value}
      {p : PlannedValue} :
      Reached file process context (.call call) → file.lookup call.callee = some f →
      f.returns[k]? = some v → Denotes (context.enter call) v p →
      Denotes context (.result call.id k) p

/-- The planned values that are captures or results of actions. -/
inductive Produced : PlannedValue → Prop
  | capture {i : ℕ} : i < process.captures →
      Produced (.original (.argument process.id 0 i) .root)
  | result {context : ExpansionContext} {op : Operation} {k : ℕ} :
      Reached file process context op → op.isSimple = true → k < op.numResults →
      Produced (.original (.result op.id k) context)
  | carried {context : ExpansionContext} {id : ℕ} {lower upper step : Value} {inits : List Value}
      {body : List Operation} {i : ℕ} :
      Reached file process context (.forOp id lower upper step inits body) → i < inits.length →
      Produced (.original (.argument id 0 (i + 1)) context)
  | synthetic {context : ExpansionContext} {id : ℕ} {lower upper step : Value} {inits : List Value}
      {body : List Operation} {phase : LoopPhase} {i : ℕ} :
      Reached file process context (.forOp id lower upper step inits body) →
      i = 0 ∨ (phase = .increment ∧ i ≤ inits.length) →
      Produced (.synthetic id context phase i)

/-! ### Which operands are found -/

/-- Values that are found once the operation that defines them has been visited. -/
inductive Settled : ExpansionContext → Value → Prop
  | capture {context : ExpansionContext} {id i : ℕ} {p : Process} :
      file.owner id = some (.process p) → Settled context (.argument id 0 i)
  | result {context : ExpansionContext} {id k : ℕ} {op : Operation} :
      file.owner id = some (.operation op) → op.isSimple = true → Settled context (.result id k)
  | loopArgument {context : ExpansionContext} {id j : ℕ} {lower upper step : Value}
      {inits : List Value} {body : List Operation} :
      file.owner id = some (.operation (.forOp id lower upper step inits body)) →
      Settled context (.argument id 0 j)
  | loopResult {context : ExpansionContext} {id k : ℕ} {lower upper step : Value}
      {inits : List Value} {body : List Operation} :
      file.owner id = some (.operation (.forOp id lower upper step inits body)) →
      Settled context (.result id k)
  | argument {context : ExpansionContext} {call : Call} {id j : ℕ} {f : Function} {v : Value} :
      file.owner id = some (.function f) → call.operands[j]? = some v → Settled context v →
      Settled (context.enter call) (.argument id 0 j)
  | passed {context : ExpansionContext} {call : Call} {id k j : ℕ} {f : Function} {v : Value} :
      file.owner id = some (.operation (.call call)) → file.lookup call.callee = some f →
      f.returns[k]? = some (.argument f.id 0 j) → call.operands[j]? = some v → Settled context v →
      Settled context (.result id k)
  | computed {context : ExpansionContext} {call : Call} {id k o m : ℕ} {f : Function}
      {op : Operation} :
      file.owner id = some (.operation (.call call)) → file.lookup call.callee = some f →
      f.returns[k]? = some (.result o m) → file.owner o = some (.operation op) →
      op.isSimple = true → Settled context (.result id k)

/-- Results that are found although they are used before their operation is visited. -/
inductive Patched : ExpansionContext → Value → Prop
  | result {context : ExpansionContext} {id k : ℕ} {op : Operation} :
      file.owner id = some (.operation op) → op.isSimple = true → Patched context (.result id k)
  | passed {context : ExpansionContext} {call : Call} {id k j : ℕ} {f : Function} {v : Value} :
      file.owner id = some (.operation (.call call)) → file.lookup call.callee = some f →
      f.returns[k]? = some (.argument f.id 0 j) → call.operands[j]? = some v →
      Settled file context v → Patched context (.result id k)
  | returned {context : ExpansionContext} {call : Call} {id k o m : ℕ} {f : Function} :
      file.owner id = some (.operation (.call call)) → file.lookup call.callee = some f →
      f.returns[k]? = some (.result o m) → Patched (context.enter call) (.result o m) →
      Patched context (.result id k)

/-- The value is a result of an operation of the block. -/
def DefinedIn (body : List Operation) (v : Value) : Prop := ∃ op ∈ body, v ∈ op.results

/-- A loop may not yield its own induction variable; the results of its body are used before they
are known. -/
structure SettledYield (context : ExpansionContext) (id : ℕ) (body : List Operation) (v : Value) :
    Prop where
  ne_induction : v ≠ inductionVar id
  inside : DefinedIn body v → Patched file context v
  outside : ¬ DefinedIn body v → Settled file context v

/-- Every operand of an operation that becomes an action is found, in every call context. -/
def OperandsSettled : Prop :=
  ∀ context op, Reached file process context op →
    (op.isAction = true → ∀ v ∈ op.operands, Settled file context v) ∧
    ∀ id lower upper step inits body, op = .forOp id lower upper step inits body →
      ∀ v ∈ yielded body, SettledYield file context id body v

/-! ### The planned values in place of the operands -/

/-- The value a known operand is resolved to. -/
inductive Resolved : ExpansionContext → Value → PlannedValue → Prop
  | capture {i : ℕ} : i < process.captures →
      Resolved .root (.argument process.id 0 i) (.original (.argument process.id 0 i) .root)
  | result {context : ExpansionContext} {op : Operation} {k : ℕ} :
      Reached file process context op → k < op.numResults →
      (∀ call, op ≠ .call call) →
      (∀ id lower upper step inits body, op ≠ .forOp id lower upper step inits body) →
      Resolved context (.result op.id k) (.original (.result op.id k) context)
  | whileArgument {context : ExpansionContext} {id results block i : ℕ} {inits : List Value}
      {before after : List Operation} :
      Reached file process context (.whileOp id inits results before after) →
      Resolved context (.argument id block i) (.original (.argument id block i) context)
  | induction {context : ExpansionContext} {id : ℕ} {lower upper step : Value} {inits : List Value}
      {body : List Operation} :
      Reached file process context (.forOp id lower upper step inits body) →
      Resolved context (inductionVar id) (.synthetic id context .initialization 0)
  | carried {context : ExpansionContext} {id : ℕ} {lower upper step : Value} {inits : List Value}
      {body : List Operation} {i : ℕ} :
      Reached file process context (.forOp id lower upper step inits body) → i < inits.length →
      Resolved context (.argument id 0 (i + 1)) (.original (.argument id 0 (i + 1)) context)
  | loopResult {context : ExpansionContext} {id : ℕ} {lower upper step : Value} {inits : List Value}
      {body : List Operation} {i : ℕ} :
      Reached file process context (.forOp id lower upper step inits body) → i < inits.length →
      Resolved context (.result id i) (.original (.argument id 0 (i + 1)) context)
  | argument {context : ExpansionContext} {call : Call} {f : Function} {j : ℕ} {v : Value}
      {p : PlannedValue} :
      Reached file process context (.call call) → file.lookup call.callee = some f →
      call.operands[j]? = some v → Resolved context v p →
      Resolved (context.enter call) (.argument f.id 0 j) p
  | passed {context : ExpansionContext} {call : Call} {f : Function} {k j : ℕ} {v : Value}
      {p : PlannedValue} :
      Reached file process context (.call call) → file.lookup call.callee = some f →
      f.returns[k]? = some (.argument f.id 0 j) → call.operands[j]? = some v →
      Resolved context v p → Resolved context (.result call.id k) p
  | returned {context : ExpansionContext} {call : Call} {f : Function} {k m : ℕ} {op : Operation} :
      Reached file process context (.call call) → file.lookup call.callee = some f →
      op ∈ f.body → m < op.numResults → f.returns[k]? = some (.result op.id m) →
      Resolved context (.result call.id k) (.original (.result op.id m) (context.enter call))

variable (known : Value → ExpansionContext → Prop)

/-- Results of calls that are not yet known are replaced when their call is visited. -/
def Fixed (p : PlannedValue) : Prop :=
  ∀ id k context call, p = .original (.result id k) context →
    file.owner id = some (.operation (.call call)) → known (.result id k) context

/-- A resolved operand that no later call replaces. -/
structure Late (context : ExpansionContext) (v : Value) (p : PlannedValue) : Prop where
  resolved : Resolved file process context v p
  fixed : Fixed file known p

/-- The value in place of a result that was used before its operation was visited. -/
inductive Early : ExpansionContext → Value → PlannedValue → Prop
  | own {context : ExpansionContext} {op : Operation} {m : ℕ} :
      Reached file process context op → m < op.numResults →
      (∀ call, op = .call call → ¬ known (.result op.id m) context) →
      Early context (.result op.id m) (.original (.result op.id m) context)
  | passed {context : ExpansionContext} {call : Call} {f : Function} {k j : ℕ} {v : Value}
      {p : PlannedValue} :
      Reached file process context (.call call) → file.lookup call.callee = some f →
      f.returns[k]? = some (.argument f.id 0 j) → call.operands[j]? = some v →
      Late file process known context v p → Early context (.result call.id k) p
  | returned {context : ExpansionContext} {call : Call} {f : Function} {k o m : ℕ}
      {p : PlannedValue} :
      Reached file process context (.call call) → file.lookup call.callee = some f →
      f.returns[k]? = some (.result o m) → Early (context.enter call) (.result o m) p →
      Early context (.result call.id k) p

/-- The value in place of a yielded one. -/
inductive YieldSlot (context : ExpansionContext) (id : ℕ) (body : List Operation) :
    Value → PlannedValue → Prop
  | induction : YieldSlot context id body (inductionVar id) (.original (inductionVar id) context)
  | inside {v : Value} {p : PlannedValue} : v ≠ inductionVar id → DefinedIn body v →
      Early file process known context v p → YieldSlot context id body v p
  | outside {v : Value} {p : PlannedValue} : v ≠ inductionVar id → ¬ DefinedIn body v →
      Late file process known context v p → YieldSlot context id body v p

end relations

/-! ### Owners -/

variable {op parent : Operation} {file : File} {id : ℕ}

theorem mem_trees : ∀ {body : List Operation}, op ∈ body → op ∈ trees body
  | first :: rest, h => by
    rw [trees, mem_append]
    obtain rfl | h := mem_cons.mp h
    · left
      cases op <;> simp [Operation.tree]
    · exact .inr (mem_trees h)

mutual

theorem pushed_mem_tree (hop : op ∈ parent.pushed) :
    ∀ {top : Operation}, parent ∈ top.tree → op ∈ top.tree
  | .forOp id lower upper step inits body, h => by
    obtain rfl | h := mem_cons.mp h
    · exact mem_cons_of_mem _ (mem_trees hop)
    · exact mem_cons_of_mem _ (pushed_mem_trees hop h)
  | .ifOp id condition results thenBody elseBody, h
  | .whileOp id inits results before after, h => by
    obtain rfl | h := mem_cons.mp h
    · obtain hop | hop := mem_append.mp hop
      · exact mem_cons_of_mem _ (mem_append_right _ (mem_trees hop))
      · exact mem_cons_of_mem _ (mem_append_left _ (mem_trees hop))
    · obtain h | h := mem_append.mp h
      · exact mem_cons_of_mem _ (mem_append_left _ (pushed_mem_trees hop h))
      · exact mem_cons_of_mem _ (mem_append_right _ (pushed_mem_trees hop h))
  | .instrumentation id body, h => by
    obtain rfl | h := mem_cons.mp h
    · cases hop
    · exact mem_cons_of_mem _ (pushed_mem_trees hop h)
  | .simple .., h | .call _, h | .ret _ _, h | .yield _ _, h | .condition _ _, h => by
    obtain rfl := mem_singleton.mp h
    cases hop

theorem pushed_mem_trees (hop : op ∈ parent.pushed) :
    ∀ {body : List Operation}, parent ∈ trees body → op ∈ trees body
  | first :: rest, h => by
    rw [trees, mem_append] at h ⊢
    exact h.imp (pushed_mem_tree hop) (pushed_mem_trees hop)

end

/-- The identities tell the owners apart. -/
theorem File.owner_of_mem (hids : (file.owners.map Prod.fst).Nodup) {o : Owner}
    (h : (id, o) ∈ file.owners) : file.owner id = some o := by
  unfold File.owner
  generalize file.owners = owners at hids h
  induction owners with
  | nil => cases h
  | cons first rest ih =>
    rw [map_cons, nodup_cons] at hids
    obtain rfl | h := mem_cons.mp h
    · simp
    · have hne : first.1 ≠ id := by
        rintro rfl
        exact hids.1 (mem_map.mpr ⟨_, h, rfl⟩)
      rw [find?_cons_of_neg (by simpa using hne)]
      exact ih hids.2 h

theorem File.id_of_owner (h : file.owner id = some (.operation op)) : op.id = id := by
  obtain ⟨⟨id', o⟩, hfind, ho⟩ := Option.map_eq_some_iff.mp h
  have hid : id' = id := by simpa using find?_some hfind
  have hmem := mem_of_find?_eq_some hfind
  simp only [owners, mem_append, mem_map, Prod.mk.injEq] at hmem ho
  obtain ⟨_, _, _, rfl⟩ | ⟨_, _, _, rfl⟩ | ⟨op', _, hop', rfl⟩ := hmem
  · cases ho
  · cases ho
  · cases ho
    exact hop'.trans hid

section owners

variable {file : File} {process : Process} (hfile : file.WellFormed)
  (hprocess : process ∈ file.processes)

variable {context : ExpansionContext} {op : Operation}

include hprocess in
theorem Reached.mem_operations (h : Reached file process context op) : op ∈ file.operations := by
  induction h with
  | body hop =>
    exact mem_append_left _ (mem_flatMap.mpr ⟨_, hprocess, mem_trees hop⟩)
  | region _ hop ih =>
    obtain h | h := mem_append.mp ih
    · obtain ⟨p, hp, h⟩ := mem_flatMap.mp h
      exact mem_append_left _ (mem_flatMap.mpr ⟨p, hp, pushed_mem_trees hop h⟩)
    · obtain ⟨f, hf, h⟩ := mem_flatMap.mp h
      exact mem_append_right _ (mem_flatMap.mpr ⟨f, hf, pushed_mem_trees hop h⟩)
  | callee _ hf hop _ =>
    exact mem_append_right _
      (mem_flatMap.mpr ⟨_, mem_of_find?_eq_some hf, mem_trees hop⟩)

include hfile hprocess

theorem Reached.owner (h : Reached file process context op) :
    file.owner op.id = some (.operation op) :=
  File.owner_of_mem hfile.ids_nodup (mem_append_right _ (mem_append_right _
    (mem_map_of_mem (h.mem_operations hprocess))))

omit hprocess in
theorem owner_function {name : String} {f : Function} (h : file.lookup name = some f) :
    file.owner f.id = some (.function f) :=
  File.owner_of_mem hfile.ids_nodup (mem_append_right _ (mem_append_left _
    (mem_map.mpr ⟨f, mem_of_find?_eq_some h, rfl⟩)))

theorem owner_process : file.owner process.id = some (.process process) :=
  File.owner_of_mem hfile.ids_nodup (mem_append_left _ (mem_map.mpr ⟨process, hprocess, rfl⟩))

end owners

theorem ExpansionContext.enter_inj {context context' : ExpansionContext} {call call' : Call}
    (h : context.enter call = context'.enter call') : context = context' ∧ call = call' := by
  obtain ⟨sites, iterations⟩ := context
  obtain ⟨sites', iterations'⟩ := context'
  simp only [enter, mk.injEq, append_singleton_inj, CallSite.mk.injEq] at h
  obtain ⟨⟨rfl, rfl, _⟩, rfl⟩ := h
  exact ⟨rfl, rfl⟩

theorem ExpansionContext.enter_ne (context : ExpansionContext) (call : Call) :
    context.enter call ≠ context := by
  intro h
  have := congrArg (fun c => c.callSites.length) h
  simp [enter] at this

/-! ### Settled values are the ones resolved right -/

section dichotomy

variable {file : File} {process : Process}
variable {context : ExpansionContext} {v : Value}

variable {call : Call} {f : Function} {id j k : ℕ}

theorem Settled.of_argument (hf : file.owner f.id = some (.function f))
    (hv : call.operands[j]? = some v) (h : Settled file (context.enter call) (.argument f.id 0 j)) :
    Settled file context v := by
  generalize hc : context.enter call = inner at h
  cases h with
  | capture ho | loopArgument ho => cases hf.symm.trans ho
  | argument _ hv' h =>
    obtain ⟨rfl, rfl⟩ := enter_inj hc
    rw [hv] at hv'
    cases hv'
    exact h

theorem Settled.of_passed (ho : file.owner id = some (.operation (.call call)))
    (hf : file.lookup call.callee = some f) (hret : f.returns[k]? = some (.argument f.id 0 j))
    (hv : call.operands[j]? = some v) (h : Settled file context (.result id k)) :
    Settled file context v := by
  cases h with
  | result ho' hop => cases ho.symm.trans ho'; cases hop
  | loopResult ho' => cases ho.symm.trans ho'
  | passed ho' hf' hret' hv' h =>
    cases ho.symm.trans ho'
    cases hf.symm.trans hf'
    cases hret.symm.trans hret'
    cases hv.symm.trans hv'
    exact h
  | computed ho' hf' hret' _ _ =>
    cases ho.symm.trans ho'
    cases hf.symm.trans hf'
    cases hret.symm.trans hret'

theorem Settled.of_returned {o m : ℕ} {op : Operation}
    (ho : file.owner id = some (.operation (.call call))) (hf : file.lookup call.callee = some f)
    (hret : f.returns[k]? = some (.result o m)) (hop : file.owner o = some (.operation op))
    (h : Settled file context (.result id k)) : op.isSimple = true := by
  cases h with
  | result ho' hop => cases ho.symm.trans ho'; cases hop
  | loopResult ho' => cases ho.symm.trans ho'
  | passed ho' hf' hret' _ _ =>
    cases ho.symm.trans ho'
    cases hf.symm.trans hf'
    cases hret.symm.trans hret'
  | computed ho' hf' hret' hop' hsimple =>
    cases ho.symm.trans ho'
    cases hf.symm.trans hf'
    cases hret.symm.trans hret'
    cases hop.symm.trans hop'
    exact hsimple

variable (hfile : file.WellFormed) (hprocess : process ∈ file.processes)

include hfile hprocess

variable {id : ℕ} {op : Operation} {p : PlannedValue} {known : Value → ExpansionContext → Prop}

theorem not_produced_result {k : ℕ} (ho : file.owner id = some (.operation op))
    (hop : op.isSimple = false) : ¬ Produced file process (.original (.result id k) context) := by
  intro h
  generalize hp : PlannedValue.original (.result id k) context = p at h
  cases h with
  | result hreach hsimple _ =>
    cases hp
    cases ho.symm.trans (hreach.owner hfile hprocess)
    rw [hop] at hsimple
    cases hsimple
  | _ => cases hp

theorem not_produced_argument {block j : ℕ} (ho : file.owner id = some (.operation op))
    (hop : block ≠ 0 ∨ j = 0 ∨ ∀ id lower upper step inits body,
      op ≠ .forOp id lower upper step inits body) :
    ¬ Produced file process (.original (.argument id block j) context) := by
  intro h
  generalize hp : PlannedValue.original (.argument id block j) context = p at h
  cases h with
  | capture _ =>
    cases hp
    cases ho.symm.trans (owner_process hfile hprocess)
  | carried hreach _ =>
    cases hp
    have hloop := ho.symm.trans (hreach.owner hfile hprocess)
    simp only [Option.some.injEq, Owner.operation.injEq] at hloop
    obtain h | h | h := hop
    · exact h rfl
    · cases h
    · exact h _ _ _ _ _ _ hloop
  | _ => cases hp

/-- A known operand is right exactly when it is settled. -/
theorem Resolved.dichotomy (h : Resolved file process context v p) :
    (Settled file context v ∧ Produced file process p ∧ Denotes file process context v p) ∨
    (¬ Settled file context v ∧ ¬ Produced file process p) := by
  induction h with
  | capture hi =>
    exact .inl ⟨.capture (owner_process hfile hprocess), .capture hi, .capture hi⟩
  | @result context op k hreach hk hcall hloop =>
    have ho := hreach.owner hfile hprocess
    obtain hsimple | hsimple := Bool.eq_false_or_eq_true op.isSimple
    · exact .inl ⟨.result ho hsimple, .result hreach hsimple hk, .result hreach hsimple hk⟩
    · refine .inr ⟨fun h => ?_, not_produced_result hfile hprocess ho hsimple⟩
      cases h with
      | result ho' h =>
        cases ho.symm.trans ho'
        rw [hsimple] at h
        cases h
      | loopResult ho' =>
        exact hloop _ _ _ _ _ _ (Owner.operation.inj (Option.some.inj (ho.symm.trans ho')))
      | passed ho' _ _ _ _ | computed ho' _ _ _ _ =>
        cases ho.symm.trans ho'
        exact hcall _ rfl
  | whileArgument hreach =>
    have ho := hreach.owner hfile hprocess
    refine .inr ⟨fun h => ?_, not_produced_argument hfile hprocess ho (.inr (.inr nofun))⟩
    cases h with
    | capture ho' | loopArgument ho' | argument ho' _ _ => cases ho.symm.trans ho'
  | induction hreach =>
    have ho := hreach.owner hfile hprocess
    exact .inl ⟨.loopArgument ho, .synthetic hreach (.inl rfl), .induction hreach⟩
  | carried hreach hi =>
    have ho := hreach.owner hfile hprocess
    exact .inl ⟨.loopArgument ho, .carried hreach hi, .carried hreach hi⟩
  | loopResult hreach hi =>
    have ho := hreach.owner hfile hprocess
    exact .inl ⟨.loopResult ho, .carried hreach hi, .loopResult hreach hi⟩
  | argument hreach hf hv _ ih =>
    have ho := owner_function hfile hf
    obtain ⟨hs, hp, hd⟩ | ⟨hs, hp⟩ := ih
    · exact .inl ⟨.argument ho hv hs, hp, .argument hreach hf hv hd⟩
    · exact .inr ⟨fun h => hs (h.of_argument ho hv), hp⟩
  | passed hreach hf hret hv _ ih =>
    have ho := hreach.owner hfile hprocess
    obtain ⟨hs, hp, hd⟩ | ⟨hs, hp⟩ := ih
    · exact .inl ⟨.passed ho hf hret hv hs, hp,
        .callResult hreach hf hret (.argument hreach hf hv hd)⟩
    · exact .inr ⟨fun h => hs (h.of_passed ho hf hret hv), hp⟩
  | @returned context call f k m op hreach hf hop hm hret =>
    have ho := hreach.owner hfile hprocess
    have hin : Reached file process (context.enter call) op := .callee hreach hf hop
    have hop' := hin.owner hfile hprocess
    obtain hsimple | hsimple := Bool.eq_false_or_eq_true op.isSimple
    · exact .inl ⟨.computed ho hf hret hop' hsimple, .result hin hsimple hm,
        .callResult hreach hf hret (.result hin hsimple hm)⟩
    · refine .inr ⟨fun h => ?_, not_produced_result hfile hprocess hop' hsimple⟩
      have := h.of_returned ho hf hret hop'
      rw [hsimple] at this
      cases this

/-- Once every call has been visited, a patched operand is right exactly when it can be. -/
theorem Early.dichotomy
    (hknown : ∀ context call k, Reached file process context (.call call) → k < call.results →
      known (.result call.id k) context) (h : Early file process known context v p) :
    (Patched file context v ∧ Produced file process p ∧ Denotes file process context v p) ∨
    (¬ Patched file context v ∧ ¬ Produced file process p) := by
  induction h with
  | @own context op m hreach hm hunknown =>
    have ho := hreach.owner hfile hprocess
    obtain hsimple | hsimple := Bool.eq_false_or_eq_true op.isSimple
    · exact .inl ⟨.result ho hsimple, .result hreach hsimple hm, .result hreach hsimple hm⟩
    · refine .inr ⟨fun h => ?_, not_produced_result hfile hprocess ho hsimple⟩
      cases h with
      | result ho' h =>
        cases ho.symm.trans ho'
        rw [hsimple] at h
        cases h
      | passed ho' _ _ _ _ | returned ho' _ _ _ =>
        cases ho.symm.trans ho'
        exact hunknown _ rfl (hknown _ _ _ hreach hm)
  | passed hreach hf hret hv hlate =>
    have ho := hreach.owner hfile hprocess
    obtain ⟨hs, hp, hd⟩ | ⟨hs, hp⟩ := hlate.resolved.dichotomy hfile hprocess
    · exact .inl ⟨.passed ho hf hret hv hs, hp,
        .callResult hreach hf hret (.argument hreach hf hv hd)⟩
    · refine .inr ⟨fun h => ?_, hp⟩
      cases h with
      | result ho' hop => cases ho.symm.trans ho'; cases hop
      | passed ho' hf' hret' hv' h =>
        cases ho.symm.trans ho'
        cases hf.symm.trans hf'
        cases hret.symm.trans hret'
        cases hv.symm.trans hv'
        exact hs h
      | returned ho' hf' hret' _ =>
        cases ho.symm.trans ho'
        cases hf.symm.trans hf'
        cases hret.symm.trans hret'
  | returned hreach hf hret _ ih =>
    have ho := hreach.owner hfile hprocess
    obtain ⟨hs, hp, hd⟩ | ⟨hs, hp⟩ := ih
    · exact .inl ⟨.returned ho hf hret hs, hp, .callResult hreach hf hret hd⟩
    · refine .inr ⟨fun h => ?_, hp⟩
      cases h with
      | result ho' hop => cases ho.symm.trans ho'; cases hop
      | passed ho' hf' hret' _ _ =>
        cases ho.symm.trans ho'
        cases hf.symm.trans hf'
        cases hret.symm.trans hret'
      | returned ho' hf' hret' h =>
        cases ho.symm.trans ho'
        cases hf.symm.trans hf'
        cases hret.symm.trans hret'
        exact hs h

theorem YieldSlot.dichotomy
    (hknown : ∀ context call k, Reached file process context (.call call) → k < call.results →
      known (.result call.id k) context) {lower upper step : Value} {inits : List Value}
    {body : List Operation}
    (hreach : Reached file process context (.forOp id lower upper step inits body))
    (h : YieldSlot file process known context id body v p) :
    (SettledYield file context id body v ∧ Produced file process p ∧
      Denotes file process context v p) ∨
    (¬ SettledYield file context id body v ∧ ¬ Produced file process p) := by
  cases h with
  | induction =>
    have ho := hreach.owner hfile hprocess
    exact .inr ⟨fun h => h.ne_induction rfl,
      not_produced_argument hfile hprocess ho (.inr (.inl rfl))⟩
  | inside hne hin hearly =>
    obtain ⟨hs, hp, hd⟩ | ⟨hs, hp⟩ := hearly.dichotomy hfile hprocess hknown
    · exact .inl ⟨⟨hne, fun _ => hs, fun hout => absurd hin hout⟩, hp, hd⟩
    · exact .inr ⟨fun h => hs (h.inside hin), hp⟩
  | outside hne hout hlate =>
    obtain ⟨hs, hp, hd⟩ | ⟨hs, hp⟩ := hlate.resolved.dichotomy hfile hprocess
    · exact .inl ⟨⟨hne, fun hin => absurd hin hout, fun _ => hs⟩, hp, hd⟩
    · exact .inr ⟨fun h => hs (h.outside hout), hp⟩

end dichotomy

end AgenticCircuit.ProcessPlan
