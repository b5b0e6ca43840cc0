import AgenticCircuit.ProcessPlan.Schedule

/-! # Bindings and forwarding

The environment is looked at through `Environment.value`, the planned value a lookup gives whether
or not it is bound, which `defineValue` and `resolveValue` leave as it is.  The parts of a turn of the
loop are described by what they do to these values and to the operands of the actions so far. -/

namespace AgenticCircuit.ProcessPlan

open List Environment

/-! ### The environment through its values -/

theorem ExpansionContext.key_length (context : ExpansionContext) :
    context.key context.iterations.length = context := by
  obtain ⟨sites, iterations⟩ := context
  simp [key]

namespace Environment

/-- What a value stands for, bound or not. -/
def value (env : Environment) (v : Value) (context : ExpansionContext) : PlannedValue :=
  (env v context).getD (.original v context)

variable (env : Environment)

theorem value_insertOrAssign (v v' : Value) (context context' : ExpansionContext) (p : PlannedValue) :
    (env.insertOrAssign v context p).value v' context' =
      if v' = v ∧ context' = context then p else env.value v' context' := by
  unfold value insertOrAssign
  split <;> rfl

theorem defineValue_fst (v : Value) (context : ExpansionContext) :
    (env.defineValue v context).1 = env.value v context := by
  unfold defineValue value
  rw [context.key_length]
  cases env v context <;> rfl

theorem defineValue_value (v : Value) (context : ExpansionContext) :
    (env.defineValue v context).2.value = env.value := by
  unfold defineValue
  rw [context.key_length]
  cases h : env v context with
  | some p => rfl
  | none =>
    funext v' context'
    rw [value_insertOrAssign]
    split
    · rename_i heq
      rw [heq.1, heq.2, value, h]
      rfl
    · rfl

variable {context : ExpansionContext}

theorem resolveValue_eq (hcontext : context.iterations = []) (env : Environment) (v : Value) :
    env.resolveValue v context = env.defineValue v context := by
  have hkey : context.key 0 = context := by
    simpa [hcontext] using context.key_length
  simp only [resolveValue, hcontext, List.length_nil, lookup, hkey]
  cases h : env v context with
  | some p =>
    unfold defineValue
    rw [context.key_length, h]
  | none => rfl

theorem resolveValues_fst (hcontext : context.iterations = []) (vs : List Value) :
    ∀ env : Environment, (resolveValues context env vs).1 = vs.map (env.value · context) := by
  induction vs with
  | nil => exact fun _ => rfl
  | cons v vs ih =>
    intro env
    simp [resolveValues, resolveValue_eq hcontext, ih, defineValue_fst, defineValue_value]

theorem resolveValues_value (hcontext : context.iterations = []) (vs : List Value) :
    ∀ env : Environment, (resolveValues context env vs).2.value = env.value := by
  induction vs with
  | nil => exact fun _ => rfl
  | cons v vs ih =>
    intro env
    simp only [resolveValues, resolveValue_eq hcontext, ih, defineValue_value]

theorem defineValues_fst (vs : List Value) :
    ∀ env : Environment, (defineValues context env vs).1 = vs.map (env.value · context) := by
  induction vs with
  | nil => exact fun _ => rfl
  | cons v vs ih =>
    intro env
    simp [defineValues, ih, defineValue_fst, defineValue_value]

theorem defineValues_value (vs : List Value) :
    ∀ env : Environment, (defineValues context env vs).2.value = env.value := by
  induction vs with
  | nil => exact fun _ => rfl
  | cons v vs ih =>
    intro env
    simp only [defineValues, ih, defineValue_value]

end Environment

/-! ### The parts of a turn -/

namespace Expansion

variable {limits : RawModelStructureLimits} {s s' : Expansion}

variable {count : ℕ} {context toContext : ExpansionContext}

theorem reserveNodes_eq (h : s.reserveNodes limits count = some s') :
    s' = { s with nodes := s.nodes + count } ∧
      (s.nodes ≤ limits.maxNodes → s'.nodes ≤ limits.maxNodes) := by
  unfold reserveNodes at h
  split at h
  · cases h
  · cases h
    refine ⟨rfl, fun hle => ?_⟩
    show s.nodes + count ≤ _
    omega

theorem reserveEdges_eq (h : s.reserveEdges limits count = some s') :
    s' = { s with edges := s.edges + count } := by
  unfold reserveEdges at h
  split at h
  · cases h
  · cases h
    rfl

/-- A block is pushed in front of what is pending. -/
structure Pushed (limits : RawModelStructureLimits) (tasks : List Task) (s s' : Expansion) : Prop where
  actions : s'.actions = s.actions
  environment : s'.environment = s.environment
  pending : s'.pending = tasks ++ s.pending
  nodes : s'.nodes = s.nodes + tasks.length
  within : s.nodes ≤ limits.maxNodes → s'.nodes ≤ limits.maxNodes

theorem pushBlock_eq {ops : List Operation} (h : s.pushBlock limits context ops = some s') :
    Pushed limits (ops.map fun op => ⟨op, context⟩) s s' := by
  induction ops generalizing s' with
  | nil =>
    cases h
    exact ⟨rfl, rfl, rfl, rfl, id⟩
  | cons op ops ih =>
    simp only [pushBlock, Option.bind_eq_bind, Option.bind_eq_some_iff] at h
    obtain ⟨s₁, h₁, s₂, h₂, s₃, h₃, h⟩ := h
    obtain ⟨hactions, henv, hpending, hnodes, hwithin⟩ := ih h₁
    obtain ⟨rfl, hle⟩ := reserveNodes_eq h₂
    obtain rfl := reserveEdges_eq h₃
    cases h
    refine ⟨hactions, henv, ?_, ?_, fun h => hle (hwithin h)⟩
    · simp [hpending]
    · simp [hnodes]
      omega

/-- The operands of all actions are replaced by a function. -/
def mapOperands (ρ : PlannedValue → PlannedValue) (action : ExpandedAction) : ExpandedAction :=
  { action with operands := action.operands.map ρ }

theorem mapOperands_id : mapOperands id = id := by
  funext a
  simp [mapOperands]

theorem addForwarding_eq {v w : Value} (hcontext : context.iterations = [])
    (h : s.addForwarding limits v context w toContext = some s') :
    s'.actions = s.actions.map (mapOperands (rewriteUse (s.environment.value w toContext)
      (s.environment.value v context))) ∧
    s'.pending = s.pending ∧ s'.nodes = s.nodes ∧
    ∀ v' context', s'.environment.value v' context' =
      if v' = w ∧ context' = toContext then s.environment.value v context
      else s.environment.value v' context' := by
  simp only [addForwarding, Option.bind_eq_bind, Option.bind_eq_some_iff] at h
  obtain ⟨s₁, h₁, h⟩ := h
  obtain rfl := reserveEdges_eq h₁
  cases h
  simp only [resolveValue_eq hcontext, defineValue_fst,
    defineValue_value, value_insertOrAssign, ExpansionContext.key_length]
  exact ⟨rfl, trivial, trivial, fun _ _ => trivial⟩

/-- The values on the right of the pairs are bound to those on the left, and replaced by them. -/
structure Forwarded (context toContext : ExpansionContext) (pairs : List (Value × Value))
    (ρ : PlannedValue → PlannedValue) (s s' : Expansion) : Prop where
  actions : s'.actions = s.actions.map (mapOperands ρ)
  pending : s'.pending = s.pending
  nodes : s'.nodes = s.nodes
  keeps : ∀ p, (∀ w ∈ pairs.map Prod.snd, p ≠ .original w toContext) → ρ p = p
  replaces : ∀ pair ∈ pairs, ρ (.original pair.2 toContext) = s.environment.value pair.1 context
  unchanged : ∀ v c, c ≠ toContext ∨ v ∉ pairs.map Prod.snd →
    s'.environment.value v c = s.environment.value v c
  bound : ∀ pair ∈ pairs,
    s'.environment.value pair.2 toContext = s.environment.value pair.1 context

theorem addForwardings_eq (hcontext : context.iterations = []) (hne : context ≠ toContext)
    {pairs : List (Value × Value)} (hnodup : (pairs.map Prod.snd).Nodup)
    (hunknown : ∀ w ∈ pairs.map Prod.snd, s.environment.value w toContext = .original w toContext)
    (hsource : ∀ pair ∈ pairs, ∀ w ∈ pairs.map Prod.snd,
      s.environment.value pair.1 context ≠ .original w toContext)
    (h : s.addForwardings limits context toContext pairs = some s') :
    ∃ ρ, Forwarded context toContext pairs ρ s s' := by
  induction pairs generalizing s with
  | nil =>
    cases h
    refine ⟨id, ?_, rfl, rfl, fun _ _ => rfl, nofun, fun _ _ _ => rfl, nofun⟩
    rw [mapOperands_id, map_id]
  | cons pair rest ih =>
    obtain ⟨v, w⟩ := pair
    simp only [addForwardings, Option.bind_eq_bind, Option.bind_eq_some_iff] at h
    obtain ⟨s₁, h₁, h⟩ := h
    obtain ⟨hactions, hpending, hnodes, hvalue⟩ := addForwarding_eq hcontext h₁
    rw [map_cons, nodup_cons] at hnodup
    have hsame : ∀ v', s₁.environment.value v' context = s.environment.value v' context := by
      intro v'
      rw [hvalue, if_neg fun heq => hne heq.2]
    have hother : ∀ w' ∈ rest.map Prod.snd, w' ≠ w := by
      rintro w' hw' rfl
      exact hnodup.1 hw'
    obtain ⟨ρ, hρ⟩ := ih hnodup.2
      (fun w' hw' => by
        rw [hvalue, if_neg fun heq => hother w' hw' heq.1]
        exact hunknown w' (mem_cons_of_mem _ hw'))
      (fun pair hpair w' hw' => by
        rw [hsame]
        exact hsource pair (mem_cons_of_mem _ hpair) w' (mem_cons_of_mem _ hw'))
      h
    rw [hunknown w mem_cons_self] at hactions
    refine ⟨ρ ∘ rewriteUse (.original w toContext) (s.environment.value v context),
      ?_, hρ.pending.trans hpending, hρ.nodes.trans hnodes, ?_, ?_, ?_, ?_⟩
    · rw [hρ.actions, hactions, map_map]
      refine map_congr_left fun a _ => ?_
      simp [mapOperands]
    · intro p hp
      rw [Function.comp_apply, rewriteUse, if_neg (hp w mem_cons_self)]
      exact hρ.keeps p fun w' hw' => hp w' (mem_cons_of_mem _ hw')
    · intro pair hpair
      obtain rfl | hpair := mem_cons.mp hpair
      · rw [Function.comp_apply, rewriteUse, if_pos rfl]
        exact hρ.keeps _ fun w' hw' =>
          hsource (v, w) mem_cons_self w' (mem_cons_of_mem _ hw')
      · have hpw := hother pair.2 (mem_map_of_mem hpair)
        rw [Function.comp_apply, rewriteUse, if_neg (by simpa using hpw),
          hρ.replaces pair hpair, hsame]
    · intro v' c hc
      rw [hρ.unchanged v' c (hc.imp id fun hv' hmem => hv' (mem_cons_of_mem _ hmem)),
        hvalue, if_neg]
      rintro ⟨rfl, rfl⟩
      exact hc.elim (fun h => h rfl) fun h => h mem_cons_self
    · intro pair hpair
      obtain rfl | hpair := mem_cons.mp hpair
      · rw [hρ.unchanged _ _ (.inr hnodup.1), hvalue, if_pos ⟨rfl, rfl⟩]
      · rw [hρ.bound pair hpair, hsame]

/-- The carried values of a loop are bound to the iteration arguments. -/
theorem bindCarried_eq (id : ℕ) (context : ExpansionContext) (env : Environment) (count : ℕ) :
    (bindCarried id context count env).1 = (iterArgs id count).map (env.value · context) ∧
    (∀ v c, (∀ i < count, v ≠ .result id i) ∨ c ≠ context →
      (bindCarried id context count env).2.value v c = env.value v c) ∧
    ∀ i < count, (bindCarried id context count env).2.value (.result id i) context =
      env.value (.argument id 0 (i + 1)) context := by
  induction count with
  | zero => exact ⟨rfl, fun _ _ _ => rfl, nofun⟩
  | succ count ih =>
    obtain ⟨hfst, hother, hresult⟩ := ih
    have hargument : (bindCarried id context count env).2.value (.argument id 0 (count + 1)) context =
        env.value (.argument id 0 (count + 1)) context := hother _ _ (.inl fun _ _ => nofun)
    simp only [bindCarried, defineValue_fst, value_insertOrAssign,
      defineValue_value, ExpansionContext.key_length, hargument]
    refine ⟨?_, ?_, ?_⟩
    · simp [hfst, iterArgs, range_succ]
    · intro v c hv
      rw [if_neg, ite_eq_right_iff.mpr]
      · exact hother v c (hv.imp_left fun hv i hi => hv i (by omega))
      · rintro ⟨rfl, rfl⟩
        exact hargument.symm
      · rintro ⟨rfl, rfl⟩
        exact hv.elim (fun hv => hv count (by omega) rfl) fun hc => hc rfl
    · intro i hi
      by_cases heq : i = count
      · rw [heq, if_pos ⟨rfl, trivial⟩]
      · rw [if_neg (by simpa using heq), if_neg nofun]
        exact hresult i (by omega)

theorem loopActions_eq (id : ℕ) (lower upper step : Value) (inits : List Value)
    (body : List Operation) (hcontext : context.iterations = []) (env : Environment) :
    (loopActions id lower upper step inits body context env).2.value =
      (bindCarried id context inits.length env).2.value ∧
    (loopActions id lower upper step inits body context env).1 =
      [⟨.forInitialize, .forOp id lower upper step inits body, context,
          (lower :: inits).map ((bindCarried id context inits.length env).2.value · context),
          .synthetic id context .initialization 0 :: (iterArgs id inits.length).map (env.value · context),
          none⟩,
        ⟨.forCondition, .forOp id lower upper step inits body, context,
          [.synthetic id context .initialization 0,
            (bindCarried id context inits.length env).2.value upper context],
          [.synthetic id context .condition 0], some (makeScalar "arith.cmpi" true)⟩,
        ⟨.forIncrement, .forOp id lower upper step inits body, context,
          [.synthetic id context .initialization 0,
            (bindCarried id context inits.length env).2.value step context] ++
            (iterArgs id inits.length).map (env.value · context) ++
            (yielded body).map ((bindCarried id context inits.length env).2.value · context),
          .synthetic id context .increment 0 ::
            (List.range inits.length).map fun i => .synthetic id context .increment (i + 1),
          some (makeScalar "arith.addi" false)⟩] := by
  simp only [loopActions, resolveValues_value hcontext,
    resolveValues_fst hcontext, resolveValue_eq hcontext,
    defineValue_fst, defineValue_value, (bindCarried_eq id context env _).1]
  exact ⟨trivial, trivial⟩

theorem forwardReturns_eq {f : Function} (hlast : f.returnsLast = true) (call : Call)
    (context : ExpansionContext) : s.forwardReturns limits call context f.body =
      s.addForwardings limits (context.enter call) context
        (f.returns.zip ((List.range call.results).map (.result call.id))) := by
  have hgeneral : ∀ (init : List Operation) (id : ℕ) (operands : List Value),
      init.all (fun op => !op.isTerminator) = true →
      s.forwardReturns limits call context (init ++ [.ret id operands]) =
        s.addForwardings limits (context.enter call) context
          (operands.zip ((List.range call.results).map (.result call.id))) := by
    intro init id operands hinit
    induction init with
    | nil =>
      rw [nil_append, forwardReturns]
      exact Option.bind_fun_some _
    | cons op init ih =>
      rw [all_cons, Bool.and_eq_true] at hinit
      cases op with
      | ret _ _ => cases hinit.1
      | _ => exact ih hinit.2
  unfold Function.returnsLast at hlast
  rw [Bool.and_eq_true] at hlast
  unfold Function.returns
  cases hend : f.body.getLast? with
  | none => simp [hend] at hlast
  | some last =>
    cases last with
    | ret id operands =>
      have hbody := dropLast_append_getLast? _ hend
      rw [← hgeneral f.body.dropLast id operands hlast.1, hbody]
    | _ => simp [hend] at hlast

theorem bindInduction_value {id : ℕ} (v : Value) (c : ExpansionContext) :
    (s.bindInduction id context).environment.value v c =
      if v = inductionVar id ∧ c = context then .synthetic id context .initialization 0
      else s.environment.value v c := by
  simp only [bindInduction, value_insertOrAssign, defineValue_value, ExpansionContext.key_length]

end Expansion

end AgenticCircuit.ProcessPlan
