import AgenticCircuit.ProcessPlan.Resolution

/-! # The order in which expansion visits operations

What holds of the tasks visited and the tasks pending, whatever is bound on the way.  A context on
the stack is a prefix of those above it, so that the body of a callee is expanded completely before
the operation after the call; a task finds its operands defined by tasks visited before it; and no
task is visited twice. -/

namespace AgenticCircuit.ProcessPlan

open List ExpansionContext
open Operation (tree pushed dominated)

variable {file : File} {process : Process}

/-- The tasks a task pushes. -/
def Task.children (file : File) (t : Task) : List Task :=
  match t.operation with
  | .call call =>
    match file.lookup call.callee with
    | some f => f.body.map fun op => ⟨op, t.context.enter call⟩
    | none => []
  | op => op.pushed.map fun op => ⟨op, t.context⟩

def Task.key (t : Task) : ℕ × ExpansionContext := (t.operation.id, t.context)

/-- The keys of the operations inside a task. -/
def Task.keys (t : Task) : List (ℕ × ExpansionContext) :=
  t.operation.tree.map fun op => (op.id, t.context)

/-- The values that are defined by the tasks visited. -/
inductive Known (file : File) (process : Process) (visited : List Task) :
    Value → ExpansionContext → Prop
  | capture {i : ℕ} : i < process.captures →
      Known file process visited (.argument process.id 0 i) .root
  | result {t : Task} {k : ℕ} : t ∈ visited → k < t.operation.numResults →
      Known file process visited (.result t.operation.id k) t.context
  | loopArgument {t : Task} {id j : ℕ} {lower upper step : Value} {inits : List Value}
      {body : List Operation} :
      t ∈ visited → t.operation = .forOp id lower upper step inits body → j ≤ inits.length →
      Known file process visited (.argument id 0 j) t.context
  | whileArgument {t : Task} {id results block i : ℕ} {inits : List Value}
      {before after : List Operation} :
      t ∈ visited → t.operation = .whileOp id inits results before after →
      Known file process visited (.argument id block i) t.context
  | argument {t : Task} {call : Call} {f : Function} {j : ℕ} :
      t ∈ visited → t.operation = .call call → file.lookup call.callee = some f →
      j < f.arguments → Known file process visited (.argument f.id 0 j) (t.context.enter call)

variable {context : ExpansionContext} {known : Value → ExpansionContext → Prop} {t : Task}
    {f : Function}

theorem Known.mono {visited visited' : List Task} (hsub : visited ⊆ visited') {v : Value}
    (h : Known file process visited v context) : Known file process visited' v context := by
  cases h with
  | capture hi => exact .capture hi
  | result ht hk => exact .result (hsub ht) hk
  | loopArgument ht hop hj => exact .loopArgument (hsub ht) hop hj
  | whileArgument ht hop => exact .whileArgument (hsub ht) hop
  | argument ht hop hf hj => exact .argument (hsub ht) hop hf hj

/-- Each task finds its operands in scope once the tasks before it are visited. -/
def Ready (known : Value → ExpansionContext → Prop) : List Task → Prop
  | [] => True
  | t :: rest =>
    (∃ scope : List Value, (∀ v ∈ scope, known v t.context) ∧ t.operation.dominated scope = true) ∧
    Ready (fun v context => known v context ∨ (v ∈ t.operation.results ∧ context = t.context)) rest

theorem Ready.mono {known' : Value → ExpansionContext → Prop}
    (hmono : ∀ v context, known v context → known' v context) {tasks : List Task}
    (h : Ready known tasks) : Ready known' tasks := by
  induction tasks generalizing known known' with
  | nil => trivial
  | cons t rest ih =>
    obtain ⟨⟨scope, hscope, hdom⟩, hrest⟩ := h
    exact ⟨⟨scope, fun v hv => hmono v _ (hscope v hv), hdom⟩,
      ih (fun v context hv => hv.imp (hmono v context) id) hrest⟩

theorem Ready.block {ops : List Operation} {scope : List Value} {rest : List Task}
    (hscope : ∀ v ∈ scope, known v context) (hdom : blockDominated scope ops = true)
    (hrest : Ready known rest) : Ready known (ops.map (fun op => ⟨op, context⟩) ++ rest) := by
  induction ops generalizing scope known with
  | nil => exact hrest
  | cons op ops ih =>
    rw [blockDominated, Bool.and_eq_true] at hdom
    refine ⟨⟨scope, hscope, hdom.1⟩, ih ?_ hdom.2 (hrest.mono fun _ _ => .inl)⟩
    intro v hv
    obtain hv | hv := mem_append.mp hv
    · exact .inr ⟨hv, rfl⟩
    · exact .inl (hscope v hv)

structure Schedule (file : File) (process : Process) (visited pending : List Task) : Prop where
  reached : ∀ t ∈ visited ++ pending, Reached file process t.context t.operation
  keys_nodup : (visited.map Task.key ++ pending.flatMap Task.keys).Nodup
  opened : ∀ t ∈ visited ++ pending, t.context = .root ∨
    ∃ caller ∈ visited, ∃ call, caller.operation = .call call ∧ t.context = caller.context.enter call
  roots : ∀ op ∈ process.body, ⟨op, .root⟩ ∈ visited ++ pending
  closed : ∀ t ∈ visited, ∀ child ∈ t.children file, child ∈ visited ++ pending
  stacked : pending.Pairwise fun a b => b.context.callSites <+: a.context.callSites
  ready : Ready (Known file process visited) pending

theorem key_mem_keys (t : Task) : t.key ∈ t.keys := by
  refine mem_map.mpr ⟨t.operation, ?_, rfl⟩
  cases t.operation <;> simp [tree]

theorem context_of_mem_keys {key : ℕ × ExpansionContext} (h : key ∈ t.keys) :
    key.2 = t.context := by
  obtain ⟨_, _, rfl⟩ := mem_map.mp h
  rfl

theorem flatMap_keys (context : ExpansionContext) (ops : List Operation) :
    (ops.map fun op => (⟨op, context⟩ : Task)).flatMap Task.keys =
      (trees ops).map fun op => (op.id, context) := by
  induction ops with
  | nil => rfl
  | cons op ops ih => simp [trees, Task.keys, ih]

theorem keys_subperm (t : Task) :
    t.key :: (t.operation.pushed.map fun op => (⟨op, t.context⟩ : Task)).flatMap Task.keys <+~
      t.keys := by
  rw [flatMap_keys]
  obtain ⟨op, context⟩ := t
  have happend : ∀ a b : List Operation, trees (a ++ b) = trees a ++ trees b := by
    intro a b
    induction a with
    | nil => rfl
    | cons x a ih => rw [cons_append, trees, trees, ih, List.append_assoc]
  cases op with
  | forOp id lower upper step inits body =>
    exact (List.Perm.refl _).subperm
  | ifOp id condition results thenBody elseBody | whileOp id inits results before after =>
    refine List.Perm.subperm ?_
    simp only [pushed, happend, Task.keys, tree, map_append, map_cons]
    exact .cons _ perm_append_comm
  | instrumentation id body =>
    refine List.Sublist.subperm ?_
    simp [pushed, Task.key, Task.keys, tree, trees]
  | _ => exact (List.Perm.refl _).subperm

theorem Reached.iterations {op : Operation} (h : Reached file process context op) :
    context.iterations = [] := by
  induction h with
  | body _ => rfl
  | region _ _ ih => exact ih
  | callee _ _ _ ih => exact ih

theorem function_ids_nodup (hfile : file.WellFormed) (hf : f ∈ file.functions) :
    ((trees f.body).map Operation.id).Nodup := by
  have h := hfile.ids_nodup
  rw [File.owners, map_append, map_append] at h
  have h := h.of_append_right.of_append_right
  rw [map_map, File.operations, map_append, map_flatMap, map_flatMap] at h
  exact (nodup_flatMap.mp h.of_append_right).1 f hf

theorem children_of_call {call : Call} (hop : t.operation = .call call)
    (hf : file.lookup call.callee = some f) :
    t.children file = f.body.map fun op => ⟨op, t.context.enter call⟩ := by
  simp [Task.children, hop, hf]

theorem children_of_ne_call (hop : ∀ call, t.operation ≠ .call call) :
    t.children file = t.operation.pushed.map fun op => ⟨op, t.context⟩ := by
  obtain ⟨op, context⟩ := t
  cases op with
  | call call => exact absurd rfl (hop call)
  | _ => rfl

namespace Schedule

variable {visited rest : List Task} {t : Task}

section

variable (h : Schedule file process visited (t :: rest))

include h

theorem key_notMem : t.key ∉ visited.map Task.key := by
  have hnodup := h.keys_nodup
  rw [nodup_append'] at hnodup
  intro hmem
  exact hnodup.2.2 hmem (mem_flatMap.mpr ⟨t, mem_cons_self, key_mem_keys t⟩)

theorem context_ne {call : Call} (hop : t.operation = .call call) :
    ∀ x ∈ visited ++ t :: rest, x.context ≠ t.context.enter call := by
  intro x hx heq
  obtain hroot | ⟨caller, hcaller, call', hop', hcontext⟩ := h.opened x hx
  · rw [hroot] at heq
    exact absurd (congrArg (fun c => c.callSites.length) heq) (by
      simp [root, enter])
  · obtain ⟨hctx, rfl⟩ := enter_inj (hcontext.symm.trans heq)
    refine h.key_notMem (mem_map.mpr ⟨caller, hcaller, ?_⟩)
    rw [Task.key, Task.key, hop, hop', hctx]

theorem rest_callSites : ∀ x ∈ rest, x.context.callSites <+: t.context.callSites :=
  (pairwise_cons.mp h.stacked).1

end

theorem keys_step_call (hfile : file.WellFormed) (h : Schedule file process visited (t :: rest))
    {call : Call} {f : Function} (hop : t.operation = .call call)
    (hf : file.lookup call.callee = some f) :
    ((t :: visited).map Task.key ++ (t.children file ++ rest).flatMap Task.keys).Nodup := by
  have hkeys : t.keys = [t.key] := by
    rw [Task.keys, Task.key, hop]
    rfl
  have hold : (t.key :: (visited.map Task.key ++ rest.flatMap Task.keys)).Nodup := by
    have := h.keys_nodup
    rw [flatMap_cons, hkeys] at this
    exact (perm_middle.nodup_iff).mp this
  rw [children_of_call hop hf, flatMap_append, flatMap_keys]
  have hperm : (t :: visited).map Task.key ++
      ((trees f.body).map (fun op => (op.id, t.context.enter call)) ++ rest.flatMap Task.keys) ~
      (trees f.body).map (fun op => (op.id, t.context.enter call)) ++
        (t.key :: (visited.map Task.key ++ rest.flatMap Task.keys)) := by
    rw [map_cons, ← List.append_assoc, ← cons_append, ← List.append_assoc]
    exact List.Perm.append_right _ perm_append_comm
  rw [hperm.nodup_iff, nodup_append']
  refine ⟨?_, hold, ?_⟩
  · have hids := function_ids_nodup hfile (mem_of_find?_eq_some hf)
    have := hids.map (f := fun id => (id, t.context.enter call)) fun _ _ heq => (Prod.mk.inj heq).1
    rwa [map_map] at this
  · intro key hkey hmem
    obtain ⟨op, _, rfl⟩ := mem_map.mp hkey
    have hne := h.context_ne hop
    obtain heq | hmem := mem_cons.mp hmem
    · exact hne t (by simp) (congrArg Prod.snd heq).symm
    · obtain hmem | hmem := mem_append.mp hmem
      · obtain ⟨x, hx, heq⟩ := mem_map.mp hmem
        exact hne x (by simp [hx]) (congrArg Prod.snd heq)
      · obtain ⟨x, hx, hmem⟩ := mem_flatMap.mp hmem
        exact hne x (by simp [hx]) (context_of_mem_keys hmem).symm

theorem keys_step_region (h : Schedule file process visited (t :: rest))
    (hop : ∀ call, t.operation ≠ .call call) :
    ((t :: visited).map Task.key ++ (t.children file ++ rest).flatMap Task.keys).Nodup := by
  rw [children_of_ne_call hop, flatMap_append]
  have hold := h.keys_nodup
  rw [flatMap_cons] at hold
  obtain ⟨keys, hperm, hsub⟩ := keys_subperm t
  have hkeys : (visited.map Task.key ++ (keys ++ rest.flatMap Task.keys)).Nodup :=
    hold.sublist ((List.Sublist.refl _).append (hsub.append (List.Sublist.refl _)))
  refine (List.Perm.nodup_iff ?_).mp hkeys
  refine (List.Perm.append_left _ (hperm.append_right _)).trans ?_
  rw [map_cons, cons_append]
  exact perm_middle

theorem keys_step (hfile : file.WellFormed) (h : Schedule file process visited (t :: rest))
    (hcallee : ∀ call, t.operation = .call call → ∃ f, file.lookup call.callee = some f) :
    ((t :: visited).map Task.key ++ (t.children file ++ rest).flatMap Task.keys).Nodup := by
  by_cases hop : ∃ call, t.operation = .call call
  · obtain ⟨call, hop⟩ := hop
    obtain ⟨f, hf⟩ := hcallee call hop
    exact h.keys_step_call hfile hop hf
  · exact h.keys_step_region fun call heq => hop ⟨call, heq⟩

variable {child : Task}

theorem child_reached (ht : Reached file process t.context t.operation)
    (h : child ∈ t.children file) : Reached file process child.context child.operation := by
  by_cases hop : ∃ call, t.operation = .call call
  · obtain ⟨call, hop⟩ := hop
    cases hf : file.lookup call.callee with
    | none => simp [Task.children, hop, hf] at h
    | some f =>
      rw [children_of_call hop hf] at h
      obtain ⟨op, hmem, rfl⟩ := mem_map.mp h
      exact .callee (hop ▸ ht) hf hmem
  · rw [children_of_ne_call fun call heq => hop ⟨call, heq⟩] at h
    obtain ⟨op, hmem, rfl⟩ := mem_map.mp h
    exact .region ht hmem

theorem child_context (h : child ∈ t.children file) : child.context = t.context ∨
      ∃ call, t.operation = .call call ∧ child.context = t.context.enter call := by
  by_cases hop : ∃ call, t.operation = .call call
  · obtain ⟨call, hop⟩ := hop
    cases hf : file.lookup call.callee with
    | none => simp [Task.children, hop, hf] at h
    | some f =>
      rw [children_of_call hop hf] at h
      obtain ⟨op, _, rfl⟩ := mem_map.mp h
      exact .inr ⟨call, hop, rfl⟩
  · rw [children_of_ne_call fun call heq => hop ⟨call, heq⟩] at h
    obtain ⟨op, _, rfl⟩ := mem_map.mp h
    exact .inl rfl

theorem child_callSites (h : child ∈ t.children file) :
    t.context.callSites <+: child.context.callSites := by
  obtain heq | ⟨call, _, heq⟩ := child_context h
  · exact heq ▸ prefix_refl _
  · rw [heq]
    exact prefix_append _ _

theorem children_stacked (t : Task) :
    (t.children file).Pairwise fun a b => b.context.callSites <+: a.context.callSites := by
  by_cases hop : ∃ call, t.operation = .call call
  · obtain ⟨call, hop⟩ := hop
    cases hf : file.lookup call.callee with
    | none => simp [Task.children, hop, hf]
    | some f =>
      rw [children_of_call hop hf, pairwise_map]
      exact pairwise_of_forall fun _ _ => prefix_refl _
  · rw [children_of_ne_call fun call heq => hop ⟨call, heq⟩, pairwise_map]
    exact pairwise_of_forall fun _ _ => prefix_refl _

theorem ready_step (hfile : file.WellFormed) (h : Schedule file process visited (t :: rest)) :
    Ready (Known file process (t :: visited)) (t.children file ++ rest) := by
  obtain ⟨⟨scope, hbefore, hdom⟩, hlater⟩ := h.ready
  have hrest : Ready (Known file process (t :: visited)) rest := by
    refine hlater.mono fun v context hv => ?_
    obtain hv | ⟨hv, rfl⟩ := hv
    · exact hv.mono (subset_cons_self _ _)
    · obtain ⟨k, hk, rfl⟩ := mem_map.mp hv
      exact .result mem_cons_self (mem_range.mp hk)
  have hscope : ∀ v ∈ scope, Known file process (t :: visited) v t.context :=
    fun v hv => (hbefore v hv).mono (subset_cons_self _ _)
  have hmem : t ∈ t :: visited := mem_cons_self
  generalize t :: visited = visited' at hrest hscope hmem
  obtain ⟨op, context⟩ := t
  cases op with
  | call call =>
    cases hf : file.lookup call.callee with
    | none => simpa [Task.children, hf] using hrest
    | some f =>
      rw [children_of_call rfl hf]
      refine Ready.block (fun v hv => ?_)
        (hfile.function_dominated f (mem_of_find?_eq_some hf)) hrest
      obtain ⟨j, hj, rfl⟩ := mem_map.mp hv
      exact .argument hmem rfl hf (mem_range.mp hj)
  | forOp id lower upper step inits body =>
    rw [dominated, Bool.and_eq_true] at hdom
    refine Ready.block (fun v hv => ?_) hdom.2 hrest
    rw [cons_append, mem_cons, mem_append] at hv
    obtain rfl | hv | hv := hv
    · exact .loopArgument hmem rfl (Nat.zero_le _)
    · obtain ⟨j, hj, rfl⟩ := mem_map.mp hv
      exact .loopArgument hmem rfl (mem_range.mp hj)
    · exact hscope v hv
  | ifOp id condition results thenBody elseBody =>
    rw [dominated, Bool.and_eq_true, Bool.and_eq_true] at hdom
    simp only [Task.children, pushed, map_append, List.append_assoc]
    exact Ready.block hscope hdom.2 (Ready.block hscope hdom.1.2 hrest)
  | whileOp id inits results before after =>
    rw [dominated, Bool.and_eq_true, Bool.and_eq_true] at hdom
    simp only [Task.children, pushed, map_append, List.append_assoc]
    refine Ready.block (fun v hv => ?_) hdom.2 (Ready.block (fun v hv => ?_) hdom.1.2 hrest)
    all_goals
      obtain hv | hv := mem_append.mp hv
      · obtain ⟨j, _, rfl⟩ := mem_map.mp hv
        exact .whileArgument hmem rfl
      · exact hscope v hv
  | _ => exact hrest

/-- One turn. -/
theorem step (hfile : file.WellFormed) (h : Schedule file process visited (t :: rest))
    (hcallee : ∀ call, t.operation = .call call → ∃ f, file.lookup call.callee = some f) :
    Schedule file process (t :: visited) (t.children file ++ rest) where
  reached := by
    intro x hx
    have ht : Reached file process t.context t.operation := h.reached t (by simp)
    obtain hx | hx := mem_append.mp hx
    · obtain rfl | hx := mem_cons.mp hx
      · exact ht
      · exact h.reached x (by simp [hx])
    · obtain hx | hx := mem_append.mp hx
      · exact child_reached ht hx
      · exact h.reached x (by simp [hx])
  keys_nodup := h.keys_step hfile hcallee
  opened := by
    have hold : ∀ x ∈ visited ++ t :: rest, x.context = .root ∨ ∃ caller ∈ t :: visited, ∃ call,
        caller.operation = .call call ∧ x.context = caller.context.enter call := by
      intro x hx
      obtain hroot | ⟨caller, hcaller, hop⟩ := h.opened x hx
      · exact .inl hroot
      · exact .inr ⟨caller, mem_cons_of_mem _ hcaller, hop⟩
    intro x hx
    obtain hx | hx := mem_append.mp hx
    · obtain rfl | hx := mem_cons.mp hx
      · exact hold x (by simp)
      · exact hold x (by simp [hx])
    · obtain hx | hx := mem_append.mp hx
      · obtain heq | ⟨call, hop, heq⟩ := child_context hx
        · rw [heq]
          exact hold t (by simp)
        · exact .inr ⟨t, mem_cons_self, call, hop, heq⟩
      · exact hold x (by simp [hx])
  roots := by
    intro op hop
    have := h.roots op hop
    simp only [mem_append, mem_cons] at this ⊢
    tauto
  closed := by
    intro x hx child hchild
    obtain rfl | hx := mem_cons.mp hx
    · simp [hchild]
    · have := h.closed x hx child hchild
      simp only [mem_append, mem_cons] at this ⊢
      tauto
  stacked := by
    rw [pairwise_append]
    refine ⟨children_stacked t, (pairwise_cons.mp h.stacked).2, fun a ha b hb => ?_⟩
    exact (h.rest_callSites b hb).trans (child_callSites ha)
  ready := h.ready_step hfile

theorem complete (h : Schedule file process visited []) {context : ExpansionContext}
    {op : Operation} (hreach : Reached file process context op) : ⟨op, context⟩ ∈ visited := by
  induction hreach with
  | body hop => simpa using h.roots _ hop
  | @region context parent op hparent hop ih =>
    have hchild : (⟨op, context⟩ : Task) ∈ (⟨parent, context⟩ : Task).children file := by
      rw [children_of_ne_call (t := ⟨parent, context⟩)
        (by rintro call rfl; cases hop)]
      exact mem_map_of_mem hop
    simpa using h.closed _ ih _ hchild
  | callee _ hf hop ih =>
    have hchild := h.closed _ ih
    rw [children_of_call rfl hf] at hchild
    simpa using hchild _ (mem_map_of_mem hop)

end Schedule

end AgenticCircuit.ProcessPlan
