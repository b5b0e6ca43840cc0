import Mathlib.Data.List.Perm.Subperm
import AgenticCircuit.Frontend.Region

/-! # The builder lays out regions

`statements_region`: whatever graph the builder's result grows into, the body it was given is a
region of that graph.

* **`Lays`** says what a builder operation does to the graph, and nothing else about it.  There is
  one such lemma for every operation, and they compose.
* **`Built`** is the frame of `statements`: new blocks are appended, and no older block but the
  current one changes. -/

namespace AgenticCircuit.Frontend

open List Builder
open Function (update_self update_of_ne)

namespace Builder

variable {env : Environment} {σ τ : Builder}

/-! ### Blocks by name -/

variable {f : MutableBlock → MutableBlock} {a d h m n : BlockName} {acts : List ProcessAction}
    {ρ σ₂ σ₃ σ₄ σ₅ : Builder} {new owned owned' : List BlockName} {A : Layout} {e : ProcessEdge}
    {operation : String} {s : Simple} {b : List ProcessAction × Option ProcessEdge}
    {body orelse : Body} {loops : List (BlockName × BlockName)} {condition : Condition}
    {test : Expr} {P : ProcessProgram} {σ τ : Builder}

theorem find_update (σ : Builder) (m : BlockName) (hf : ∀ b, (f b).name = b.name) (n : BlockName) :
    (σ.update m f).find n = if n = m then (σ.find n).map f else σ.find n := by
  unfold update find
  induction σ.blocks with
  | nil => simp
  | cons b rest ih =>
    have hname : (if b.name = m then f b else b).name = b.name := by
      split
      · exact hf b
      · rfl
    simp only [map_cons, find?_cons, hname]
    by_cases hb : b.name = n
    · subst hb
      simp only [beq_self_eq_true]
      split <;> rfl
    · rw [beq_eq_false_iff_ne.mpr hb]
      exact ih

theorem names_update (σ : Builder) (m : BlockName) (hf : ∀ b, (f b).name = b.name) :
    (σ.update m f).names = σ.names := by
  unfold update names
  rw [map_map]
  apply map_congr_left
  intro b _
  show (if b.name = m then f b else b).name = b.name
  split
  · exact hf b
  · rfl

theorem layout_isSome (σ : Builder) (n : BlockName) : (σ.layout n).isSome ↔ n ∈ σ.names := by
  unfold layout find names
  simp

theorem mem_names_of_layout {a : List ProcessAction × Option ProcessEdge}
    (h : σ.layout n = some a) : n ∈ σ.names :=
  (σ.layout_isSome n).mp (by rw [h]; rfl)

theorem layout_none (h : n ∉ σ.names) : σ.layout n = none := by
  rw [← Option.not_isSome_iff_eq_none, layout_isSome]
  exact h

theorem closed_eq_false (h : σ.layout n = some (acts, none)) : σ.closed n = false := by
  unfold layout at h
  unfold closed
  cases hb : σ.find n with
  | none => rfl
  | some b =>
    rw [hb] at h
    simp only [Option.map_some, Option.some.injEq, Prod.mk.injEq] at h
    simp [h.2]

theorem closed_or_open (σ : Builder) (hn : n ∈ σ.names) :
    (∃ acts e, σ.layout n = some (acts, some e) ∧ σ.closed n = true) ∨
    (∃ acts, σ.layout n = some (acts, none) ∧ σ.closed n = false) := by
  obtain ⟨⟨acts, edge⟩, h⟩ := Option.isSome_iff_exists.mp ((σ.layout_isSome n).mpr hn)
  cases edge with
  | none => exact .inr ⟨acts, h, closed_eq_false h⟩
  | some e =>
    refine .inl ⟨acts, e, h, ?_⟩
    unfold layout at h
    unfold closed
    cases hb : σ.find n with
    | none =>
      rw [hb] at h
      cases h
    | some b =>
      rw [hb] at h
      simp only [Option.map_some, Option.some.injEq, Prod.mk.injEq] at h
      simp [h.2]

/-! ### Fresh names -/

/-- Among the numbers up to the number of blocks one is free, so the search succeeds. -/
theorem freshName_notMem (σ : Builder) (base : BlockBase) : σ.freshName base ∉ σ.names := by
  let candidates := (List.range (σ.blocks.length + 1)).map fun k => BlockName.mk base (k + 1)
  have hnodup : candidates.Nodup := by
    apply Nodup.map _ nodup_range
    intro x y hxy
    simpa using hxy
  have hexists : ∃ k ∈ List.range (σ.blocks.length + 1), ⟨base, k + 1⟩ ∉ σ.names := by
    by_contra hall
    push Not at hall
    have hsub : candidates ⊆ σ.names := by
      intro n hn
      obtain ⟨k, hk, rfl⟩ := mem_map.mp hn
      exact hall k hk
    have hle := (subperm_of_subset hnodup hsub).length_le
    simp only [candidates, names, length_map, length_range] at hle
    omega
  obtain ⟨k, hk, hfree⟩ := hexists
  unfold freshName
  cases hfind : (List.range (σ.blocks.length + 1)).find? fun k => ⟨base, k + 1⟩ ∉ σ.names with
  | none =>
    have := find?_eq_none.mp hfind k hk
    simp [hfree] at this
  | some i =>
    have := find?_some hfind
    simpa using this

@[simp] theorem freshName_base (σ : Builder) (base : BlockBase) :
    (σ.freshName base).base = base := rfl

/-! ### What an operation does to the graph -/

/-- From `σ` to `τ` the blocks `new` are appended, the graph becomes `layout` and the current
block `current`. -/
structure Lays (σ τ : Builder) (new : List BlockName) (layout : Layout) (current : BlockName) :
    Prop where
  names : τ.names = σ.names ++ new
  layout : τ.layout = layout
  current : τ.current = current
  loops : τ.loopStack = σ.loopStack

theorem Lays.refl (σ : Builder) : Lays σ σ [] σ.layout σ.current :=
  ⟨(append_nil _).symm, rfl, rfl, rfl⟩

theorem Lays.trans {new' : List BlockName} {B : Layout} (h : Lays σ τ new A m)
    (h' : Lays τ ρ new' B n) : Lays σ ρ (new ++ new') B n :=
  ⟨by rw [h'.names, h.names, append_assoc], h'.layout, h'.current, h'.loops.trans h.loops⟩

theorem Lays.moveTo (h : Lays σ τ new A m) (n : BlockName) :
    Lays σ { τ with current := n } new A n :=
  ⟨h.names, h.layout, rfl, h.loops⟩

theorem newBlock_lays (σ : Builder) (base : BlockBase) : Lays σ (σ.newBlock base) [σ.freshName base]
      (Function.update σ.layout (σ.freshName base) (some ([], none))) σ.current := by
  refine ⟨by simp [names, newBlock], ?_, rfl, rfl⟩
  funext n
  by_cases hn : n = σ.freshName base
  · subst hn
    rw [update_self]
    have hnone : σ.find (σ.freshName base) = none := by
      have := layout_none (σ.freshName_notMem base)
      simpa [layout] using this
    unfold find at hnone
    simp [layout, find, newBlock, hnone]
  · rw [update_of_ne hn]
    have hne : ¬ (σ.freshName base = n) := fun h => hn h.symm
    simp [layout, find, newBlock, hne]

/-- Recording uses or definitions does not show in the graph. -/
theorem update_lays (σ : Builder) (m : BlockName) (hname : ∀ b, (f b).name = b.name)
    (hacts : ∀ b, (f b).actions = b.actions) (hedge : ∀ b, (f b).edge = b.edge) :
    Lays σ (σ.update m f) [] σ.layout σ.current := by
  refine ⟨by rw [names_update _ _ hname, append_nil], ?_, rfl, rfl⟩
  funext n
  unfold layout
  rw [find_update _ _ hname]
  split
  · rw [Option.map_map]
    congr 1
    funext b
    simp [hacts, hedge]
  · rfl

theorem recordUses_lays (σ : Builder) (m : BlockName) (loads : List String) :
    Lays σ (σ.recordUses m loads) [] σ.layout σ.current :=
  σ.update_lays m (fun _ => rfl) (fun _ => rfl) (fun _ => rfl)

theorem recordDefinition_lays (σ : Builder) (m : BlockName) (x : String) :
    Lays σ (σ.recordDefinition m x) [] σ.layout σ.current := by
  have h : Lays σ (σ.update m fun b => { b with definitions := b.definitions ++ [x] }) []
      σ.layout σ.current := σ.update_lays m (fun _ => rfl) (fun _ => rfl) (fun _ => rfl)
  exact ⟨h.names, h.layout, h.current, h.loops⟩

theorem recordDefinitions_lays (m : BlockName) (xs : List String) (σ : Builder) :
    Lays σ (σ.recordDefinitions m xs) [] σ.layout σ.current := by
  induction xs generalizing σ with
  | nil => exact .refl σ
  | cons x rest ih =>
    have hx := σ.recordDefinition_lays m x
    have hrest := hx.trans (ih (σ.recordDefinition m x))
    rw [hx.layout, hx.current] at hrest
    exact hrest

theorem addEffect_lays (σ : Builder) (operation : String) (kind : EffectKind) :
    Lays σ (σ.addEffect operation kind) [] σ.layout σ.current := by
  refine ⟨(append_nil _).symm, rfl, rfl, rfl⟩

/-- An update that gives a block the new actions and the new edge `entry`. -/
theorem update_entry_lays (m : BlockName) {edge : Option ProcessEdge}
    {entry : List ProcessAction × Option ProcessEdge} (hname : ∀ b, (f b).name = b.name)
    (hm : σ.layout m = some (acts, edge))
    (hf : ∀ b : MutableBlock, b.actions = acts → b.edge = edge → ((f b).actions, (f b).edge) =
      entry) : Lays σ (σ.update m f) [] (Function.update σ.layout m (some entry)) σ.current := by
  refine ⟨by rw [names_update _ _ hname, append_nil], ?_, rfl, rfl⟩
  funext n
  show ((σ.update m f).find n).map _ = _
  rw [find_update _ _ hname]
  by_cases hn : n = m
  · subst hn
    rw [if_pos rfl, update_self]
    obtain ⟨b, hb, hentry⟩ := Option.map_eq_some_iff.mp hm
    simp only [Prod.mk.injEq] at hentry
    rw [hb, ← hf b hentry.1 hentry.2]
    rfl
  · rw [if_neg hn, update_of_ne hn]
    rfl

theorem addAction_lays (a : ProcessAction) (hcur : σ.layout σ.current = some (acts, none)) :
    Lays σ (σ.addAction a) []
      (Function.update σ.layout σ.current (some (acts ++ [a], none))) σ.current := by
  let ρ := σ.update σ.current fun b => { b with actions := b.actions ++ [a] }
  have hρ : Lays σ ρ [] (Function.update σ.layout σ.current (some (acts ++ [a], none)))
      σ.current := by
    refine update_entry_lays σ.current ?_ hcur ?_
    · intro _
      rfl
    intro b hacts hedge
    rw [hacts, hedge]
  have h := hρ.trans (recordDefinitions_lays σ.current a.results ρ)
  rw [hρ.layout, hρ.current] at h
  exact h

theorem finish_lays (hn : σ.layout n = some (acts, none)) (h : σ.finish n e = .ok τ) :
    Lays σ τ [] (Function.update σ.layout n (some (acts, some e))) σ.current := by
  unfold finish at h
  rw [closed_eq_false hn] at h
  cases h
  refine update_entry_lays n ?_ hn ?_
  · intro _
    rfl
  intro b hacts _
  rw [hacts]

theorem consumeLinear_lays {args : List Operand} {positions : List ℕ}
    (h : consumeLinear operation args positions σ = .ok τ) : Lays σ τ [] σ.layout σ.current := by
  induction positions generalizing σ with
  | nil =>
    cases h
    exact .refl _
  | cons i rest ih =>
    rw [consumeLinear] at h
    split at h
    · rename_i x _
      simp only at h
      split at h
      · cases h
      · have hrest := ih h
        exact ⟨hrest.names, hrest.layout, hrest.current, hrest.loops⟩
    · cases h

/-! ### Simple statements -/

/-- What executing a meaning adds to the graph when the current block holds `acts`. -/
def Performs (σ τ : Builder) (acts : List ProcessAction) : Meaning → Prop
  | .skip => Lays σ τ [] σ.layout σ.current
  | .action a =>
    Lays σ τ [] (Function.update σ.layout σ.current (some (acts ++ [a], none))) σ.current
  | .suspend operation arguments => ∃ t, t ∉ σ.names ∧ Lays σ τ [t]
      (Function.update (Function.update σ.layout t (some ([], none))) σ.current
        (some (acts, some (.suspend operation arguments t)))) t
  | .restart arguments => Lays σ τ []
      (Function.update σ.layout σ.current
        (some (acts, some (.suspend "yield_sim" arguments entryName)))) σ.current

/-- A step that does not show in the graph may come first. -/
theorem Performs.after {m : Meaning} (h : Lays σ ρ [] σ.layout σ.current)
    (hm : Performs ρ τ acts m) : Performs σ τ acts m := by
  have hnames : ρ.names = σ.names := by rw [h.names, append_nil]
  cases m with
  | skip | action a | restart arguments =>
    have h' := h.trans hm
    rwa [h.layout, h.current] at h'
  | suspend operation arguments =>
    obtain ⟨t, ht, hlays⟩ := hm
    have h' := h.trans hlays
    rw [h.layout, h.current] at h'
    exact ⟨t, hnames ▸ ht, h'⟩

theorem suspend_performs {arguments : List String} (hcur : σ.layout σ.current = some (acts, none))
    (h : σ.suspend operation arguments = .ok τ) :
    Performs σ τ acts (if operation = "yield_sim" then .restart arguments
      else .suspend operation arguments) := by
  unfold suspend at h
  split
  · rename_i hyield
    subst hyield
    exact finish_lays hcur h
  · rename_i hyield
    rw [if_neg hyield] at h
    generalize (if BlockName.mk .resume 1 ∈ σ.names then BlockBase.done else .resume) = base at h
    simp only [bind, Except.bind] at h
    split at h
    · cases h
    rename_i ρ hfinish
    cases h
    have hnew := σ.newBlock_lays base
    have hne : σ.current ≠ σ.freshName base := by
      intro heq
      exact σ.freshName_notMem base (heq ▸ mem_names_of_layout hcur)
    have hcur' : (σ.newBlock base).layout σ.current = some (acts, none) := by
      rw [hnew.layout, update_of_ne hne]
      exact hcur
    have hlays := (hnew.trans (finish_lays hcur' hfinish)).moveTo (σ.freshName base)
    rw [hnew.layout] at hlays
    exact ⟨σ.freshName base, σ.freshName_notMem base, hlays⟩

theorem call_performs {c : Call} {results : List String}
    (hcur : σ.layout σ.current = some (acts, none)) (h : σ.call env c results = .ok τ) :
    ∃ m, env.callMeaning c results = some m ∧ Performs σ τ acts m := by
  unfold call at h
  unfold Environment.callMeaning
  cases hfunc : c.func with
  | other text => rw [hfunc] at h; cases h
  | name id =>
    rw [hfunc] at h
    simp only at h ⊢
    cases hfind : env.effects.find id with
    | none =>
      rw [hfind] at h
      cases hrecord : env.records id with
      | none => rw [hrecord] at h; cases h
      | some name =>
        rw [hrecord] at h
        cases h
        refine ⟨_, rfl, ?_⟩
        have huses := σ.recordUses_lays σ.current c.loads
        have hquiet := huses.trans (addEffect_lays _ "record_create" .pure)
        rw [huses.layout, huses.current] at hquiet
        apply Performs.after hquiet
        apply addAction_lays
        rw [hquiet.layout, hquiet.current]
        exact hcur
    | some d =>
      rw [hfind] at h
      simp only at h ⊢
      split at h
      · cases h
      rename_i hkeywords
      rw [if_neg hkeywords]
      simp only [bind, Except.bind] at h
      split at h
      · cases h
      rename_i ρ hconsume
      have hlinear := consumeLinear_lays hconsume
      have huses := hlinear.trans (ρ.recordUses_lays ρ.current c.loads)
      rw [hlinear.layout, hlinear.current] at huses
      have hquiet := huses.trans (addEffect_lays _ id d.kind)
      rw [huses.layout, huses.current] at hquiet
      have hcur' : ((ρ.recordUses ρ.current c.loads).addEffect id d.kind).layout
          ((ρ.recordUses ρ.current c.loads).addEffect id d.kind).current
          = some (acts, none) := by
        rw [hlinear.current, hquiet.layout, hquiet.current]
        exact hcur
      rw [hlinear.current] at h hcur'
      by_cases hsuspension : d.suspension = true
      · rw [if_pos hsuspension] at h ⊢
        by_cases hresults : results ≠ []
        · rw [if_pos hresults] at h
          cases h
        · rw [if_neg hresults] at h ⊢
          have hp := (suspend_performs hcur' h).after hquiet
          by_cases hyield : id = "yield_sim"
          · rw [if_pos hyield] at hp ⊢
            exact ⟨_, rfl, hp⟩
          · rw [if_neg hyield] at hp ⊢
            exact ⟨_, rfl, hp⟩
      · rw [if_neg hsuspension] at h ⊢
        cases h
        refine ⟨_, rfl, ?_⟩
        apply Performs.after hquiet
        exact addAction_lays _ hcur'

theorem assignment_performs {targets : List Target} {value : Option Expr}
    (hcur : σ.layout σ.current = some (acts, none)) (h : σ.assignment env targets value = .ok τ) :
    ∃ m, env.meaning (.assign targets value) = some m ∧ Performs σ τ acts m := by
  unfold assignment at h
  unfold Environment.meaning
  rcases targets with _ | ⟨target, _ | ⟨_, _⟩⟩
  · cases h
  · simp only at h ⊢
    generalize Environment.targetNames target = names at h
    rcases names with _ | results
    · cases h
    rcases value with _ | o | c
    · cases h
      exact ⟨.skip, rfl, .refl _⟩
    · rcases results with _ | ⟨name, _ | ⟨_, _⟩⟩
      · cases h
      · cases h
        refine ⟨_, rfl, ?_⟩
        have huses := σ.recordUses_lays σ.current o.loads
        apply Performs.after huses
        apply addAction_lays
        rw [huses.layout, huses.current]
        exact hcur
      · cases h
    · simp only at h ⊢
      split at h
      · cases h
      · rename_i hpair
        rw [if_neg hpair]
        exact call_performs hcur h
  · cases h

theorem simple_performs (hcur : σ.layout σ.current = some (acts, none))
    (h : σ.simple env s = .ok τ) : ∃ m, env.meaning s = some m ∧ Performs σ τ acts m := by
  cases s with
  | assign targets value => exact assignment_performs hcur h
  | expr value =>
    cases value with
    | call c => exact call_performs hcur h
    | operand o => cases h
  | pass =>
    cases h
    exact ⟨.skip, rfl, .refl _⟩
  | other kind => cases h

/-! ### The frame of a statement list -/

/-- Where control stands: in the open current block, after its actions. -/
def fall (σ : Builder) : Option (BlockName × ℕ) :=
  match σ.layout σ.current with
  | some (acts, none) => some (σ.current, acts.length)
  | _ => none

theorem fall_open (h : σ.layout σ.current = some (acts, none)) :
    σ.fall = some (σ.current, acts.length) := by
  unfold fall
  rw [h]

theorem fall_closed (h : σ.layout σ.current = some (acts, some e)) : σ.fall = none := by
  unfold fall
  rw [h]

theorem fall_some {x : BlockName} {k : ℕ} (h : σ.fall = some (x, k)) :
    ∃ acts, σ.layout x = some (acts, none) ∧ acts.length = k ∧ σ.current = x := by
  unfold fall at h
  split at h
  · rename_i acts hcur
    cases h
    exact ⟨acts, hcur, rfl, rfl⟩
  · cases h

theorem refines_update (h : ∀ a, A n = some a → EntryLe a b) :
    Refines A (Function.update A n (some b)) := by
  intro m a ha
  by_cases hm : m = n
  · subst hm
    exact ⟨b, update_self .., h a ha⟩
  · exact ⟨a, by rw [update_of_ne hm]; exact ha, .refl a⟩

theorem refines_open {A : Layout} {n : BlockName} {acts more : List ProcessAction}
    {edge : Option ProcessEdge} (h : A n = some (acts, none)) :
    Refines A (Function.update A n (some (acts ++ more, edge))) := by
  apply refines_update
  intro a ha
  rw [h] at ha
  cases ha
  exact ⟨prefix_append acts more, fun e he => by cases he⟩

theorem refines_close (h : A n = some (acts, none)) :
    Refines A (Function.update A n (some (acts, some e))) := by
  have hopen := @refines_open A n acts [] (some e) h
  rwa [append_nil] at hopen

theorem refines_fresh (h : A n = none) : Refines A (Function.update A n (some b)) := by
  apply refines_update
  intro a ha
  rw [h] at ha
  cases ha

/-- From `σ` to `τ` the blocks `owned` are new, and of the others only the current one of `σ`
changes. -/
structure Built (σ τ : Builder) (owned : List BlockName) : Prop where
  names : ∃ new, τ.names = σ.names ++ new ∧ new.Perm owned
  nodup : τ.names.Nodup
  current : τ.current = σ.current ∨ τ.current ∈ owned
  frame : ∀ n ∈ σ.names, n ≠ σ.current → τ.layout n = σ.layout n
  grows : Refines σ.layout τ.layout

theorem Built.refl (h : σ.names.Nodup) : Built σ σ [] :=
  ⟨⟨[], (append_nil _).symm, .refl _⟩, h, .inl rfl, fun _ _ _ => rfl, .refl _⟩

theorem Built.perm (h : Built σ τ owned) (hperm : owned.Perm owned') : Built σ τ owned' := by
  obtain ⟨new, hnew, hp⟩ := h.names
  exact ⟨⟨new, hnew, hp.trans hperm⟩, h.nodup, h.current.imp_right hperm.mem_iff.mp, h.frame,
    h.grows⟩

theorem Built.mem_names (h : Built σ τ owned) (n : BlockName) :
    n ∈ τ.names ↔ n ∈ σ.names ∨ n ∈ owned := by
  obtain ⟨new, hnew, hp⟩ := h.names
  rw [hnew, mem_append, hp.mem_iff]

theorem Built.fresh (h : Built σ τ owned) (hn : n ∈ owned) : n ∉ σ.names := by
  obtain ⟨new, hnew, hp⟩ := h.names
  have hnodup := h.nodup
  rw [hnew] at hnodup
  intro hmem
  exact (nodup_append.mp hnodup).2.2 n hmem n (hp.mem_iff.mpr hn) rfl

theorem Built.owned_nodup (h : Built σ τ owned) : owned.Nodup := by
  obtain ⟨new, hnew, hp⟩ := h.names
  have hnodup := h.nodup
  rw [hnew] at hnodup
  exact hp.nodup_iff.mp (nodup_append.mp hnodup).2.1

theorem Built.trans (h : Built σ τ owned) (h' : Built τ ρ owned') :
    Built σ ρ (owned ++ owned') := by
  obtain ⟨new, hnew, hp⟩ := h.names
  obtain ⟨new', hnew', hp'⟩ := h'.names
  refine ⟨⟨new ++ new', by rw [hnew', hnew, append_assoc], hp.append hp'⟩, h'.nodup, ?_, ?_,
    h.grows.trans h'.grows⟩
  · obtain heq | hmem := h'.current
    · rw [heq, mem_append]
      exact h.current.imp_right .inl
    · exact .inr (mem_append_right _ hmem)
  · intro n hn hne
    have hτ : n ∈ τ.names := (h.mem_names n).mpr (.inl hn)
    have hcur : n ≠ τ.current := by
      obtain heq | hmem := h.current
      · rwa [heq]
      · rintro rfl
        exact h.fresh hmem hn
    rw [h'.frame n hτ hcur, h.frame n hn hne]

theorem Built.moveTo (h : Built σ τ owned) (hn : n = σ.current ∨ n ∈ owned)
    (loops : List (BlockName × BlockName)) :
    Built σ { τ with current := n, loopStack := loops } owned :=
  ⟨h.names, h.nodup, hn, h.frame, h.grows⟩

/-- One operation more; it may change the blocks owned so far. -/
theorem Built.step {L : Layout} (h : Built σ τ owned) (hlays : Lays τ ρ new L n)
    (hnodup : (τ.names ++ new).Nodup) (hframe : ∀ m ∈ σ.names, m ≠ σ.current → L m = τ.layout m)
    (hgrows : Refines τ.layout L) (hn : n = σ.current ∨ n ∈ owned ++ new) :
    Built σ ρ (owned ++ new) := by
  obtain ⟨new₀, hnew, hp⟩ := h.names
  refine ⟨⟨new₀ ++ new, ?_, hp.append_right new⟩, ?_, ?_, ?_, ?_⟩
  · rw [hlays.names, hnew, append_assoc]
  · rw [hlays.names]
    exact hnodup
  · rw [hlays.current]
    exact hn
  · intro m hm hne
    rw [hlays.layout, hframe m hm hne, h.frame m hm hne]
  · rw [hlays.layout]
    exact h.grows.trans hgrows

/-! ### Statement lists -/

/-- `τ` is `σ` with `body` laid out from the open current block on. -/
def Laid (env : Environment) (body : Body) (σ τ : Builder) : Prop :=
  ∀ acts, σ.names.Nodup → σ.layout σ.current = some (acts, none) →
    ∃ owned, Built σ τ owned ∧ τ.loopStack = σ.loopStack ∧
      ∀ (P : Layout) (index : BlockName → ℕ), Refines τ.layout P →
        τ.names.Pairwise (fun x y => index x < index y) →
        Region env P index σ.loopStack body σ.current acts.length owned τ.fall

theorem Laid.nil : Laid env .nil σ σ := by
  intro acts hnodup hcur
  refine ⟨[], .refl hnodup, rfl, fun P index _ _ => ?_⟩
  rw [fall_open hcur]
  exact .nil

theorem statements_closed (h : statements env body σ = .ok τ)
    (hclosed : σ.closed σ.current = true) : body = .nil ∧ τ = σ := by
  cases body with
  | nil =>
    cases h
    exact ⟨rfl, rfl⟩
  | simple | ite | whileLoop | forLoop | ret | brk | cont =>
    unfold statements guardOpen at h
    rw [if_pos hclosed] at h
    cases h

theorem Built.ordered {index : BlockName → ℕ} (h : Built σ τ owned)
    (hindex : τ.names.Pairwise (fun x y => index x < index y)) :
    σ.names.Pairwise (fun x y => index x < index y) := by
  obtain ⟨new, hnew, -⟩ := h.names
  rw [hnew] at hindex
  exact (pairwise_append.mp hindex).1

theorem Laid.append {s more : Body} (h : Laid env s σ τ) (hmore : statements env more τ = .ok ρ)
    (h' : Laid env more τ ρ) : Laid env (s.append more) σ ρ := by
  intro acts hnodup hcur
  obtain ⟨owned, hbuilt, hloops, hregion⟩ := h acts hnodup hcur
  have hmem : τ.current ∈ τ.names := by
    rw [hbuilt.mem_names]
    obtain heq | hmem := hbuilt.current
    · rw [heq]
      exact .inl (mem_names_of_layout hcur)
    · exact .inr hmem
  obtain ⟨acts', e, hlayout, hclosed⟩ | ⟨acts', hopen, -⟩ := τ.closed_or_open hmem
  · obtain ⟨rfl, rfl⟩ := statements_closed hmore hclosed
    rw [Body.append_nil]
    exact ⟨owned, hbuilt, hloops, hregion⟩
  · obtain ⟨owned', hbuilt', hloops', hregion'⟩ := h' acts' hbuilt.nodup hopen
    refine ⟨owned ++ owned', hbuilt.trans hbuilt', hloops'.trans hloops,
      fun P index hrefines hindex => ?_⟩
    have hfirst := hregion P index (hbuilt'.grows.trans hrefines) (hbuilt'.ordered hindex)
    have hsecond := hregion' P index hrefines hindex
    rw [fall_open hopen] at hfirst
    rw [hloops] at hsecond
    exact hfirst.append hsecond

theorem closes (hnodup : σ.names.Nodup) (hcur : σ.layout σ.current = some (acts, none))
    (hlays : Lays σ τ [] (Function.update σ.layout σ.current (some (acts, some e))) σ.current) :
    Built σ τ [] ∧ EndsWith τ.layout σ.current acts.length e ∧ τ.fall = none := by
  have hcur' : τ.layout σ.current = some (acts, some e) := by
    rw [hlays.layout, update_self]
  refine ⟨?_, ⟨acts, hcur', rfl⟩, fall_closed (hlays.current.symm ▸ hcur')⟩
  refine (Built.refl hnodup).step hlays ?_ ?_ (refines_close hcur) (.inl rfl)
  · rwa [append_nil]
  · intro n _ hne
    rw [update_of_ne hne]

theorem Laid.simple (h : σ.simple env s = .ok τ) : Laid env (.simple s .nil) σ τ := by
  intro acts hnodup hcur
  obtain ⟨m, hm, hperforms⟩ := simple_performs hcur h
  have hnodup' : (σ.names ++ []).Nodup := by rwa [append_nil]
  cases m with
  | skip =>
    have hlays : Lays σ τ [] σ.layout σ.current := hperforms
    have hcur' : τ.layout τ.current = some (acts, none) := by
      rw [hlays.layout, hlays.current]
      exact hcur
    refine ⟨[], ?_, hlays.loops, fun P index _ _ => ?_⟩
    · exact (Built.refl hnodup).step hlays hnodup' (fun _ _ _ => rfl) (.refl _) (.inl rfl)
    · rw [fall_open hcur', hlays.current]
      exact .skip hm .nil
  | action a =>
    have hlays : Lays σ τ [] (Function.update σ.layout σ.current (some (acts ++ [a], none)))
      σ.current := hperforms
    have hcur' : τ.layout σ.current = some (acts ++ [a], none) := by
      rw [hlays.layout, update_self]
    refine ⟨[], ?_, hlays.loops, fun P index hrefines _ => ?_⟩
    · apply (Built.refl hnodup).step hlays hnodup' _ (refines_open hcur) (.inl rfl)
      intro n _ hne
      rw [update_of_ne hne]
    · have hacts : ActsAt τ.layout σ.current acts.length a := ⟨_, _, hcur', by simp⟩
      have hfall : τ.fall = some (σ.current, acts.length + 1) := by
        rw [fall_open (hlays.current.symm ▸ hcur'), hlays.current, length_append]
        rfl
      rw [hfall]
      exact .action hm (hacts.refines hrefines) .nil
  | suspend operation arguments =>
    obtain ⟨t, ht, hlays⟩ := hperforms
    have hne : σ.current ≠ t := by
      rintro rfl
      exact ht (mem_names_of_layout hcur)
    have hcur' : τ.layout σ.current
        = some (acts, some (.suspend operation arguments t)) := by
      rw [hlays.layout, update_self]
    have ht' : τ.layout t = some ([], none) := by
      rw [hlays.layout, update_of_ne hne.symm, update_self]
    refine ⟨[t], ?_, hlays.loops, fun P index hrefines _ => ?_⟩
    · refine (Built.refl hnodup).step hlays ?_ ?_ ?_ (.inr (mem_singleton_self t))
      · exact nodup_append.mpr ⟨hnodup, nodup_singleton t, by
          intro x hx y hy hxy
          rw [mem_singleton.mp hy] at hxy
          exact ht (hxy ▸ hx)⟩
      · intro n hn hne'
        have hnt : n ≠ t := by
          rintro rfl
          exact ht hn
        rw [update_of_ne hne', update_of_ne hnt]
      · apply (refines_fresh (layout_none ht)).trans
        have hopen : Function.update σ.layout t (some ([], none)) σ.current
            = some (acts, none) := by
          rw [update_of_ne hne]
          exact hcur
        exact refines_close hopen
    · have hend : EndsWith τ.layout σ.current acts.length (.suspend operation arguments t) :=
        ⟨acts, hcur', rfl⟩
      have hfall : τ.fall = some (t, 0) := by
        rw [fall_open (hlays.current.symm ▸ ht'), hlays.current]
        rfl
      rw [hfall]
      exact .suspend hm (hend.refines hrefines) .nil
  | restart arguments =>
    obtain ⟨hbuilt, hend, hfall⟩ := closes hnodup hcur hperforms
    refine ⟨[], hbuilt, hperforms.loops, fun P index hrefines _ => ?_⟩
    rw [hfall]
    exact .restart hm (hend.refines hrefines)

theorem Laid.ret (value : Option Expr) (h : σ.finish σ.current .ret = .ok τ) :
    Laid env (.ret value .nil) σ τ := by
  intro acts hnodup hcur
  have hlays := finish_lays hcur h
  obtain ⟨hbuilt, hend, hfall⟩ := closes hnodup hcur hlays
  refine ⟨[], hbuilt, hlays.loops, fun P index hrefines _ => ?_⟩
  rw [hfall]
  exact .ret (hend.refines hrefines)

variable {header after : BlockName}

theorem Laid.brk (hloops : σ.loopStack = (header, after) :: loops)
    (h : σ.finish σ.current (.jump after) = .ok τ) : Laid env (.brk .nil) σ τ := by
  intro acts hnodup hcur
  have hlays := finish_lays hcur h
  obtain ⟨hbuilt, hend, hfall⟩ := closes hnodup hcur hlays
  refine ⟨[], hbuilt, hlays.loops, fun P index hrefines _ => ?_⟩
  rw [hfall, hloops]
  exact .brk (hend.refines hrefines)

theorem Laid.cont (hloops : σ.loopStack = (header, after) :: loops)
    (h : σ.finish σ.current (.jump header) = .ok τ) : Laid env (.cont .nil) σ τ := by
  intro acts hnodup hcur
  have hlays := finish_lays hcur h
  obtain ⟨hbuilt, hend, hfall⟩ := closes hnodup hcur hlays
  refine ⟨[], hbuilt, hlays.loops, fun P index hrefines _ => ?_⟩
  rw [hfall, hloops]
  exact .cont (hend.refines hrefines)

/-! ### Branches -/

theorem Built.newBlock (h : Built σ τ owned) (base : BlockBase) :
    Built σ (τ.newBlock base) (owned ++ [τ.freshName base]) := by
  have hfresh := τ.freshName_notMem base
  refine h.step (τ.newBlock_lays base) ?_ ?_ (refines_fresh (layout_none hfresh)) ?_
  · refine nodup_append.mpr ⟨h.nodup, nodup_singleton _, ?_⟩
    intro x hx y hy hxy
    rw [mem_singleton.mp hy] at hxy
    exact hfresh (hxy ▸ hx)
  · intro n hn _
    rw [update_of_ne]
    rintro rfl
    exact hfresh ((h.mem_names _).mpr (.inl hn))
  · exact h.current.imp_right (mem_append_left _)

theorem Built.quiet (h : Built σ τ owned) (hlays : Lays τ ρ [] τ.layout τ.current) :
    Built σ ρ owned := by
  have h' := h.step hlays (by rw [append_nil]; exact h.nodup) (fun _ _ _ => rfl) (.refl _)
    (h.current.imp_right (mem_append_left _))
  rwa [append_nil] at h'

theorem Built.finish (h : Built σ τ owned) (hn : n = σ.current ∨ n ∈ owned)
    (hopen : τ.layout n = some (acts, none)) (hfinish : τ.finish n e = .ok ρ) :
    Built σ ρ owned := by
  have h' := h.step (finish_lays hopen hfinish) (by rw [append_nil]; exact h.nodup) ?_
    (refines_close hopen) (h.current.imp_right (mem_append_left _))
  · rwa [append_nil] at h'
  · intro m hm hne
    rw [update_of_ne]
    rintro rfl
    obtain heq | hmem := hn
    · exact hne heq
    · exact h.fresh hmem hm

/-- The open blocks among `ns` are closed with a jump. -/
theorem joinBlocks_lays {target : BlockName} {ns : List BlockName} (hns : ns.Nodup)
    (hopen : ∀ n ∈ ns, ∃ acts, σ.layout n = some (acts, none))
    (h : joinBlocks target ns σ = .ok τ) :
    Lays σ τ [] τ.layout σ.current ∧ Refines σ.layout τ.layout ∧
      (∀ n, n ∉ ns → τ.layout n = σ.layout n) ∧
      ∀ n ∈ ns, ∀ acts, σ.layout n = some (acts, none) →
        τ.layout n = some (acts, some (.jump target)) := by
  induction ns generalizing σ with
  | nil =>
    cases h
    exact ⟨.refl _, .refl _, fun _ _ => rfl, fun n hn => by cases hn⟩
  | cons m rest ih =>
    rw [joinBlocks] at h
    simp only [bind, Except.bind] at h
    split at h
    · cases h
    rename_i ρ hfinish
    obtain ⟨acts, hm⟩ := hopen m mem_cons_self
    have hlays := finish_lays hm hfinish
    have hmrest : m ∉ rest := (nodup_cons.mp hns).1
    have hsame : ∀ n, n ≠ m → ρ.layout n = σ.layout n := by
      intro n hn
      rw [hlays.layout, update_of_ne hn]
    have hopen' : ∀ n ∈ rest, ∃ acts, ρ.layout n = some (acts, none) := by
      intro n hn
      rw [hsame n (fun heq => hmrest (heq ▸ hn))]
      exact hopen n (mem_cons_of_mem m hn)
    obtain ⟨hrest, hgrows, hother, hjoined⟩ := ih (nodup_cons.mp hns).2 hopen' h
    refine ⟨?_, ?_, ?_, ?_⟩
    · have h' := hlays.trans hrest
      rwa [hlays.current] at h'
    · have hfirst : Refines σ.layout ρ.layout := by
        rw [hlays.layout]
        exact refines_close hm
      exact hfirst.trans hgrows
    · intro n hn
      have hn' : n ≠ m ∧ n ∉ rest := by simpa using hn
      rw [hother n hn'.2, hsame n hn'.1]
    · intro n hn acts' hacts'
      obtain rfl | hn := mem_cons.mp hn
      · rw [hm] at hacts'
        cases hacts'
        rw [hother n hmrest, hlays.layout, update_self]
      · have hnm : n ≠ m := fun heq => hmrest (heq ▸ hn)
        exact hjoined n hn acts' (by rw [hsame n hnm]; exact hacts')

theorem Built.current_mem (h : Built σ τ owned) (hcur : σ.current ∈ σ.names) :
    τ.current ∈ τ.names := by
  rw [h.mem_names]
  obtain heq | hmem := h.current
  · exact .inl (heq ▸ hcur)
  · exact .inr hmem

/-- The two blocks of a branch, and the edge to them. -/
theorem branch_built {loads : List String} (hnodup : σ.names.Nodup)
    (hcur : σ.layout σ.current = some (acts, none))
    (h : (((σ.newBlock .thenBlock).newBlock .elseBlock).recordUses σ.current loads).finish
        σ.current (.branch condition (σ.freshName .thenBlock)
          ((σ.newBlock .thenBlock).freshName .elseBlock)) =
      .ok τ) : Built σ τ [σ.freshName .thenBlock, (σ.newBlock .thenBlock).freshName .elseBlock] ∧
      τ.loopStack = σ.loopStack ∧
      τ.layout = Function.update (Function.update (Function.update σ.layout
        (σ.freshName .thenBlock) (some ([], none)))
        ((σ.newBlock .thenBlock).freshName .elseBlock) (some ([], none)))
        σ.current (some (acts, some (.branch condition (σ.freshName .thenBlock)
          ((σ.newBlock .thenBlock).freshName .elseBlock)))) := by
  let t := σ.freshName .thenBlock
  let σ₁ := σ.newBlock .thenBlock
  let f := σ₁.freshName .elseBlock
  let σ₂ := (σ₁.newBlock .elseBlock).recordUses σ.current loads
  have hmem := mem_names_of_layout hcur
  have h₁ : Built σ σ₁ [t] := (Built.refl hnodup).newBlock .thenBlock
  have h₂ : Built σ σ₂ [t, f] := (h₁.newBlock .elseBlock).quiet (recordUses_lays _ _ _)
  have hlays : Lays σ σ₂ [t, f] (Function.update (Function.update σ.layout t (some ([], none)))
      f (some ([], none))) σ.current := by
    have h' := ((σ.newBlock_lays .thenBlock).trans (σ₁.newBlock_lays .elseBlock)).trans
      (recordUses_lays _ σ.current loads)
    rw [(σ₁.newBlock_lays .elseBlock).layout, (σ.newBlock_lays .thenBlock).layout] at h'
    exact h'
  have hopen : σ₂.layout σ.current = some (acts, none) := by
    rw [hlays.layout, update_of_ne, update_of_ne]
    · exact hcur
    · intro heq
      have ht : t ∈ σ.names := heq ▸ hmem
      exact σ.freshName_notMem .thenBlock ht
    · intro heq
      have hf : f ∈ σ₁.names := heq ▸ (h₁.mem_names _).mpr (.inl hmem)
      exact σ₁.freshName_notMem .elseBlock hf
  have hfinish := finish_lays hopen h
  refine ⟨h₂.finish (.inl rfl) hopen h, hfinish.loops, ?_⟩
  rw [hfinish.layout, hlays.layout]

/-- Both branches laid out, before they join. -/
theorem branches_laid {t f : BlockName} (hcur : σ.layout σ.current = some (acts, none))
    (hbuilt : Built σ σ₃ [t, f]) (hloops : σ₃.loopStack = σ.loopStack)
    (hedge : σ₃.layout σ.current = some (acts, some (.branch (.test test.unparse) t f)))
    (ht : σ₃.layout t = some ([], none)) (hf : σ₃.layout f = some ([], none))
    (hbody : Laid env body { σ₃ with current := t } σ₄)
    (horelse : Laid env orelse { σ₄ with current := f } σ₅) :
    ∃ owned₁ owned₂, Built σ σ₅ (t :: owned₁ ++ f :: owned₂) ∧ σ₅.loopStack = σ.loopStack ∧
      σ₄.current ∈ t :: owned₁ ∧ σ₅.current ∈ f :: owned₂ ∧
      σ₅.layout σ₄.current = σ₄.layout σ₄.current ∧
      ∀ (P : Layout) (index : BlockName → ℕ), Refines σ₅.layout P →
        σ₅.names.Pairwise (fun x y => index x < index y) →
        EndsWith P σ.current acts.length (.branch (.test test.unparse) t f) ∧
        Region env P index σ.loopStack body t 0 owned₁ σ₄.fall ∧
        Region env P index σ.loopStack orelse f 0 owned₂ σ₅.fall := by
  have htf : t ≠ f := by
    have := hbuilt.owned_nodup
    simpa using this
  have hfresh : ∀ n ∈ [t, f], n ≠ σ.current := by
    rintro n hn rfl
    exact hbuilt.fresh hn (mem_names_of_layout hcur)
  have hb : Built σ { σ₃ with current := t } [t, f] := hbuilt.moveTo (.inr (by simp)) _
  obtain ⟨owned₁, hb₁, hloops₁, hregion₁⟩ := hbody [] hb.nodup ht
  have hf₄ : σ₄.layout f = some ([], none) := by
    rw [← hf]
    exact hb₁.frame f (mem_names_of_layout hf) htf.symm
  have hb₄ : Built σ { σ₄ with current := f } ([t, f] ++ owned₁) :=
    (hb.trans hb₁).moveTo (.inr (by simp)) _
  obtain ⟨owned₂, hb₂, hloops₂, hregion₂⟩ := horelse [] hb₄.nodup hf₄
  have hthen : σ₄.current ∈ t :: owned₁ := mem_cons.mpr hb₁.current
  have hf_notMem : f ∉ owned₁ := fun hmem => hb₁.fresh hmem (mem_names_of_layout hf)
  refine ⟨owned₁, owned₂, (hb₄.trans hb₂).perm ?_, ?_, hthen, mem_cons.mpr hb₂.current, ?_, ?_⟩
  · show (t :: f :: (owned₁ ++ owned₂)).Perm (t :: (owned₁ ++ f :: owned₂))
    exact .cons t perm_middle.symm
  · exact hloops₂.trans (hloops₁.trans hloops)
  · apply hb₂.frame
    · exact hb₁.current_mem (mem_names_of_layout ht)
    · rintro heq
      have heq : σ₄.current = f := heq
      rw [heq] at hthen
      obtain heq' | hmem := mem_cons.mp hthen
      · exact htf heq'.symm
      · exact hf_notMem hmem
  · intro P index hrefines hindex
    have hrefines₄ : Refines σ₄.layout P := hb₂.grows.trans hrefines
    have hend : EndsWith σ₃.layout σ.current acts.length (.branch (.test test.unparse) t f) :=
      ⟨acts, hedge, rfl⟩
    refine ⟨hend.refines (hb₁.grows.trans hrefines₄), ?_, ?_⟩
    · rw [← hloops]
      exact hregion₁ P index hrefines₄ (hb₂.ordered hindex)
    · rw [← hloops, ← hloops₁]
      exact hregion₂ P index hrefines hindex

theorem closed_of_fall_none (hmem : σ.current ∈ σ.names) (h : σ.fall = none) :
    σ.closed σ.current = true := by
  obtain ⟨_, _, _, hc⟩ | ⟨_, hl, _⟩ := σ.closed_or_open hmem
  · exact hc
  · rw [fall_open hl] at h
    cases h

theorem fall_of_closed (h : σ.closed σ.current = true) : σ.fall = none := by
  unfold fall
  split
  · rename_i acts hcur
    rw [closed_eq_false hcur] at h
    cases h
  · rfl

/-- The join of two branches. -/
theorem join_laid (hbuilt : Built σ τ owned) (hn : n ∈ owned) (hm : m ∈ owned) (hnm : n ≠ m)
    (h :
      joinBlocks (τ.freshName .resume) ([n, m].filter fun x => !τ.closed x) (τ.newBlock .resume) =
      .ok ρ) : Built σ ρ (owned ++ [τ.freshName .resume]) ∧ ρ.loopStack = τ.loopStack ∧
      ρ.names = τ.names ++ [τ.freshName .resume] ∧ Refines τ.layout ρ.layout ∧
      ρ.layout (τ.freshName .resume) = some ([], none) ∧
      ∀ x ∈ [n, m], ∀ acts, τ.layout x = some (acts, none) →
        ρ.layout x = some (acts, some (.jump (τ.freshName .resume))) := by
  let j := τ.freshName .resume
  let τ' := τ.newBlock .resume
  have hnew := τ.newBlock_lays .resume
  have hmem : ∀ x ∈ [n, m], x ∈ owned := by
    intro x hx
    simp only [mem_cons, not_mem_nil, or_false] at hx
    rcases hx with rfl | rfl
    · exact hn
    · exact hm
  have hne : ∀ x ∈ [n, m], x ≠ j := by
    rintro x hx rfl
    exact τ.freshName_notMem .resume ((hbuilt.mem_names _).mpr (.inr (hmem _ hx)))
  have hsame : ∀ x ∈ [n, m], τ'.layout x = τ.layout x := by
    intro x hx
    rw [hnew.layout, update_of_ne (hne x hx)]
  have hj : τ'.layout j = some ([], none) := by
    rw [hnew.layout, update_self]
  have hopen : ∀ x ∈ [n, m].filter fun x => !τ.closed x,
      ∃ acts, τ'.layout x = some (acts, none) := by
    intro x hx
    obtain ⟨hx, hclosed⟩ := mem_filter.mp hx
    rw [hsame x hx]
    obtain ⟨acts, e, -, hc⟩ | ⟨acts, ho, -⟩ :=
      τ.closed_or_open ((hbuilt.mem_names x).mpr (.inr (hmem x hx)))
    · rw [hc] at hclosed
      cases hclosed
    · exact ⟨acts, ho⟩
  have hnodup : ([n, m].filter fun x => !τ.closed x).Nodup := by
    apply Nodup.filter
    simpa using hnm
  obtain ⟨hlays, hgrows, hother, hjoined⟩ := joinBlocks_lays hnodup hopen h
  refine ⟨?_, hlays.loops.trans hnew.loops, ?_, ?_, ?_, ?_⟩
  · have hb' := hbuilt.newBlock .resume
    have h' := hb'.step hlays (by rw [append_nil]; exact hb'.nodup) ?_ hgrows
      (hb'.current.imp_right (mem_append_left _))
    · rwa [append_nil] at h'
    · intro x hx _
      apply hother
      intro hx'
      exact hbuilt.fresh (hmem x (mem_filter.mp hx').1) hx
  · rw [hlays.names, hnew.names, append_nil]
  · rw [hnew.layout] at hgrows
    exact (refines_fresh (layout_none (τ.freshName_notMem .resume))).trans hgrows
  · rw [hother, hj]
    intro hj'
    exact hne j (mem_filter.mp hj').1 rfl
  · intro x hx acts hacts
    apply hjoined
    · rw [mem_filter]
      exact ⟨hx, by rw [closed_eq_false hacts]; rfl⟩
    · rw [hsame x hx]
      exact hacts

/-- The last step of a branch: join, or go on in the closed block. -/
def Joins (σ τ : Builder) (thenEnd : BlockName) : Prop :=
  let openBlocks := [thenEnd, σ.current].filter fun n => !σ.closed n
  (openBlocks = [] ∧ τ = σ) ∨ (openBlocks ≠ [] ∧ ∃ ρ, joinBlocks (σ.freshName .resume) openBlocks
    (σ.newBlock .resume) = .ok ρ ∧ τ = { ρ with current := σ.freshName .resume })

theorem Laid.ite
    (hbranch :
      (((σ.newBlock .thenBlock).newBlock .elseBlock).recordUses σ.current test.loads).finish
        σ.current (.branch (.test test.unparse) (σ.freshName .thenBlock)
          ((σ.newBlock .thenBlock).freshName .elseBlock)) =
      .ok σ₃) (hbody : Laid env body { σ₃ with current := σ.freshName .thenBlock } σ₄)
    (horelse :
      Laid env orelse { σ₄ with current := (σ.newBlock .thenBlock).freshName .elseBlock } σ₅)
    (hjoin : Joins σ₅ τ σ₄.current) : Laid env (.ite test body orelse .nil) σ τ := by
  intro acts hnodup hcur
  obtain ⟨hbuilt₃, hloops₃, hlayout₃⟩ := branch_built hnodup hcur hbranch
  let t := σ.freshName .thenBlock
  let f := (σ.newBlock .thenBlock).freshName .elseBlock
  have hfresh : ∀ n ∈ [t, f], n ≠ σ.current := by
    rintro n hn rfl
    exact hbuilt₃.fresh hn (mem_names_of_layout hcur)
  have htf : t ≠ f := by
    have := hbuilt₃.owned_nodup
    simpa using this
  obtain ⟨owned₁, owned₂, hbuilt, hloops, hthen, helse, hsame, hregion⟩ :=
    branches_laid hcur hbuilt₃ hloops₃
      (by rw [hlayout₃, update_self])
      (by rw [hlayout₃, update_of_ne (hfresh t (by simp)), update_of_ne htf,
        update_self])
      (by rw [hlayout₃, update_of_ne (hfresh f (by simp)), update_self])
      hbody horelse
  have hmem₅ : σ₄.current ∈ σ₅.names :=
    (hbuilt.mem_names _).mpr (.inr (mem_append_left _ hthen))
  have hmem₄ : σ₄.current ∈ σ₄.names := by
    rw [← layout_isSome, ← hsame, layout_isSome]
    exact hmem₅
  have hfall₄ : σ₄.closed σ₄.current = σ₅.closed σ₄.current := by
    obtain ⟨a, e, hl, hc⟩ | ⟨a, hl, hc⟩ := σ₅.closed_or_open hmem₅
    · obtain ⟨_, _, _, hc'⟩ | ⟨_, hl', _⟩ := σ₄.closed_or_open hmem₄
      · rw [hc, hc']
      · rw [hsame, hl'] at hl
        cases hl
    · rw [hsame] at hl
      rw [hc, closed_eq_false hl]
  obtain ⟨hopenBlocks, rfl⟩ | ⟨hopenBlocks, ρ, hρ, rfl⟩ := hjoin
  · have hclosed : ∀ n ∈ [σ₄.current, τ.current], τ.closed n = true := by
      intro n hn
      have := filter_eq_nil_iff.mp hopenBlocks n hn
      simpa using this
    refine ⟨_, hbuilt, hloops, fun P index hrefines hindex => ?_⟩
    obtain ⟨hend, hr₁, hr₂⟩ := hregion P index hrefines hindex
    rw [fall_of_closed (hfall₄.trans (hclosed _ (by simp)))] at hr₁
    have hfall := fall_of_closed (hclosed τ.current (by simp))
    rw [hfall] at hr₂ ⊢
    exact .iteClosed hend hr₁ hr₂ (by simp)
  · have hne : σ₄.current ≠ σ₅.current := by
      intro heq
      rw [heq] at hthen
      exact (nodup_append.mp hbuilt.owned_nodup).2.2 _ hthen _ helse rfl
    obtain ⟨hbuilt', hloops', hnames, hgrows, hj, hjoined⟩ := join_laid hbuilt (mem_append_left _ hthen)
      (mem_append_right _ helse) hne hρ
    refine ⟨_, hbuilt'.moveTo (.inr (by simp)) _, hloops'.trans hloops,
      fun P index hrefines hindex => ?_⟩
    have hrefines : Refines ρ.layout P := hrefines
    have hindex₅ : σ₅.names.Pairwise (fun x y => index x < index y) := by
      have hindex : ρ.names.Pairwise (fun x y => index x < index y) := hindex
      rw [hnames] at hindex
      exact (pairwise_append.mp hindex).1
    obtain ⟨hend, hr₁, hr₂⟩ := hregion P index (hgrows.trans hrefines) hindex₅
    rw [fall_open hj]
    refine .ite hend hr₁ hr₂ ?_ ?_ ?_ (by simp) .nil
    · intro x k hfall
      obtain ⟨acts', hx, hk, hcur₄⟩ := fall_some hfall
      subst hcur₄
      rw [← hsame] at hx
      exact EndsWith.refines hrefines ⟨acts', hjoined _ (by simp) acts' hx, hk⟩
    · intro x k hfall
      obtain ⟨acts', hx, hk, hcur₅⟩ := fall_some hfall
      subst hcur₅
      exact EndsWith.refines hrefines ⟨acts', hjoined _ (by simp) acts' hx, hk⟩
    · by_contra hnone
      simp only [not_or, Option.not_isSome_iff_eq_none] at hnone
      apply hopenBlocks
      rw [filter_eq_nil_iff]
      intro n hn
      simp only [mem_cons, not_mem_nil, or_false] at hn
      have hclosed₄ : σ₅.closed σ₄.current = true := by
        rw [← hfall₄]
        exact closed_of_fall_none hmem₄ hnone.1
      have hclosed₅ : σ₅.closed σ₅.current = true :=
        closed_of_fall_none ((hbuilt.mem_names _).mpr (.inr (mem_append_right _ helse))) hnone.2
      rcases hn with rfl | rfl
      · simp [hclosed₄]
      · simp [hclosed₅]

/-! ### Loops -/

/-- The three blocks of a loop with the edge into it and the edges of its header. -/
theorem header_built {header body after : BlockBase} {σ₁ : Builder} (hnodup : σ.names.Nodup)
    (hcur : σ.layout σ.current = some (acts, none))
    (hopen : σ.openLoop header body after = .ok ((h, d, a), σ₁))
    (hquiet : Lays σ₁ ρ [] σ₁.layout σ₁.current)
    (hheader : ρ.finish h (.branch condition d a) = .ok σ₂) :
    (h.base = header ∧ d.base = body ∧ a.base = after) ∧ Built σ σ₂ [h, d, a] ∧
      σ₂.names = σ.names ++ [h, d, a] ∧
      σ₂.layout σ.current = some (acts, some (.jump h)) ∧
      σ₂.layout h = some ([], some (.branch condition d a)) ∧
      σ₂.layout d = some ([], none) ∧ σ₂.layout a = some ([], none) := by
  unfold openLoop at hopen
  simp only [bind, Except.bind] at hopen
  split at hopen
  · cases hopen
  rename_i σ₃ hjump
  cases hopen
  let h := σ.freshName header
  let τ₁ := σ.newBlock header
  let d := τ₁.freshName body
  let τ₂ := τ₁.newBlock body
  let a := τ₂.freshName after
  let τ₃ := τ₂.newBlock after
  have hb₃ : Built σ τ₃ [h, d, a] :=
    (((Built.refl hnodup).newBlock header).newBlock body).newBlock after
  have hlays : Lays σ τ₃ [h, d, a] (Function.update (Function.update (Function.update σ.layout
      h (some ([], none))) d (some ([], none))) a (some ([], none))) σ.current := by
    have h' := ((σ.newBlock_lays header).trans (τ₁.newBlock_lays body)).trans
      (τ₂.newBlock_lays after)
    rw [(τ₁.newBlock_lays body).layout, (σ.newBlock_lays header).layout] at h'
    exact h'
  have hdistinct := hb₃.owned_nodup
  simp only [nodup_cons, mem_cons, not_mem_nil, or_false, not_or] at hdistinct
  obtain ⟨⟨hhd, hha⟩, hda, -⟩ := hdistinct
  have hfresh : ∀ n ∈ [h, d, a], n ≠ σ.current := by
    rintro n hn rfl
    exact hb₃.fresh hn (mem_names_of_layout hcur)
  have hhc := hfresh h (by simp)
  have hdc := hfresh d (by simp)
  have hac := hfresh a (by simp)
  have hopen₃ : τ₃.layout σ.current = some (acts, none) := by
    rw [hlays.layout, update_of_ne hac.symm, update_of_ne hdc.symm, update_of_ne hhc.symm]
    exact hcur
  have hjlays := finish_lays hopen₃ hjump
  have hb₁ : Built σ ρ [h, d, a] := (hb₃.finish (.inl rfl) hopen₃ hjump).quiet hquiet
  have hh : ρ.layout h = some ([], none) := by
    rw [hquiet.layout, hjlays.layout, update_of_ne hhc, hlays.layout,
      update_of_ne hha, update_of_ne hhd, update_self]
  have hhlays := finish_lays hh hheader
  refine ⟨⟨rfl, rfl, rfl⟩, hb₁.finish (.inr (by simp)) hh hheader, ?_, ?_, ?_, ?_, ?_⟩
  · rw [hhlays.names, hquiet.names, hjlays.names, hlays.names]
    simp only [append_nil]
    rfl
  · rw [hhlays.layout, update_of_ne hhc.symm, hquiet.layout, hjlays.layout,
      update_self]
  · rw [hhlays.layout, update_self]
  · rw [hhlays.layout, update_of_ne (Ne.symm hhd), hquiet.layout, hjlays.layout,
      update_of_ne hdc, hlays.layout, update_of_ne hda, update_self]
  · rw [hhlays.layout, update_of_ne (Ne.symm hha), hquiet.layout, hjlays.layout,
      update_of_ne hac, hlays.layout, update_self]

/-- A loop whose three blocks are there: the header `h` branches to the body `d` and to `a`. -/
theorem loop_laid {s : Body} {l : LoopParts} (hs : s.loopParts = some l) (hrest : l.rest = .nil)
    (hbase : h.base = l.header) (hkind : ∀ x ∈ [d, a], x.base ≠ .forLoop)
    (hcheck : l.target = none → canReachBackedge env true l.body = false)
    (hcur : σ.layout σ.current = some (acts, none)) (hbuilt : Built σ σ₂ [h, d, a])
    (hnames : σ₂.names = σ.names ++ [h, d, a])
    (henter : σ₂.layout σ.current = some (acts, some (.jump h)))
    (hheader : σ₂.layout h = some ([], some (.branch l.condition d a)))
    (hd : σ₂.layout d = some ([], none)) (ha : σ₂.layout a = some ([], none))
    (hbody : Laid env l.body { σ₂ with loopStack := (h, a) :: σ.loopStack, current := d } σ₃)
    (hfallTo : σ₃.fallTo h = .ok σ₄)
    (horelse : Laid env l.orelse { σ₄ with loopStack := σ.loopStack, current := a } τ) :
    ∃ owned, Built σ τ owned ∧ τ.loopStack = σ.loopStack ∧
      ∀ (P : Layout) (index : BlockName → ℕ), Refines τ.layout P →
        τ.names.Pairwise (fun x y => index x < index y) →
        Region env P index σ.loopStack s σ.current acts.length owned τ.fall := by
  have hnodup := hbuilt.owned_nodup
  have hda : d ≠ a := by
    intro heq
    rw [heq] at hnodup
    simp at hnodup
  have hb₂ : Built σ { σ₂ with current := d, loopStack := (h, a) :: σ.loopStack } [h, d, a] :=
    hbuilt.moveTo (.inr (by simp)) _
  obtain ⟨owned₁, hb₃, hloops₃, hregion₁⟩ := hbody [] hb₂.nodup hd
  have ha₃ : σ₃.layout a = some ([], none) := by
    rw [← ha]
    exact hb₃.frame a (mem_names_of_layout ha) hda.symm
  have ha_notMem : a ∉ d :: owned₁ := by
    rw [mem_cons, not_or]
    exact ⟨hda.symm, fun hmem => hb₃.fresh hmem (mem_names_of_layout ha)⟩
  have hcur₃ : σ₃.current ∈ d :: owned₁ := mem_cons.mpr hb₃.current
  have hall₃ : Built σ σ₃ ([h, d, a] ++ owned₁) := hb₂.trans hb₃
  have hmem₃ : σ₃.current ∈ [h, d, a] ++ owned₁ := by
    rw [mem_append]
    obtain heq | hmem := mem_cons.mp hcur₃
    · exact .inl (by rw [heq]; simp)
    · exact .inr hmem
  -- the back edge
  obtain ⟨hall₄, hgrows₄, ha₄, hnames₄, hback⟩ : Built σ σ₄ ([h, d, a] ++ owned₁) ∧
      Refines σ₃.layout σ₄.layout ∧ σ₄.layout a = some ([], none) ∧ σ₄.names = σ₃.names ∧
      FallsTo σ₄.layout σ₃.fall h := by
    unfold fallTo at hfallTo
    split at hfallTo
    · rename_i hclosed
      cases hfallTo
      refine ⟨hall₃, .refl _, ha₃, rfl, ?_⟩
      intro x k hfall
      rw [fall_of_closed hclosed] at hfall
      cases hfall
    · rename_i hclosed
      obtain ⟨_, _, _, hc⟩ | ⟨acts₃, hopen, -⟩ :=
        σ₃.closed_or_open ((hall₃.mem_names _).mpr (.inr hmem₃))
      · exact absurd hc hclosed
      have hlays := finish_lays hopen hfallTo
      refine ⟨hall₃.finish (.inr hmem₃) hopen hfallTo, ?_, ?_, ?_, ?_⟩
      · rw [hlays.layout]
        exact refines_close hopen
      · rw [hlays.layout, update_of_ne, ha₃]
        rintro rfl
        exact ha_notMem hcur₃
      · rw [hlays.names, append_nil]
      · intro x k hfall
        obtain ⟨acts', hx, hk, hxcur⟩ := fall_some hfall
        subst hxcur
        rw [hopen] at hx
        cases hx
        exact ⟨acts₃, by rw [hlays.layout, update_self], hk⟩
  have hb₄ : Built σ { σ₄ with current := a, loopStack := σ.loopStack } ([h, d, a] ++ owned₁) :=
    hall₄.moveTo (.inr (by simp)) _
  obtain ⟨owned₂, hb₅, hloops₅, hregion₂⟩ := horelse [] hb₄.nodup ha₄
  refine ⟨h :: d :: owned₁ ++ a :: owned₂, (hb₄.trans hb₅).perm ?_, hloops₅, ?_⟩
  · show (h :: d :: a :: (owned₁ ++ owned₂)).Perm (h :: d :: (owned₁ ++ a :: owned₂))
    exact .cons h (.cons d perm_middle.symm)
  · intro P index hrefines hindex
    have hrefines₄ : Refines σ₄.layout P := hb₅.grows.trans hrefines
    have hrefines₃ : Refines σ₃.layout P := hgrows₄.trans hrefines₄
    have hrefines₂ : Refines σ₂.layout P := hb₃.grows.trans hrefines₃
    have hindex₄ : σ₄.names.Pairwise (fun x y => index x < index y) := hb₅.ordered hindex
    have hindex₃ : σ₃.names.Pairwise (fun x y => index x < index y) := hnames₄ ▸ hindex₄
    have hindex₂ : σ₂.names.Pairwise (fun x y => index x < index y) := hb₃.ordered hindex₃
    refine .loop hs hbase hcheck (EndsWith.refines hrefines₂ ⟨acts, henter, rfl⟩)
      (EndsWith.refines hrefines₂ ⟨[], hheader, rfl⟩) (hregion₁ P index hrefines₃ hindex₃) ?_ ?_
      ?_ ?_ hkind hda
    · intro x k hfall
      exact (hback x k hfall).refines hrefines₄
    · rw [hrest, Body.append_nil]
      exact hregion₂ P index hrefines hindex
    · rw [hnames] at hindex₂
      exact (pairwise_append.mp hindex₂).2.2 _ (mem_names_of_layout hcur) _ (by simp)
    · intro x hx
      obtain rfl | hx := mem_cons.mp hx
      · rw [hnames] at hindex₂
        exact (pairwise_cons.mp (pairwise_append.mp hindex₂).2.1).1 x (by simp)
      · obtain ⟨new, hnew, hp⟩ := hb₃.names
        rw [hnew] at hindex₃
        exact (pairwise_append.mp hindex₃).2.2 _ (mem_names_of_layout hheader) _
          (hp.mem_iff.mpr hx)

/-! ### The whole body -/

theorem bind_ok {α β : Type} {x : Except ProcessConstructionError α}
    {f : α → Except ProcessConstructionError β} {r : β} (h : (x >>= f) = .ok r) :
    ∃ a, x = .ok a ∧ f a = .ok r := by
  cases x with
  | error e => cases h
  | ok a => exact ⟨a, rfl, h⟩

theorem guardOpen_ok {next : Building} (h : σ.guardOpen next = .ok τ) : next = .ok τ := by
  unfold guardOpen at h
  split at h
  · cases h
  · exact h

theorem statements_laid (body : Body) (h : statements env body σ = .ok τ) : Laid env body σ τ := by
  induction body generalizing σ τ with
  | nil =>
    cases h
    exact .nil
  | simple s rest ih =>
    unfold statements at h
    obtain ⟨ρ, hs, hrest⟩ := bind_ok (guardOpen_ok h)
    exact (Laid.simple hs).append hrest (ih hrest)
  | ite test body orelse rest ihbody ihorelse ihrest =>
    unfold statements at h
    obtain ⟨σ₃, hbranch, h⟩ := bind_ok (guardOpen_ok h)
    obtain ⟨σ₄, hbody, h⟩ := bind_ok h
    obtain ⟨σ₅, horelse, h⟩ := bind_ok h
    simp only at h
    split at h
    · rename_i hnone
      exact (Laid.ite hbranch (ihbody hbody) (ihorelse horelse) (.inl ⟨hnone, rfl⟩)).append h
        (ihrest h)
    · rename_i hsome
      obtain ⟨ρ, hjoin, hrest⟩ := bind_ok h
      exact (Laid.ite hbranch (ihbody hbody) (ihorelse horelse)
        (.inr ⟨hsome, ρ, hjoin, rfl⟩)).append hrest (ihrest hrest)
  | whileLoop test body orelse rest ihbody ihorelse ihrest =>
    unfold statements at h
    have h := guardOpen_ok h
    split at h
    · cases h
    rename_i hcheck
    obtain ⟨⟨⟨hd, d, a⟩, σ₁⟩, hopen, h⟩ := bind_ok h
    obtain ⟨σ₂, hheader, h⟩ := bind_ok h
    obtain ⟨σ₃, hbody, h⟩ := bind_ok h
    obtain ⟨σ₄, hfall, h⟩ := bind_ok h
    obtain ⟨σ₅, horelse, hrest⟩ := bind_ok h
    refine Laid.append (s := .whileLoop test body orelse .nil) ?_ hrest (ihrest hrest)
    intro acts hnodup hcur
    obtain ⟨⟨hbase, hdbase, habase⟩, hbuilt, hnames, henter, hh, hd, ha⟩ :=
      header_built hnodup hcur hopen (recordUses_lays _ _ _) hheader
    exact loop_laid rfl rfl hbase (by simp [hdbase, habase]) (fun _ => by simpa using hcheck) hcur
      hbuilt hnames henter hh hd ha (ihbody hbody) hfall (ihorelse horelse)
  | forLoop target iter body orelse rest ihbody ihorelse ihrest =>
    unfold statements at h
    have h := guardOpen_ok h
    match target, rangeTripCount iter, h with
    | .name x, some tripCount, h =>
      simp only at h
      split at h
      · cases h
      obtain ⟨⟨⟨hd, d, a⟩, σ₁⟩, hopen, h⟩ := bind_ok h
      obtain ⟨σ₂, hheader, h⟩ := bind_ok h
      obtain ⟨σ₃, hbody, h⟩ := bind_ok h
      obtain ⟨σ₄, hfall, h⟩ := bind_ok h
      obtain ⟨σ₅, horelse, hrest⟩ := bind_ok h
      refine Laid.append (s := .forLoop (.name x) iter body orelse .nil) ?_ hrest (ihrest hrest)
      intro acts hnodup hcur
      have hquiet : Lays σ₁ ((σ₁.recordUses hd iter.loads).recordDefinition hd x) []
          σ₁.layout σ₁.current := by
        have huses := σ₁.recordUses_lays hd iter.loads
        have h' := huses.trans (recordDefinition_lays _ hd x)
        rwa [huses.layout, huses.current] at h'
      obtain ⟨⟨hbase, hdbase, habase⟩, hbuilt, hnames, henter, hh, hd, ha⟩ :=
        header_built hnodup hcur hopen hquiet hheader
      exact loop_laid rfl rfl hbase (by simp [hdbase, habase]) (fun hnone => by cases hnone) hcur
        hbuilt hnames henter hh hd ha (ihbody hbody) hfall (ihorelse horelse)
  | ret value rest ih =>
    unfold statements at h
    have h := guardOpen_ok h
    split at h
    · obtain ⟨ρ, hret, hrest⟩ := bind_ok h
      exact (Laid.ret value hret).append hrest (ih hrest)
    · cases h
  | brk rest ih =>
    unfold statements at h
    have h := guardOpen_ok h
    split at h
    · cases h
    · rename_i hloops
      obtain ⟨ρ, hbrk, hrest⟩ := bind_ok h
      exact (Laid.brk hloops hbrk).append hrest (ih hrest)
  | cont rest ih =>
    unfold statements at h
    have h := guardOpen_ok h
    split at h
    · cases h
    · rename_i hloops
      obtain ⟨ρ, hcont, hrest⟩ := bind_ok h
      exact (Laid.cont hloops hcont).append hrest (ih hrest)

/-! ### Programs -/

theorem program_names (h : σ.program = .ok P) : P.names = σ.names := by
  unfold program at h
  simp only at h
  split at h
  · cases h
    simp [ProcessProgram.names, names]
  · cases h

theorem program_layout (h : σ.program = .ok P) (n : BlockName) :
    P.layout n = (σ.layout n).map fun a => (a.1, some (a.2.getD .ret)) := by
  unfold program at h
  simp only at h
  split at h
  · cases h
    simp only [ProcessProgram.layout, layout, find?_map, Option.map_map]
    rfl
  · cases h

theorem program_refines (h : σ.program = .ok P) : Refines σ.layout P.layout := by
  rintro n ⟨acts, edge⟩ ha
  refine ⟨(acts, some (edge.getD .ret)), by rw [program_layout h, ha]; rfl, prefix_rfl, ?_⟩
  rintro e rfl
  rfl

end Builder

/-- A program is a region of its own graph that starts in the entry block, owns all other blocks
and returns where it falls through. -/
structure Lowered (env : Environment) (body : Body) (P : ProcessProgram) (owned : List BlockName)
    (fall : Option (BlockName × ℕ)) : Prop where
  region : Region env P.layout P.index [] body entryName 0 owned fall
  names : P.names.Perm (entryName :: owned)
  nodup : (entryName :: owned).Nodup
  returns : ∀ x k, fall = some (x, k) → EndsWith P.layout x k .ret

theorem idxOf_pairwise {names : List BlockName} (h : names.Nodup) :
    names.Pairwise (fun x y => names.idxOf x < names.idxOf y) := by
  rw [pairwise_iff_getElem]
  intro i j hi hj hij
  rw [h.idxOf_getElem i hi, h.idxOf_getElem j hj]
  exact hij

theorem constructProcess_lowered {env : Environment} {parameters : List String} {body : Body}
    {P : ProcessProgram} (h : constructProcess env parameters body = .ok P) :
    ∃ owned fall, Lowered env body P owned fall := by
  obtain ⟨σ, hbody, h⟩ := bind_ok h
  have hstart : (start parameters).names = [entryName] := rfl
  have hentry : (start parameters).layout entryName = some ([], none) := rfl
  obtain ⟨owned, hbuilt, hloops, hregion⟩ := statements_laid body hbody []
    (by rw [hstart]; exact nodup_singleton _) hentry
  have hmem : σ.current ∈ σ.names :=
    hbuilt.current_mem (by rw [hstart]; exact mem_singleton_self _)
  obtain ⟨τ, hprogram, hnames, hgrows, hreturns⟩ : ∃ τ : Builder, τ.program = .ok P ∧
      τ.names = σ.names ∧ Refines σ.layout τ.layout ∧
      ∀ x k, σ.fall = some (x, k) → EndsWith τ.layout x k .ret := by
    obtain ⟨_, _, _, hclosed⟩ | ⟨acts, hopen, hclosed⟩ := σ.closed_or_open hmem
    · rw [if_pos hclosed] at h
      refine ⟨σ, h, rfl, .refl _, fun x k hfall => ?_⟩
      rw [fall_of_closed hclosed] at hfall
      cases hfall
    · rw [if_neg (by rw [hclosed]; exact Bool.false_ne_true)] at h
      obtain ⟨τ, hret, hprogram⟩ := bind_ok h
      have hlays := finish_lays hopen hret
      refine ⟨τ, hprogram, by rw [hlays.names, append_nil], ?_, fun x k hfall => ?_⟩
      · rw [hlays.layout]
        exact refines_close hopen
      · rw [fall_open hopen] at hfall
        cases hfall
        exact ⟨acts, by rw [hlays.layout, update_self], rfl⟩
  have hrefines := program_refines hprogram
  have hPnames : P.names = σ.names := (program_names hprogram).trans hnames
  obtain ⟨new, hnew, hp⟩ := hbuilt.names
  have hperm : P.names.Perm (entryName :: owned) := by
    rw [hPnames, hnew, hstart]
    exact .cons entryName hp
  have hnodup : P.names.Nodup := by
    rw [hPnames]
    exact hbuilt.nodup
  refine ⟨owned, σ.fall, ?_, hperm, hperm.nodup_iff.mp hnodup, ?_⟩
  · apply hregion P.layout P.index (hgrows.trans hrefines)
    rw [← hPnames]
    exact idxOf_pairwise hnodup
  · intro x k hfall
    exact (hreturns x k hfall).refines hrefines

end AgenticCircuit.Frontend
