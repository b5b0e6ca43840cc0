import AgenticCircuit.Dialect.StateBody

/-! # Canonicalised bodies

What the patterns do to a body, stated once for both of them and for the whole body.

* `Reduces` relates a body to one without some of its redundant reads and disabled writes; an
  application of a pattern is a case of it (`Rewrites.reduces`).
* The reduced body is well formed again (`Reduces.dominated`), so that patterns may be applied
  any number of times. -/

namespace AgenticCircuit.Dialect

open List Function
open Bool (and_eq_true)
open AgenticCircuit.Gfsim

variable {V O : Type} {scope results : List Ssa} {f : Ssa → Ssa} {x : Ssa}
  {scope results : List Ssa}

/-! ### Values -/

section Values

variable [Inhabited V]

theorem bind_of_notMem (values : List V) (env : Values V) (h : x ∉ results) :
    bind results values env x = env x := by
  induction results generalizing values env with
  | nil => rfl
  | cons r rs ih =>
    rw [mem_cons, not_or] at h
    rw [bind, ih _ _ h.2, update_of_ne h.1]

theorem bind_eq_of_mem (values : List V) (env env' : Values V) (h : x ∈ results) :
    bind results values env x = bind results values env' x := by
  induction results generalizing values env env' with
  | nil => cases h
  | cons r rs ih =>
    rw [bind, bind]
    by_cases hx : x ∈ rs
    · exact ih _ _ _ hx
    · obtain rfl : x = r := (mem_cons.mp h).resolve_right hx
      rw [bind_of_notMem _ _ hx, bind_of_notMem _ _ hx, update_self, update_self]

end Values

theorem fresh_iff : fresh scope results = true ↔ results.Nodup ∧ ∀ x ∈ results, x ∉ scope := by
  simp [fresh]

theorem notMem_of_fresh {x : Ssa} (h : fresh scope results = true)
    (hx : x ∈ scope) : x ∉ results := fun hr => (fresh_iff.mp h).2 x hr hx

/-! ### Replaced operands -/

theorem Instruction.rename_id (i : Instruction V O) : i.rename id = i := by
  cases i <;> simp [Instruction.rename]

theorem Region.rename_id (region : Region V O) : region.rename id = region := by
  induction region <;> simp_all [Region.rename, Instruction.rename_id]

theorem Instruction.operands_rename (f : Ssa → Ssa) (i : Instruction V O) :
    (i.rename f).operands = i.operands.map f := by
  cases i <;> rfl

theorem Instruction.results_rename (f : Ssa → Ssa) (i : Instruction V O) :
    (i.rename f).results = i.results := by
  cases i <;> rfl

/-- `f` replaces values in scope by values in scope. -/
structure Renaming (scope : List Ssa) (f : Ssa → Ssa) : Prop where
  mem : ∀ x ∈ scope, f x ∈ scope
  eq_self : ∀ x, x ∉ scope → f x = x

namespace Renaming

theorem identity (scope : List Ssa) : Renaming scope id := ⟨fun _ h => h, fun _ _ => rfl⟩

theorem append (h : Renaming scope f) (hf : fresh scope results = true) :
    Renaming (results ++ scope) f := by
  refine ⟨fun x hx => ?_, fun x hx => h.eq_self x fun hs => hx (mem_append_right _ hs)⟩
  rcases mem_append.mp hx with hr | hs
  · rw [h.eq_self x ((fresh_iff.mp hf).2 x hr)]
    exact hx
  · exact mem_append_right _ (h.mem x hs)

theorem update {result replacement : Ssa} (h : Renaming scope f) (hr : replacement ∈ scope) :
    Renaming (result :: scope) (update f result (f replacement)) := by
  constructor
  · intro x hx
    by_cases hxr : x = result
    · subst hxr
      rw [update_self]
      exact mem_cons_of_mem _ (h.mem _ hr)
    · rw [update_of_ne hxr]
      exact mem_cons_of_mem _ (h.mem x ((mem_cons.mp hx).resolve_left hxr))
  · intro x hx
    rw [mem_cons, not_or] at hx
    rw [update_of_ne hx.1]
    exact h.eq_self x hx.2

end Renaming

/-- The second region is the first one, with operands replaced by `f`, without some of the
reads that a preceding read answers in the same activation and some of the disabled writes. -/
inductive Reduces [ScalarValue V] [ProcessOperation O] :
    List Ssa → List (Ssa × V) → List Previous → (Ssa → Ssa) → Region V O → Region V O → Prop
  | yield {scope known previous f operands} : (∀ x ∈ operands, x ∈ scope) →
      Reduces scope known previous f (.yield operands) (.yield (operands.map f))
  | instruction {scope known previous f i rest rest'} : (∀ x ∈ i.operands, x ∈ scope) →
      fresh scope i.results = true →
      Reduces (i.results ++ scope) (i.constants known) (i.previous :: previous) f rest rest' →
      Reduces scope known previous f (.instruction i rest) (.instruction (i.rename f) rest')
  | reuse {scope known previous f array index port element result replacement rest rest'} :
      reuseCommittedStateRead array index port element previous = some (replacement, false) →
      replacement ∈ scope → result ∉ scope →
      Reduces (result :: scope) known previous (update f result (f replacement))
        rest rest' →
      Reduces scope known previous f
        (.instruction (.stateRead array index port element result) rest) rest'
  | erase {scope known previous f array index value enable port rest rest'} :
      eraseDisabledStateWrite known enable = true →
      Reduces scope known (.other false :: previous) f rest rest' →
      Reduces scope known previous f
        (.instruction (.stateWrite array index value enable port) rest) rest'
  | ifOp {scope known previous f condition thenRegion thenRegion' elseRegion elseRegion' results
        rest rest'} :
      condition ∈ scope →
      Reduces scope known [] f thenRegion thenRegion' →
      Reduces scope known [] f elseRegion elseRegion' → fresh scope results = true →
      Reduces (results ++ scope) known
        (.other (maySuspend thenRegion || maySuspend elseRegion) :: previous) f rest rest' →
      Reduces scope known previous f (.ifOp condition thenRegion elseRegion results rest)
        (.ifOp (f condition) thenRegion' elseRegion' results rest')
  | forOp {scope known previous f lower upper step inits induction arguments body body' results
        rest rest'} :
      (∀ x ∈ lower :: upper :: step :: inits, x ∈ scope) →
      fresh scope (induction :: arguments) = true →
      Reduces (induction :: arguments ++ scope) known [] f body body' →
      fresh scope results = true →
      Reduces (results ++ scope) known (.other (maySuspend body) :: previous) f rest rest' →
      Reduces scope known previous f
        (.forOp lower upper step inits induction arguments body results rest)
        (.forOp (f lower) (f upper) (f step) (inits.map f) induction arguments body' results
          rest')
  | whileOp {scope known previous f inits beforeArguments before before' afterArguments after
        after' results rest rest'} :
      (∀ x ∈ inits, x ∈ scope) →
      fresh scope beforeArguments = true →
      Reduces (beforeArguments ++ scope) known [] f before before' →
      fresh scope afterArguments = true →
      Reduces (afterArguments ++ scope) known [] f after after' →
      fresh scope results = true →
      Reduces (results ++ scope) known (.other (maySuspend before || maySuspend after) :: previous)
        f rest rest' →
      Reduces scope known previous f
        (.whileOp inits beforeArguments before afterArguments after results rest)
        (.whileOp (inits.map f) beforeArguments before' afterArguments after' results rest')
  | instrumentation {scope known previous f body body' rest rest'} :
      Reduces scope known [] f body body' →
      Reduces scope known (.other (maySuspend body) :: previous) f rest rest' →
      Reduces scope known previous f (.instrumentation body rest) (.instrumentation body' rest')

section Static

variable [ScalarValue V] [ProcessOperation O] {known : List (Ssa × V)} {previous : List Previous}
  {region region' rest rest' : Region V O} {inits scope' : List Ssa}

/-- Only the operands differ. -/
theorem reduces_rename (hd : dominated scope region = true) :
    Reduces scope known previous f region (region.rename f) := by
  induction region generalizing scope known previous with
  | yield operands =>
    apply Reduces.yield
    simpa [dominated] using hd
  | instruction i rest ih =>
    simp only [dominated, and_eq_true, all_eq_true, contains_iff_mem] at hd
    obtain ⟨⟨ho, hf⟩, hrest⟩ := hd
    exact .instruction ho hf (ih hrest)
  | ifOp condition thenRegion elseRegion results rest iht ihe ih =>
    simp only [dominated, and_eq_true, contains_iff_mem] at hd
    obtain ⟨⟨⟨⟨hc, ht⟩, he⟩, hf⟩, hrest⟩ := hd
    exact .ifOp hc (iht ht) (ihe he) hf (ih hrest)
  | forOp lower upper step inits induction arguments body results rest ihb ih =>
    simp only [dominated, and_eq_true, all_eq_true, contains_iff_mem] at hd
    obtain ⟨⟨⟨⟨ho, ha⟩, hb⟩, hf⟩, hrest⟩ := hd
    exact .forOp ho ha (ihb hb) hf (ih hrest)
  | whileOp inits beforeArguments before afterArguments after results rest ihb iha ih =>
    simp only [dominated, and_eq_true, all_eq_true, contains_iff_mem] at hd
    obtain ⟨⟨⟨⟨⟨⟨ho, hfb⟩, hb⟩, hfa⟩, ha⟩, hf⟩, hrest⟩ := hd
    exact .whileOp ho hfb (ihb hb) hfa (iha ha) hf (ih hrest)
  | instrumentation body rest ihb ih =>
    simp only [dominated, and_eq_true] at hd
    exact .instrumentation (ihb hd.1) (ih hd.2)

theorem reduces_refl (hd : dominated scope region = true) :
    Reduces scope known previous id region region := by
  have h : Reduces scope known previous id region (region.rename id) := reduces_rename hd
  rwa [Region.rename_id] at h

/-- Whatever read is found among the preceding operations, its result is in scope. -/
def Resolves (scope : List Ssa) (previous : List Previous) : Prop :=
  ∀ array index port element found,
    reuseCommittedStateRead array index port element previous = some found → found.1 ∈ scope

theorem resolves_nil : Resolves scope [] := by
  intro array index port element found h
  cases h

theorem Resolves.append (h : Resolves scope previous) : Resolves (results ++ scope) previous :=
  fun array index port element found hf =>
    mem_append_right _ (h array index port element found hf)

theorem Resolves.other {suspends : Bool} (h : Resolves scope previous) :
    Resolves scope (.other suspends :: previous) := by
  intro array index port element found hf
  obtain ⟨inner, hinner, rfl⟩ := Option.map_eq_some_iff.mp hf
  exact h array index port element inner hinner

omit [ScalarValue V] in
theorem Resolves.instruction (i : Instruction V O) (h : Resolves scope previous) :
    Resolves (i.results ++ scope) (i.previous :: previous) := by
  cases i with
  | stateRead array index port element result =>
    intro array' index' port' element' found hf
    simp only [Instruction.previous, reuseCommittedStateRead] at hf
    split at hf
    · obtain rfl := Option.some.inj hf
      exact mem_cons_self
    · exact mem_cons_of_mem _ (h _ _ _ _ _ hf)
  | _ => exact h.append.other

theorem reduces_forOp {lower upper step induction : Ssa} {arguments : List Ssa}
    {body body' : Region V O} (ho : ∀ x ∈ lower :: upper :: step :: inits, x ∈ scope)
    (ha : fresh scope (induction :: arguments) = true)
    (hb : Reduces (induction :: arguments ++ scope) known [] id body body')
    (hf : fresh scope results = true)
    (hrest : Reduces (results ++ scope) known (.other (maySuspend body) :: previous) id rest rest') :
    Reduces scope known previous id
      (.forOp lower upper step inits induction arguments body results rest)
      (.forOp lower upper step inits induction arguments body' results rest') := by
  have h := Reduces.forOp ho ha hb hf hrest
  rwa [map_id] at h

theorem reduces_whileOp {beforeArguments afterArguments : List Ssa}
    {before before' after after' : Region V O} (ho : ∀ x ∈ inits, x ∈ scope)
    (hfb : fresh scope beforeArguments = true)
    (hb : Reduces (beforeArguments ++ scope) known [] id before before')
    (hfa : fresh scope afterArguments = true)
    (ha : Reduces (afterArguments ++ scope) known [] id after after')
    (hf : fresh scope results = true)
    (hrest :
      Reduces (results ++ scope) known (.other (maySuspend before || maySuspend after) :: previous) id
        rest rest') :
    Reduces scope known previous id
      (.whileOp inits beforeArguments before afterArguments after results rest)
      (.whileOp inits beforeArguments before' afterArguments after' results rest') := by
  have h := Reduces.whileOp ho hfb hb hfa ha hf hrest
  rwa [map_id] at h

/-- An application of a pattern that reuses no read across a suspension. -/
theorem Rewrites.reduces (h : Rewrites false known previous region region')
    (hd : dominated scope region = true) (hr : Resolves scope previous) :
    Reduces scope known previous id region region' := by
  induction h generalizing scope with
    simp only [dominated, and_eq_true, all_eq_true, contains_iff_mem] at hd
  | reuse hfound =>
    obtain ⟨⟨-, hf⟩, hrest⟩ := hd
    exact .reuse hfound (hr _ _ _ _ _ hfound) ((fresh_iff.mp hf).2 _ mem_cons_self)
      (reduces_rename hrest)
  | erase hdisabled => exact .erase hdisabled (reduces_refl hd.2)
  | @instruction known previous i rest rest' _ ih =>
    obtain ⟨⟨ho, hf⟩, hrest⟩ := hd
    have := Reduces.instruction ho hf (ih hrest (hr.instruction i))
    rwa [Instruction.rename_id] at this
  | ifThen _ ih =>
    obtain ⟨⟨⟨⟨hc, ht⟩, he⟩, hf⟩, hrest⟩ := hd
    exact .ifOp hc (ih ht resolves_nil) (reduces_refl he) hf (reduces_refl hrest)
  | ifElse _ ih =>
    obtain ⟨⟨⟨⟨hc, ht⟩, he⟩, hf⟩, hrest⟩ := hd
    exact .ifOp hc (reduces_refl ht) (ih he resolves_nil) hf (reduces_refl hrest)
  | ifRest _ ih =>
    obtain ⟨⟨⟨⟨hc, ht⟩, he⟩, hf⟩, hrest⟩ := hd
    exact .ifOp hc (reduces_refl ht) (reduces_refl he) hf (ih hrest hr.append.other)
  | forBody _ ih =>
    obtain ⟨⟨⟨⟨ho, ha⟩, hb⟩, hf⟩, hrest⟩ := hd
    exact reduces_forOp ho ha (ih hb resolves_nil) hf (reduces_refl hrest)
  | forRest _ ih =>
    obtain ⟨⟨⟨⟨ho, ha⟩, hb⟩, hf⟩, hrest⟩ := hd
    exact reduces_forOp ho ha (reduces_refl hb) hf (ih hrest hr.append.other)
  | whileBefore _ ih =>
    obtain ⟨⟨⟨⟨⟨⟨ho, hfb⟩, hb⟩, hfa⟩, ha⟩, hf⟩, hrest⟩ := hd
    exact reduces_whileOp ho hfb (ih hb resolves_nil) hfa (reduces_refl ha) hf
      (reduces_refl hrest)
  | whileAfter _ ih =>
    obtain ⟨⟨⟨⟨⟨⟨ho, hfb⟩, hb⟩, hfa⟩, ha⟩, hf⟩, hrest⟩ := hd
    exact reduces_whileOp ho hfb (reduces_refl hb) hfa (ih ha resolves_nil) hf
      (reduces_refl hrest)
  | whileRest _ ih =>
    obtain ⟨⟨⟨⟨⟨⟨ho, hfb⟩, hb⟩, hfa⟩, ha⟩, hf⟩, hrest⟩ := hd
    exact reduces_whileOp ho hfb (reduces_refl hb) hfa (reduces_refl ha) hf
      (ih hrest hr.append.other)
  | instrumentationBody _ ih => exact .instrumentation (ih hd.1 resolves_nil) (reduces_refl hd.2)
  | instrumentationRest _ ih => exact .instrumentation (reduces_refl hd.1) (ih hd.2 hr.other)

theorem fresh_mono (h : fresh scope results = true) (hsub : ∀ x ∈ scope', x ∈ scope) :
    fresh scope' results = true := by
  rw [fresh_iff] at h ⊢
  exact ⟨h.1, fun x hx hs => h.2 x hx (hsub x hs)⟩

/-- `scope'` is left of the scope when the replaced results are gone. -/
structure Narrowed (scope scope' : List Ssa) (f : Ssa → Ssa) : Prop where
  mem : ∀ x ∈ scope, f x ∈ scope'
  sub : ∀ x ∈ scope', x ∈ scope

theorem Narrowed.append (h : Narrowed scope scope' f) (hr : Renaming scope f)
    (hf : fresh scope results = true) : Narrowed (results ++ scope) (results ++ scope') f := by
  constructor
  · intro x hx
    rcases mem_append.mp hx with hx | hx
    · rw [hr.eq_self x ((fresh_iff.mp hf).2 x hx)]
      exact mem_append_left _ hx
    · exact mem_append_right _ (h.mem x hx)
  · intro x hx
    rcases mem_append.mp hx with hx | hx
    · exact mem_append_left _ hx
    · exact mem_append_right _ (h.sub x hx)

theorem Reduces.dominated (h : Reduces scope known previous f region region')
    (hr : Renaming scope f) (hn : Narrowed scope scope' f) : dominated scope' region' = true := by
  induction h generalizing scope' with
  | yield ho =>
    simp only [Dialect.dominated, all_map, all_eq_true, comp_apply, contains_iff_mem]
    exact fun x hx => hn.mem x (ho x hx)
  | @instruction scope known previous f i rest rest' ho hf _ ih =>
    simp only [Dialect.dominated, and_eq_true, Instruction.operands_rename,
      Instruction.results_rename, all_map, all_eq_true, comp_apply,
      contains_iff_mem]
    exact ⟨⟨fun x hx => hn.mem x (ho x hx), fresh_mono hf hn.sub⟩,
      ih (hr.append hf) (hn.append hr hf)⟩
  | @reuse scope known previous f array index port element result replacement rest rest' _ hc
      hresult _ ih =>
    apply ih (hr.update hc)
    constructor
    · intro x hx
      by_cases hxr : x = result
      · subst hxr
        rw [update_self]
        exact hn.mem _ hc
      · rw [update_of_ne hxr]
        exact hn.mem x ((mem_cons.mp hx).resolve_left hxr)
    · exact fun x hx => mem_cons_of_mem _ (hn.sub x hx)
  | erase _ _ ih => exact ih hr hn
  | ifOp hc _ _ hf _ iht ihe ih =>
    simp only [Dialect.dominated, and_eq_true, contains_iff_mem]
    exact ⟨⟨⟨⟨hn.mem _ hc, iht hr hn⟩, ihe hr hn⟩, fresh_mono hf hn.sub⟩,
      ih (hr.append hf) (hn.append hr hf)⟩
  | forOp ho ha _ hf _ ihb ih =>
    simp only [Dialect.dominated, and_eq_true, all_eq_true, contains_iff_mem]
    refine ⟨⟨⟨⟨?_, fresh_mono ha hn.sub⟩, ihb (hr.append ha) (hn.append hr ha)⟩,
      fresh_mono hf hn.sub⟩, ih (hr.append hf) (hn.append hr hf)⟩
    simp only [forall_mem_cons, forall_mem_map] at ho ⊢
    exact ⟨hn.mem _ ho.1, hn.mem _ ho.2.1, hn.mem _ ho.2.2.1,
      fun x hx => hn.mem x (ho.2.2.2 x hx)⟩
  | whileOp ho hfb _ hfa _ hf _ ihb iha ih =>
    simp only [Dialect.dominated, and_eq_true, all_map, all_eq_true, comp_apply, contains_iff_mem]
    exact ⟨⟨⟨⟨⟨⟨fun x hx => hn.mem x (ho x hx), fresh_mono hfb hn.sub⟩,
      ihb (hr.append hfb) (hn.append hr hfb)⟩, fresh_mono hfa hn.sub⟩,
      iha (hr.append hfa) (hn.append hr hfa)⟩, fresh_mono hf hn.sub⟩,
      ih (hr.append hf) (hn.append hr hf)⟩
  | instrumentation _ _ ihb ih =>
    simp only [Dialect.dominated, and_eq_true]
    exact ⟨ihb hr hn, ih hr hn⟩

end Static

end AgenticCircuit.Dialect
