import AgenticCircuit.Analysis.Flow

/-! # The Flow wiring of a hierarchy

The connections of a model are told from its elaborated hierarchy, through `ac.instance`, `ac.array` and
`ac.instances` alike: an export is connected to the imports that its value reaches through module ports.
No order of the operations of a body enters, so two models whose bodies hold the same operations in
another order have the same connections (`Reordered`). -/

namespace AgenticCircuit.Analysis

open List Option Value
open Relation (ReflTransGen)

theorem Module.typeOf_result {m : Module} {i k : ℕ} {type : PortType} :
    m.typeOf (.result i k) = some type ↔ ∃ op ∈ m.body, op.id = i ∧ op.results[k]? = some type := by
  simp only [Module.typeOf, bind_eq_some_iff]
  constructor
  · rintro ⟨op, hfind, hresult⟩
    have hid := find?_some hfind
    exact ⟨op, mem_of_find?_eq_some hfind, of_decide_eq_true hid, hresult⟩
  · rintro ⟨op, hop, rfl, hresult⟩
    cases hfind : m.body.find? fun op' => op'.id = op.id with
    | none => exact absurd (decide_eq_true rfl) (find?_eq_none.mp hfind op hop)
    | some op' =>
      have hid := find?_some hfind
      obtain rfl := m.eq_of_id (mem_of_find?_eq_some hfind) hop (of_decide_eq_true hid)
      exact ⟨op', rfl, hresult⟩

theorem Module.mem_instances {m : Module} {op : Operation} {d : String} :
    (op, d) ∈ m.instances ↔ op ∈ m.body ∧ op.kind = .instanceOf d := by
  simp only [Module.instances, mem_filterMap]
  constructor
  · rintro ⟨op', hop', h⟩
    split at h
    · cases h
      exact ⟨hop', ‹_›⟩
    · cases h
  · rintro ⟨hop, hkind⟩
    exact ⟨op, hop, by simp [hkind]⟩

theorem Module.instances_nodup (m : Module) : (m.instances.map fun p => p.1.id).Nodup := by
  have hsub : (m.instances.map fun p => p.1.id).Sublist (m.body.map Operation.id) := by
    unfold Module.instances
    induction m.body with
    | nil => exact .slnil
    | cons op ops ih =>
      rw [filterMap_cons]
      split
      · exact ih.cons _
      · rename_i p hp
        split at hp
        · cases hp
          exact ih.cons_cons _
        · cases hp
  exact hsub.nodup m.ids

namespace Model

variable (model : Model)

/-! ### Endpoints and connections -/

/-- The module at a path of `ac.instance` operations only. -/
inductive ThroughInstances (root : Module) : Path → Module → Prop
  | root : ThroughInstances root [] root
  | step {path : Path} {m c : Module} {op : Operation} {d : String} :
      ThroughInstances root path m → op ∈ m.body → op.kind = .instanceOf d →
      model.lookupModule d = some c → ThroughInstances root ((op.id, 0) :: path) c

/-- No `ac.array` and no `ac.instances` is on the path. -/
def Direct (root : Module) (path : Path) : Prop := ∃ m, model.ThroughInstances root path m

/-- An operation of the kind is executed at the place. -/
def IsEndpoint (root : Module) (kind : Kind) (e : Endpoint) : Prop :=
  ∃ m op, model.Elaborates root e.1 m ∧ op ∈ m.body ∧ op.kind = kind ∧ op.id = e.2

/-- The value of an export arrives. -/
def Reaches (root : Module) (e : Endpoint) (x : Path × Value) : Prop :=
  ReflTransGen (model.Wire root fun _ => True) (e.1, .result e.2 0) x

/-- The value of an export arrives at the operand of an import. -/
def Connected (root : Module) (e i : Endpoint) : Prop :=
  ∃ m op v, model.Elaborates root i.1 m ∧ op ∈ m.body ∧ op.id = i.2 ∧ op.operands.head? = some v ∧
    model.Reaches root e (i.1, v)

/-- On a part of the hierarchy, every export is connected to one import and every import to one export. -/
def OneToOneOn (root : Module) (part : Path → Prop) : Prop :=
  (∀ e, model.IsEndpoint root .flowExport e → part e.1 →
    ∃! i, (model.IsEndpoint root .flowImport i ∧ part i.1) ∧ model.Connected root e i) ∧
  (∀ i, model.IsEndpoint root .flowImport i → part i.1 →
    ∃! e, (model.IsEndpoint root .flowExport e ∧ part e.1) ∧ model.Connected root e i)

/-- No Flow enters or leaves the root. -/
def RootClosed (root : Module) : Prop := .flow ∉ root.inputs ∧ .flow ∉ root.outputs

variable {model} {root m : Module} {path : Path}

theorem ThroughInstances.elaborates (h : model.ThroughInstances root path m) :
    model.Elaborates root path m := by
  induction h with
  | root => exact .root
  | step _ hop hkind hc ih => exact .element ih hop (by simp [hkind, Kind.elements]) hc

theorem ThroughInstances.direct (h : model.ThroughInstances root path m) : model.Direct root path :=
  ⟨m, h⟩

theorem Direct.throughInstances (h : model.Direct root path) (hm : model.Elaborates root path m) :
    model.ThroughInstances root path m := by
  obtain ⟨m', hm'⟩ := h
  cases hm'.elaborates.unique hm
  exact hm'

/-- A longer path through instances continues with an instance of the module at the shorter one. -/
theorem ThroughInstances.split {q : Path} {n : Module} (hq : model.ThroughInstances root q n)
    (hpath : model.ThroughInstances root path m) (hsuffix : path <:+ q) :
    q = path ∨ ∃ op d c, (op, d) ∈ m.instances ∧ model.lookupModule d = some c ∧
      model.ThroughInstances root ((op.id, 0) :: path) c ∧ (op.id, 0) :: path <:+ q := by
  induction hq with
  | root => exact .inl (suffix_nil.mp hsuffix).symm
  | @step q n c op d hq hop hkind hc ih =>
    obtain rfl | hsuffix := suffix_cons_iff.mp hsuffix
    · exact .inl rfl
    · obtain rfl | ⟨op', d', c', hop', hc', hpath', hsuffix'⟩ := ih hsuffix
      · cases hpath.elaborates.unique hq.elaborates
        exact .inr ⟨op, d, c, Module.mem_instances.mpr ⟨hop, hkind⟩, hc,
          .step hq hop hkind hc, suffix_rfl⟩
      · exact .inr ⟨op', d', c', hop', hc', hpath', hsuffix'.trans (suffix_cons _ _)⟩

/-! ### Every value has one source -/

section unique

theorem Wire.not_export (he : model.IsEndpoint root .flowExport e)
    (h : model.Wire root through x (e.1, .result e.2 0)) : False := by
  obtain ⟨m, op, hm, hop, hkind, hid⟩ := he
  generalize hy : (e.1, result e.2 0) = y at h
  cases h with
  | enter => cases (Prod.mk.inj hy).2
  | @leave path' m' c' op' e' k' d' v' hm' hop' hd' hc' _ hv' _ =>
    obtain ⟨rfl, hvalue⟩ := Prod.mk.inj hy
    cases hm.unique hm'
    obtain rfl := m.eq_of_id hop hop' (hid.trans (result.inj hvalue).1)
    simp [hkind, Kind.elements] at hd'

variable (hverified : model.Verified) (hroot : root ∈ model.modules)

variable {op : Operation} {d : String} {c : Module} {through : Operation → Prop} {x : Path × Value}
    {e : Endpoint}

include hverified in
theorem Verified.element (hm : m ∈ model.modules) (hop : op ∈ m.body) (hd : d ∈ op.kind.definitions)
    (hc : model.lookupModule d = some c) :
    op.operands.map m.typeOf = (List.replicate op.kind.elements.length c.inputs).flatten.map some ∧
      op.results = (List.replicate op.kind.elements.length c.outputs).flatten := by
  have hop := (hverified m hm).2 op hop
  have hlookup : model.lookupDefinition d = some (.module c) := by
    obtain ⟨hmem, rfl⟩ := lookupModule_eq_some.mp hc
    exact lookupDefinition_module hmem
  unfold verifyOperation at hop
  split at hop
  case h_1 hkind => simp [hkind, Kind.definitions] at hd
  case h_2 hkind => simp [hkind, Kind.definitions] at hd
  case h_3 =>
    have hd := all_eq_true.mp hop d hd
    rw [hlookup] at hd
    obtain ⟨hoperands, hresults⟩ := Bool.and_eq_true_iff.mp hd
    exact ⟨of_decide_eq_true hoperands, of_decide_eq_true hresults⟩

theorem length_returns (hverified : model.Verified) (hc : c ∈ model.modules) :
    c.returns.length = c.outputs.length := by
  simpa using congrArg List.length (hverified c hc).1

/-- The elements of an operation have as many outputs each. -/
theorem Verified.length_outputs {e : ℕ} {d' : String} {c' : Module} (hverified : model.Verified)
    (hm : m ∈ model.modules) (hop : op ∈ m.body) (hd : op.kind.elements[e]? = some d)
    (hd' : d' ∈ op.kind.elements) (hc : model.lookupModule d = some c)
    (hc' : model.lookupModule d' = some c') : c.outputs.length = c'.outputs.length := by
  have h := (hverified.element hm hop (Kind.mem_definitions_of_elements (mem_of_getElem? hd)) hc).2
  have h' := (hverified.element hm hop (Kind.mem_definitions_of_elements hd') hc').2
  have hlt := (List.getElem?_eq_some_iff.mp hd).1
  have hlength := congrArg List.length (h.symm.trans h')
  simp only [length_flatten, map_replicate, sum_replicate_nat] at hlength
  exact Nat.eq_of_mul_eq_mul_left (by omega) hlength

include hverified hroot

theorem Wire.unique {x' y : Path × Value} (h : model.Wire root through x y)
    (h' : model.Wire root through x' y) : x = x' := by
  cases h with
  | @enter path m c op e k d v hm hop hd hc _ _ hv =>
    generalize hy : ((op.id, e) :: path, argument k) = y at h'
    cases h' with
    | @enter path' m' c' op' e' k' d' v' hm' hop' hd' hc' _ _ hv' =>
      obtain ⟨hpath, hk⟩ := Prod.mk.inj hy
      obtain ⟨hstep, rfl⟩ := List.cons.inj hpath
      obtain ⟨hid, rfl⟩ := Prod.mk.inj hstep
      cases argument.inj hk
      cases hm.unique hm'
      obtain rfl := m.eq_of_id hop hop' hid
      cases some.inj (hd.symm.trans hd')
      cases some.inj (hc.symm.trans hc')
      cases some.inj (hv.symm.trans hv')
      rfl
    | leave => cases (Prod.mk.inj hy).2
  | @leave path m c op e k d v hm hop hd hc _ hv hlt =>
    generalize hy : (path, result op.id (e * c.outputs.length + k)) = y at h'
    cases h' with
    | enter => cases (Prod.mk.inj hy).2
    | @leave path' m' c' op' e' k' d' v' hm' hop' hd' hc' _ hv' hlt' =>
      obtain ⟨rfl, hvalue⟩ := Prod.mk.inj hy
      obtain ⟨hid, hindex⟩ := result.inj hvalue
      cases hm.unique hm'
      obtain rfl := m.eq_of_id hop hop' hid
      have hmodule := hm.mem_modules hroot
      have hlength := hverified.length_outputs hmodule hop hd (mem_of_getElem? hd') hc hc'
      have hk := (List.getElem?_eq_some_iff.mp hv).1
      have hk' := (List.getElem?_eq_some_iff.mp hv').1
      rw [length_returns hverified (lookupModule_eq_some.mp hc).1] at hk
      rw [length_returns hverified (lookupModule_eq_some.mp hc').1, ← hlength] at hk'
      rw [← hlength] at hindex
      have he : e = e' := by
        have h₁ := congrArg (· / c.outputs.length) hindex
        simpa [Nat.mul_comm _ c.outputs.length, Nat.mul_add_div (show 0 < c.outputs.length by omega),
          Nat.div_eq_of_lt hk, Nat.div_eq_of_lt hk'] using h₁
      subst he
      cases some.inj (hd.symm.trans hd')
      cases some.inj (hc.symm.trans hc')
      have hkk : k = k' := by omega
      subst hkk
      cases some.inj (hv.symm.trans hv')
      rfl

/-- **A value has one source.** -/
theorem Reaches.unique {e' : Endpoint} (he : model.IsEndpoint root .flowExport e)
    (he' : model.IsEndpoint root .flowExport e') (h : model.Reaches root e x)
    (h' : model.Reaches root e' x) : e = e' := by
  have hback : Relator.RightUnique (Function.swap (model.Wire root fun _ => True)) :=
    fun y a b ha hb => Wire.unique hverified hroot ha hb
  have hstart : ∀ {a b : Endpoint}, model.IsEndpoint root .flowExport b →
      ReflTransGen (model.Wire root fun _ => True) (a.1, .result a.2 0) (b.1, .result b.2 0) →
        a = b := by
    intro a b hb hab
    obtain heq | ⟨z, -, hz⟩ := ReflTransGen.cases_tail hab
    · obtain ⟨hpath, hvalue⟩ := Prod.mk.inj heq
      exact (Prod.ext hpath (result.inj hvalue).1).symm
    · exact (Wire.not_export hb hz).elim
  obtain hee | hee := ReflTransGen.total_of_right_unique hback h.swap h'.swap
  · exact (hstart he hee.swap).symm
  · exact hstart he' hee.swap

end unique

/-! ### What an analysis can resolve -/

/-- A Flow value gets a net: it is an argument, an export, or a result of an instance all of whose Flow
operands get one. -/
inductive Resolvable (model : Model) (m : Module) : Value → Prop
  | argument {k : ℕ} : m.inputs[k]? = some .flow → Resolvable model m (.argument k)
  | exported {op : Operation} : op ∈ m.body → op.kind = .flowExport →
      Resolvable model m (.result op.id 0)
  | instanced {op : Operation} {d : String} {c : Module} {k : ℕ} : (op, d) ∈ m.instances →
      model.lookupModule d = some c →
      (∀ v ∈ op.operands, m.isFlow v = true → Resolvable model m v) →
      op.results[k]? = some .flow → Resolvable model m (.result op.id k)

/-- The body of a module can be wired, given that its instances can. -/
structure BodyWired (model : Model) (m : Module) : Prop where
  operands : ∀ p ∈ m.instances, ∀ v ∈ p.1.operands, m.isFlow v = true → model.Resolvable m v
  external : ∀ p ∈ m.instances, model.lookupModule p.2 = none → m.carriesFlow p.1 = false
  imports : ∀ op ∈ m.body, op.kind = .flowImport → ∀ v, op.operands.head? = some v →
    model.Resolvable m v
  returns : ∀ v ∈ m.returns, m.isFlow v = true → model.Resolvable m v

/-- Every body within a depth can be wired. -/
def Wired (model : Model) : ℕ → Module → Prop
  | 0, _ => False
  | depth + 1, m => model.BodyWired m ∧
      ∀ p ∈ m.instances, ∀ c, model.lookupModule p.2 = some c → Wired model depth c

/-- The module instances within a depth. -/
def instanceCount (model : Model) : ℕ → Module → ℕ
  | 0, _ => 0
  | depth + 1, m => 1 + (m.instances.map fun p =>
    match model.lookupModule p.2 with
    | some c => instanceCount model depth c
    | none => 0).sum

end Model

/-! ### The order of a body -/

/-- Two modules with the same operations, in any order. -/
structure SameBody (m m' : Module) : Prop where
  name : m'.name = m.name
  inputs : m'.inputs = m.inputs
  outputs : m'.outputs = m.outputs
  returns : m'.returns = m.returns
  body : m'.body.Perm m.body

inductive SameDefinition : Definition → Definition → Prop
  | module {m m' : Module} : SameBody m m' → SameDefinition (.module m) (.module m')
  | declaration {name : String} {inputs outputs : List PortType} :
      SameDefinition (.declaration name inputs outputs) (.declaration name inputs outputs)

/-- Two models that differ in the order of the operations of their bodies. -/
structure Reordered (model model' : Model) : Prop where
  systems : model'.systems = model.systems
  definitions : List.Forall₂ SameDefinition model.definitions model'.definitions

section order

variable {m m' : Module} {model model' : Model} {d d' : Definition}

theorem SameBody.symm (h : SameBody m m') : SameBody m' m :=
  ⟨h.name.symm, h.inputs.symm, h.outputs.symm, h.returns.symm, h.body.symm⟩

theorem SameDefinition.symm (h : SameDefinition d d') : SameDefinition d' d := by
  cases h with
  | module h => exact .module h.symm
  | declaration => exact .declaration

theorem SameDefinition.name (h : SameDefinition d d') : d'.name = d.name := by
  cases h with
  | module h => exact h.name
  | declaration => rfl

theorem Reordered.symm (h : Reordered model model') : Reordered model' model :=
  ⟨h.systems.symm, h.definitions.flip.imp fun _ _ => SameDefinition.symm⟩

theorem SameBody.typeOf (h : SameBody m m') (v : Value) : m'.typeOf v = m.typeOf v := by
  cases v with
  | argument k => simp only [Module.typeOf, h.inputs]
  | result i k =>
    refine ext fun type => ?_
    simp only [Module.typeOf_result, h.body.mem_iff]

theorem SameBody.isFlow (h : SameBody m m') (v : Value) : m'.isFlow v = m.isFlow v := by
  simp only [Module.isFlow, h.typeOf]

theorem SameBody.instances (h : SameBody m m') : m'.instances.Perm m.instances :=
  h.body.filterMap _

section

variable (h : Reordered model model') {d : String}

include h

theorem Reordered.lookupModule {m : Module} (hm : model.lookupModule d = some m) :
    ∃ m', model'.lookupModule d = some m' ∧ SameBody m m' := by
  obtain ⟨hmem, rfl⟩ := Model.lookupModule_eq_some.mp hm
  rw [Model.mem_modules] at hmem
  obtain ⟨i, hi, hget⟩ := getElem_of_mem hmem
  have hi' : i < model'.definitions.length := h.definitions.length_eq ▸ hi
  have hsame := (forall₂_iff_get.mp h.definitions).2 i hi hi'
  simp only [get_eq_getElem, hget] at hsame
  generalize hd' : model'.definitions[i] = d' at hsame
  cases hsame with
  | @module _ m' hbody =>
    refine ⟨m', Model.lookupModule_eq_some.mpr ⟨Model.mem_modules.mpr ?_, hbody.name⟩, hbody⟩
    rw [← hd']
    exact getElem_mem hi'

theorem Reordered.lookupModule_none (hd : model.lookupModule d = none) :
    model'.lookupModule d = none := by
  cases hd' : model'.lookupModule d with
  | none => rfl
  | some m' =>
    obtain ⟨m, hm, -⟩ := h.symm.lookupModule hd'
    rw [hd] at hm
    cases hm

theorem Reordered.lookupDefinition (d : String) :
    Rel SameDefinition (model.lookupDefinition d) (model'.lookupDefinition d) := by
  unfold Model.lookupDefinition
  have hdefinitions := h.definitions
  generalize model.definitions = ds at hdefinitions
  generalize model'.definitions = ds' at hdefinitions
  induction hdefinitions with
  | nil => exact .none
  | @cons x x' ds ds' hx _ ih =>
    rw [find?_cons, find?_cons, hx.name]
    split
    · exact .some hx
    · exact ih

theorem Reordered.verifyOperation (hsame : SameBody m m') (op : Operation) :
    model'.verifyOperation m' op = model.verifyOperation m op := by
  unfold Model.verifyOperation
  rw [funext hsame.typeOf]
  split
  · rfl
  · rfl
  · congr 1
    funext d
    generalize hl : model.lookupDefinition d = l
    generalize hl' : model'.lookupDefinition d = l'
    have hrel := h.lookupDefinition d
    rw [hl, hl'] at hrel
    cases hrel with
    | none => rfl
    | some hdd =>
      cases hdd with
      | module hcc =>
        simp only [Definition.inputs, Definition.outputs, hcc.inputs, hcc.outputs]
        exact congrArg₂ _ (decide_eq_decide.mpr Iff.rfl) (decide_eq_decide.mpr Iff.rfl)
      | declaration => rfl

theorem Reordered.verified (hverified : model.Verified) : model'.Verified := by
  intro m' hm'
  obtain ⟨m, hm, hsame⟩ := h.symm.lookupModule (Model.lookupModule_eq_some.mpr ⟨hm', rfl⟩)
  obtain ⟨hreturns, hbody⟩ := hverified m (Model.lookupModule_eq_some.mp hm).1
  refine ⟨?_, fun op hop => ?_⟩
  · rw [funext hsame.symm.typeOf, hsame.symm.returns, hsame.symm.outputs]
    exact hreturns
  · rw [h.verifyOperation hsame.symm]
    exact hbody op (hsame.body.mem_iff.mpr hop)

theorem Reordered.selectedRoot {root : Module} (hroot : model.selectedRoot = some root) :
    ∃ root', model'.selectedRoot = some root' ∧ SameBody root root' := by
  simp only [Model.selectedRoot, Model.selected, bind, bind_eq_some_iff, h.systems] at hroot ⊢
  obtain ⟨system, hsystem, hroot⟩ := hroot
  obtain ⟨root', hroot', hsame⟩ := h.lookupModule hroot
  exact ⟨root', ⟨system, hsystem, hroot'⟩, hsame⟩

end

namespace Model

variable {root root' : Module} {path : Path} (h : Reordered model model')
include h

section

variable (hroot : SameBody root root')

include hroot

theorem Elaborates.reordered (hm : model.Elaborates root path m) :
    ∃ m', model'.Elaborates root' path m' ∧ SameBody m m' := by
  induction hm with
  | root => exact ⟨root', .root, hroot⟩
  | element _ hop hd hc ih =>
    obtain ⟨m', hm', hsame⟩ := ih
    obtain ⟨c', hc', hsame'⟩ := h.lookupModule hc
    exact ⟨c', .element hm' (hsame.body.mem_iff.mpr hop) hd hc', hsame'⟩

theorem ThroughInstances.reordered (hm : model.ThroughInstances root path m) :
    ∃ m', model'.ThroughInstances root' path m' ∧ SameBody m m' := by
  induction hm with
  | root => exact ⟨root', .root, hroot⟩
  | step _ hop hkind hc ih =>
    obtain ⟨m', hm', hsame⟩ := ih
    obtain ⟨c', hc', hsame'⟩ := h.lookupModule hc
    exact ⟨c', .step hm' (hsame.body.mem_iff.mpr hop) hkind hc', hsame'⟩

theorem Wire.reordered {through : Operation → Prop} {x y : Path × Value}
    (hxy : model.Wire root through x y) : model'.Wire root' through x y := by
  cases hxy with
  | enter hm hop hd hc hthrough hk hv =>
    obtain ⟨m', hm', hsame⟩ := hm.reordered h hroot
    obtain ⟨c', hc', hsame'⟩ := h.lookupModule hc
    rw [← hsame'.inputs] at hk hv
    exact .enter hm' (hsame.body.mem_iff.mpr hop) hd hc' hthrough hk hv
  | leave hm hop hd hc hthrough hv hlt =>
    obtain ⟨m', hm', hsame⟩ := hm.reordered h hroot
    obtain ⟨c', hc', hsame'⟩ := h.lookupModule hc
    rw [← hsame'.returns] at hv
    rw [← hsame'.outputs] at hlt ⊢
    exact .leave hm' (hsame.body.mem_iff.mpr hop) hd hc' hthrough hv hlt

theorem Direct.reordered (hpath : model.Direct root path) : model'.Direct root' path := by
  obtain ⟨m, hm⟩ := hpath
  obtain ⟨m', hm', -⟩ := hm.reordered h hroot
  exact ⟨m', hm'⟩

theorem IsEndpoint.reordered {kind : Kind} {e : Endpoint} (he : model.IsEndpoint root kind e) :
    model'.IsEndpoint root' kind e := by
  obtain ⟨m, op, hm, hop, hkind, hid⟩ := he
  obtain ⟨m', hm', hsame⟩ := hm.reordered h hroot
  exact ⟨m', op, hm', hsame.body.mem_iff.mpr hop, hkind, hid⟩

theorem Connected.reordered {e i : Endpoint} (hei : model.Connected root e i) :
    model'.Connected root' e i := by
  obtain ⟨m, op, v, hm, hop, hid, hv, hreaches⟩ := hei
  obtain ⟨m', hm', hsame⟩ := hm.reordered h hroot
  refine ⟨m', op, v, hm', hsame.body.mem_iff.mpr hop, hid, hv, ?_⟩
  exact ReflTransGen.mono (fun x y hxy => Wire.reordered h hroot hxy) _ _ hreaches

end

theorem Resolvable.reordered (hsame : SameBody m m') {v : Value} (hv : model.Resolvable m v) :
    model'.Resolvable m' v := by
  induction hv with
  | argument hk => exact .argument (by rw [hsame.inputs]; exact hk)
  | exported hop hkind => exact .exported (hsame.body.mem_iff.mpr hop) hkind
  | instanced hp hc _ hk ih =>
    obtain ⟨c', hc', -⟩ := h.lookupModule hc
    refine .instanced (hsame.instances.mem_iff.mpr hp) hc' (fun w hw hflow => ih w hw ?_) hk
    rwa [hsame.isFlow] at hflow

theorem BodyWired.reordered (hsame : SameBody m m') (hm : model.BodyWired m) :
    model'.BodyWired m' where
  operands p hp v hv hflow := (hm.operands p (hsame.instances.mem_iff.mp hp) v hv
    (by rwa [← hsame.isFlow])).reordered h hsame
  external p hp hnone := by
    have := hm.external p (hsame.instances.mem_iff.mp hp) (h.symm.lookupModule_none hnone)
    simpa only [Module.carriesFlow, funext hsame.isFlow] using this
  imports op hop hkind v hv :=
    (hm.imports op (hsame.body.mem_iff.mp hop) hkind v hv).reordered h hsame
  returns v hv hflow := (hm.returns v (hsame.returns ▸ hv)
    (by rwa [← hsame.isFlow])).reordered h hsame

theorem Wired.reordered {depth : ℕ} (hsame : SameBody m m') (hm : model.Wired depth m) :
    model'.Wired depth m' := by
  induction depth generalizing m m' with
  | zero => exact hm.elim
  | succ depth ih =>
    refine ⟨hm.1.reordered h hsame, fun p hp c' hc' => ?_⟩
    obtain ⟨c, hc, hcc⟩ := h.symm.lookupModule hc'
    exact ih hcc.symm (hm.2 p (hsame.instances.mem_iff.mp hp) c hc)

theorem instanceCount_reordered {depth : ℕ} (hsame : SameBody m m') :
    model'.instanceCount depth m' = model.instanceCount depth m := by
  induction depth generalizing m m' with
  | zero => rfl
  | succ depth ih =>
    simp only [instanceCount]
    congr 1
    rw [(hsame.instances.map _).sum_eq]
    congr 1
    refine map_congr_left fun p _ => ?_
    cases hp : model.lookupModule p.2 with
    | none => rw [h.lookupModule_none hp]
    | some c =>
      obtain ⟨c', hc', hcc⟩ := h.lookupModule hp
      rw [hc']
      exact ih hcc

end Model

end order

end AgenticCircuit.Analysis
