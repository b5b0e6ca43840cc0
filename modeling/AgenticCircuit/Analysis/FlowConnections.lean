import AgenticCircuit.Analysis.Wiring

/-! # The nets are the connections

An analysis that succeeds has one net for each export it visited and each visited import is a sink of the
net whose export reaches it (`Joins`).  It succeeds exactly when every body can be wired, the number of
instances keeps the limit and each visited export reaches one visited import (`verifyRoot_ok_iff`); no
order enters.  The endpoints below `ac.array` and `ac.instances` are not visited, and the connections of
the whole hierarchy are one-to-one exactly when theirs are. -/

namespace AgenticCircuit.Analysis

open List Function Net

/-! ### Lists of endpoints -/

/-- The list holds the elements of a set, each once. -/
def Enumerates {α : Type*} (l : List α) (S : α → Prop) : Prop := l.Nodup ∧ ∀ x, x ∈ l ↔ S x

theorem Enumerates.append {α : Type*} {l l' : List α} {S S' : α → Prop} (h : Enumerates l S)
    (h' : Enumerates l' S') (hdisjoint : ∀ x, S x → ¬ S' x) :
    Enumerates (l ++ l') fun x => S x ∨ S' x := by
  refine ⟨nodup_append.mpr ⟨h.1, h'.1, fun a ha b hb hab => ?_⟩, fun x => ?_⟩
  · exact hdisjoint a ((h.2 a).mp ha) ((h'.2 a).mp (hab ▸ hb))
  · rw [mem_append, h.2, h'.2]

/-! ### How the nets grow -/

namespace FlowState

/-- The export of a net. -/
def sourceAt (s : FlowState) (net : ℕ) : Option Endpoint := s.nets[net]?.bind Net.source

/-- Every sink with the export of its net. -/
def links (s : FlowState) : List (Option Endpoint × Endpoint) :=
  s.nets.flatMap fun net => net.sinks.map fun sink => (net.source, sink)

end FlowState

/-- The new nets and sinks of a part of the analysis. -/
structure Grows (exports : List Endpoint) (links : List (Endpoint × Endpoint)) (s s' : FlowState) :
    Prop where
  sources : s'.nets.map Net.source = s.nets.map Net.source ++ exports.map some
  links : s'.links.Perm (s.links ++ links.map fun l => (some l.1, l.2))

section grows

variable {exports exports' : List Endpoint} {links links' : List (Endpoint × Endpoint)}
  {s s₁ s' : FlowState} {e : Endpoint}

theorem Grows.rfl : Grows [] [] s s := ⟨by simp, by simp⟩

theorem Grows.trans (h : Grows exports links s s₁) (h' : Grows exports' links' s₁ s') :
    Grows (exports ++ exports') (links ++ links') s s' where
  sources := by rw [h'.sources, h.sources, map_append, List.append_assoc]
  links := by
    refine h'.links.trans ?_
    rw [map_append, ← List.append_assoc]
    exact h.links.append_right _

theorem Grows.sourceAt (h : Grows exports links s s') {n : ℕ}
    (hn : s.sourceAt n = some e) : s'.sourceAt n = some e := by
  have hget : ∀ t : FlowState, t.sourceAt n = ((t.nets.map source)[n]?).join := by
    intro t
    rw [FlowState.sourceAt, getElem?_map]
    cases t.nets[n]? <;> rfl
  rw [hget] at hn ⊢
  rw [h.sources]
  have hlt : n < (s.nets.map source).length := by
    by_contra hge
    rw [getElem?_eq_none (Nat.le_of_not_lt hge)] at hn
    cases hn
  rw [getElem?_append_left hlt]
  exact hn

theorem Grows.newNet (e : Endpoint) : Grows [e] [] s (s.newNet (some e)) :=
  ⟨by simp [FlowState.newNet], by simp [FlowState.newNet, FlowState.links]⟩

theorem FlowState.sourceAt_newNet (e : Endpoint) :
    (s.newNet (some e)).sourceAt s.nets.length = some e := by
  simp [FlowState.sourceAt, FlowState.newNet]

theorem Grows.addSink {n : ℕ} (hn : s.sourceAt n = some e) (i : Endpoint) :
    Grows [] [(e, i)] s (s.addSink n i) := by
  obtain ⟨net, hnet, hsource⟩ := Option.bind_eq_some_iff.mp hn
  have hgrow : ∀ (nets : List Net) (n : ℕ), nets[n]? = some net →
      ((nets.modify n fun x => { x with sinks := x.sinks ++ [i] }).map source =
        nets.map source) ∧
      ((nets.modify n fun x => { x with sinks := x.sinks ++ [i] }).flatMap
        fun x => x.sinks.map fun sink => (x.source, sink)).Perm
        ((nets.flatMap fun x => x.sinks.map fun sink => (x.source, sink)) ++ [(some e, i)]) := by
    intro nets
    induction nets with
    | nil => intro n hn; cases hn
    | cons x nets ih =>
      intro n hn
      cases n with
      | zero =>
        obtain rfl : x = net := by simpa using hn
        refine ⟨by simp, ?_⟩
        simp only [modify_zero_cons, flatMap_cons, map_append, hsource, List.append_assoc]
        exact perm_append_comm.append_left _
      | succ n =>
        obtain ⟨hsources, hlinks⟩ := ih n (by simpa using hn)
        refine ⟨by simp [hsources], ?_⟩
        simp only [flatMap_cons, List.append_assoc]
        exact hlinks.append_left _
  obtain ⟨hsources, hlinks⟩ := hgrow s.nets n hnet
  exact ⟨by simpa [FlowState.addSink] using hsources, hlinks⟩

end grows

namespace Model

variable {model : Model} {root m : Module} {path : Path} {s s₁ s' : FlowState} {values : Values}
variable {c : Module} {e : Endpoint} {ops : List Operation}

/-! ### Parts of the analysis -/

/-- The exports and imports of a part of the hierarchy are joined. -/
def Joins (model : Model) (root : Module) (exports imports : Endpoint → Prop)
    (s s' : FlowState) : Prop :=
  ∃ es links, Grows es links s s' ∧ Enumerates es exports ∧
    Enumerates (links.map Prod.snd) imports ∧ ∀ l ∈ links, model.Connected root l.1 l.2

section joins

variable {E I E' I' : Endpoint → Prop}

theorem Joins.trans (h : model.Joins root E I s s₁) (h' : model.Joins root E' I' s₁ s')
    (hE : ∀ e, E e → ¬ E' e) (hI : ∀ i, I i → ¬ I' i) :
    model.Joins root (fun e => E e ∨ E' e) (fun i => I i ∨ I' i) s s' := by
  obtain ⟨es, links, hgrows, hes, hlinks, hconnected⟩ := h
  obtain ⟨es', links', hgrows', hes', hlinks', hconnected'⟩ := h'
  refine ⟨es ++ es', links ++ links', hgrows.trans hgrows', hes.append hes' hE, ?_, ?_⟩
  · rw [map_append]
    exact hlinks.append hlinks' hI
  · intro l hl
    obtain hl | hl := mem_append.mp hl
    · exact hconnected l hl
    · exact hconnected' l hl

theorem Joins.congr (h : model.Joins root E I s s') (hE : ∀ e, E e ↔ E' e)
    (hI : ∀ i, I i ↔ I' i) : model.Joins root E' I' s s' := by
  obtain ⟨es, links, hgrows, hes, hlinks, hconnected⟩ := h
  exact ⟨es, links, hgrows, ⟨hes.1, fun e => (hes.2 e).trans (hE e)⟩,
    ⟨hlinks.1, fun i => (hlinks.2 i).trans (hI i)⟩, hconnected⟩

theorem Joins.nothing (hE : ∀ e, ¬ E e) (hI : ∀ i, ¬ I i) : model.Joins root E I s s :=
  ⟨[], [], .rfl, ⟨.nil, fun e => by simp [hE]⟩, ⟨.nil, fun i => by simp [hI]⟩, by simp⟩

/-- Only the nets count. -/
theorem Joins.uncounted {n : ℕ} (h : model.Joins root E I { s with visitedInstances := n } s') :
    model.Joins root E I s s' := by
  obtain ⟨es, links, hgrows, h⟩ := h
  exact ⟨es, links, ⟨hgrows.sources, hgrows.links⟩, h⟩

theorem Joins.sourceAt (h : model.Joins root E I s s') {n : ℕ}
    (hn : s.sourceAt n = some e) : s'.sourceAt n = some e := by
  obtain ⟨es, links, hgrows, -⟩ := h
  exact hgrows.sourceAt hn

end joins

/-- The net of a value has the export that reaches it. -/
def Carries (model : Model) (root : Module) (path : Path) (s : FlowState) (v : Value)
    (net : MaybeNet) : Prop :=
  ∃ n e, net = some n ∧ s.sourceAt n = some e ∧ model.Reaches root e (path, v)

variable {E I : Endpoint → Prop} {v : Value} {kind : Kind} {op : Operation}

theorem Carries.later {net : MaybeNet} (h : model.Carries root path s v net)
    (hs : model.Joins root E I s s') : model.Carries root path s' v net := by
  obtain ⟨n, e, hn, he, hreaches⟩ := h
  exact ⟨n, e, hn, hs.sourceAt he, hreaches⟩

/-- What is known of the values of a body. -/
structure Known (model : Model) (root m : Module) (path : Path) (values : Values)
    (s : FlowState) : Prop where
  carries : ∀ v, (values v).isSome = true → model.Carries root path s v (values v)
  resolvable : ∀ v, (values v).isSome = true → model.Resolvable m v

theorem Known.later (h : model.Known root m path values s) (hs : model.Joins root E I s s') :
    model.Known root m path values s' :=
  { h with carries := fun v hv => (h.carries v hv).later hs }

theorem Known.update {n : ℕ} (h : model.Known root m path values s)
    (hcarries : model.Carries root path s v (some n)) (hresolvable : model.Resolvable m v) :
    model.Known root m path (update values v (some n)) s := by
  refine ⟨fun w hw => ?_, fun w hw => ?_⟩ <;> by_cases hwv : w = v
  · subst hwv
    simpa using hcarries
  · rw [update_of_ne hwv] at hw ⊢
    exact h.carries w hw
  · subst hwv
    exact hresolvable
  · rw [update_of_ne hwv] at hw
    exact h.resolvable w hw

/-- The operations of one kind in a part of the body at a path. -/
def Here (kind : Kind) (path : Path) (ops : List Operation) (e : Endpoint) : Prop :=
  e.1 = path ∧ ∃ op ∈ ops, op.kind = kind ∧ op.id = e.2

theorem here_cons : Here kind path (op :: ops) e ↔
      (op.kind = kind ∧ e = (path, op.id)) ∨ Here kind path ops e := by
  simp only [Here, mem_cons, exists_eq_or_imp, and_or_left]
  refine or_congr ⟨?_, ?_⟩ Iff.rfl
  · rintro ⟨hpath, hkind, hid⟩
    exact ⟨hkind, Prod.ext hpath hid.symm⟩
  · rintro ⟨hkind, rfl⟩
    exact ⟨rfl, hkind, rfl⟩

theorem not_here (hnodup : ((op :: ops).map Operation.id).Nodup) :
    ¬ Here kind path ops (path, op.id) := by
  rintro ⟨-, op', hop', -, hid⟩
  exact (nodup_cons.mp hnodup).1 (mem_map.mpr ⟨op', hop', hid⟩)

variable {inputs : List MaybeNet} {vs : List Value} {outputs : List MaybeNet} {kind : Kind}

section body

variable (hm : model.ThroughInstances root path m)

/-! ### Arguments and exports -/

/-- The Flow inputs of a module instance have a net. -/
def Fed (model : Model) (root m : Module) (path : Path) (inputs : List MaybeNet)
    (s : FlowState) : Prop :=
  ∀ k, m.inputs[k]? = some .flow → model.Carries root path s (.argument k) inputs[k]?.join

theorem bindArguments_known (hfed : model.Fed root m path inputs s)
    {index : ℕ} {types : List PortType} (htypes : m.inputs.drop index = types)
    (hvalues : model.Known root m path values s)
    (hbefore : ∀ k < index, m.inputs[k]? = some .flow → (values (.argument k)).isSome = true) :
    (bindArguments inputs index types values s).2 = s ∧
      model.Known root m path (bindArguments inputs index types values s).1 s ∧
      ∀ k, m.inputs[k]? = some .flow →
        ((bindArguments inputs index types values s).1 (.argument k)).isSome = true := by
  induction types generalizing index values with
  | nil =>
    refine ⟨rfl, hvalues, fun k hk => hbefore k ?_ hk⟩
    have := (List.getElem?_eq_some_iff.mp hk).1
    have := drop_eq_nil_iff.mp htypes
    omega
  | cons type types ih =>
    have htype : m.inputs[index]? = some type := by
      rw [← Nat.add_zero index, ← getElem?_drop, htypes]
      rfl
    have hrest : m.inputs.drop (index + 1) = types := by
      rw [← drop_drop, htypes]
      rfl
    cases type with
    | other =>
      refine ih hrest hvalues fun k hk hflow => ?_
      obtain hk | rfl := Nat.lt_succ_iff_lt_or_eq.mp hk
      · exact hbefore k hk hflow
      · rw [htype] at hflow
        cases hflow
    | flow =>
      obtain ⟨n, e, hn, he, hreaches⟩ := hfed index htype
      simp only [bindArguments, hn]
      refine ih hrest (hvalues.update ⟨n, e, rfl, he, hreaches⟩ (.argument htype)) ?_
      intro k hk hflow
      by_cases hki : k = index
      · simp [hki]
      · rw [update_of_ne (by simpa using hki)]
        exact hbefore k (by omega) hflow

theorem bindExports_known (hops : ∀ op ∈ ops, op ∈ m.body)
    (hnodup : (ops.map Operation.id).Nodup) (hvalues : model.Known root m path values s) :
    model.Joins root (Here .flowExport path ops) (fun _ => False) s
        (bindExports path ops values s).2 ∧
      model.Known root m path (bindExports path ops values s).1 (bindExports path ops values s).2 ∧
      (∀ v, (values v).isSome = true → ((bindExports path ops values s).1 v).isSome = true) ∧
      ∀ op ∈ ops, op.kind = .flowExport →
        ((bindExports path ops values s).1 (.result op.id 0)).isSome = true := by
  induction ops generalizing values s with
  | nil =>
    refine ⟨.nothing ?_ (by simp), hvalues, fun v hv => hv, by simp⟩
    rintro e ⟨-, op, hop, -⟩
    cases hop
  | cons op ops ih =>
    have hops' := fun op' h => hops op' (mem_cons_of_mem op h)
    have hnodup' := (nodup_cons.mp hnodup).2
    unfold bindExports
    split
    case isTrue hkind =>
      have hnew : model.Joins root (fun e => e = (path, op.id)) (fun _ => False) s
          (s.newNet (some (path, op.id))) :=
        ⟨[(path, op.id)], [], .newNet _, ⟨by simp, by simp⟩, ⟨.nil, by simp⟩, by simp⟩
      have hknown := (hvalues.later hnew).update
        ⟨_, _, rfl, FlowState.sourceAt_newNet (path, op.id), .refl⟩
        (.exported (hops op (by simp)) hkind)
      obtain ⟨hjoins, hknown', hmono, hcovered⟩ := ih hops' hnodup' hknown
      have hupdate : ∀ v, (values v).isSome = true →
          (update values (.result op.id 0) (some s.nets.length) v).isSome = true := by
        intro v hv
        by_cases hvo : v = .result op.id 0
        · simp [hvo]
        · rwa [update_of_ne hvo]
      refine ⟨?_, hknown', fun v hv => hmono v (hupdate v hv), fun op' hop' hkind' => ?_⟩
      · refine (hnew.trans hjoins ?_ (by simp)).congr (fun e => ?_) (by simp)
        · rintro e rfl
          exact not_here hnodup
        · simp [here_cons, hkind]
      · obtain rfl | hop' := mem_cons.mp hop'
        · exact hmono _ (by simp)
        · exact hcovered op' hop' hkind'
    case isFalse hkind =>
      obtain ⟨hjoins, hknown', hmono, hcovered⟩ := ih hops' hnodup' hvalues
      refine ⟨hjoins.congr (fun e => by simp [here_cons, hkind]) (by simp), hknown', hmono,
        fun op' hop' hkind' => ?_⟩
      obtain rfl | hop' := mem_cons.mp hop'
      · exact absurd hkind' hkind
      · exact hcovered op' hop' hkind'

/-! ### Imports and returns -/

include hm in
theorem bindImports_known (hops : ∀ op ∈ ops, op ∈ m.body)
    (hnodup : (ops.map Operation.id).Nodup) (hvalues : model.Known root m path values s)
    (hrun : bindImports path values ops s = .ok s') :
    model.Joins root (fun _ => False) (Here .flowImport path ops) s s' ∧
      s'.visitedInstances = s.visitedInstances ∧
      ∀ op ∈ ops, op.kind = .flowImport → ∀ v, op.operands.head? = some v →
        model.Resolvable m v := by
  induction ops generalizing s with
  | nil =>
    cases hrun
    refine ⟨.nothing (by simp) ?_, rfl, by simp⟩
    rintro e ⟨-, op, hop, -⟩
    cases hop
  | cons op ops ih =>
    have hop := hops op (by simp)
    have hops' := fun op' h => hops op' (mem_cons_of_mem op h)
    have hnodup' := (nodup_cons.mp hnodup).2
    unfold bindImports at hrun
    split at hrun
    case isTrue hkind =>
      split at hrun
      case h_1 => cases hrun
      case h_2 n hn =>
        obtain ⟨v, hv, hvn⟩ := Option.bind_eq_some_iff.mp hn
        have hsome : (values v).isSome = true := by rw [hvn]; rfl
        obtain ⟨n', e, hn', he, hreaches⟩ := hvalues.carries v hsome
        rw [hvn] at hn'
        cases hn'
        have hsink : model.Joins root (fun _ => False) (fun i => i = (path, op.id)) s
            (s.addSink n (path, op.id)) := by
          refine ⟨[], [(e, path, op.id)], .addSink he _, ⟨.nil, by simp⟩, ⟨by simp, by simp⟩, ?_⟩
          intro l hl
          obtain rfl := mem_singleton.mp hl
          exact ⟨m, op, v, hm.elaborates, hop, rfl, hv, hreaches⟩
        obtain ⟨hjoins, hvisited, hresolvable⟩ :=
          ih hops' hnodup' (hvalues.later hsink) hrun
        refine ⟨?_, hvisited, fun op' hop' hkind' w hw => ?_⟩
        · refine (hsink.trans hjoins (by simp) ?_).congr (by simp) (fun i => ?_)
          · rintro i rfl
            exact not_here hnodup
          · simp [here_cons, hkind]
        · obtain rfl | hop' := mem_cons.mp hop'
          · rw [hv] at hw
            cases hw
            exact hvalues.resolvable v hsome
          · exact hresolvable op' hop' hkind' w hw
    case isFalse hkind =>
      obtain ⟨hjoins, hvisited, hresolvable⟩ := ih hops' hnodup' hvalues hrun
      refine ⟨hjoins.congr (by simp) (fun i => by simp [here_cons, hkind]), hvisited,
        fun op' hop' hkind' w hw => ?_⟩
      obtain rfl | hop' := mem_cons.mp hop'
      · exact absurd hkind' hkind
      · exact hresolvable op' hop' hkind' w hw

theorem bindReturns_eq (hrun : bindReturns m values vs = .ok outputs) :
    outputs = vs.map (fun v => if m.isFlow v then values v else none) ∧
      ∀ v ∈ vs, m.isFlow v = true → (values v).isSome = true := by
  induction vs generalizing outputs with
  | nil =>
    cases hrun
    simp
  | cons v vs ih =>
    unfold bindReturns at hrun
    cases hrest : bindReturns m values vs with
    | error message =>
      rw [hrest] at hrun
      split at hrun
      · cases hv : values v <;> simp [hv, bind, Except.bind] at hrun
      · simp [bind, Except.bind] at hrun
    | ok rest =>
      obtain ⟨rfl, hsome⟩ := ih hrest
      rw [hrest] at hrun
      split at hrun
      case isTrue hflow =>
        cases hv : values v with
        | none => simp [hv, bind, Except.bind] at hrun
        | some n =>
          simp only [hv, bind, Except.bind, Except.ok.injEq] at hrun
          subst hrun
          simp [hflow, hv]
          exact hsome
      case isFalse hflow =>
        simp only [bind, Except.bind, Except.ok.injEq] at hrun
        subst hrun
        simp [hflow]
        exact hsome

end body

/-! ### Instances -/

/-- The direct endpoints of one kind at or below a path. -/
def Under (model : Model) (root : Module) (kind : Kind) (path : Path) (e : Endpoint) : Prop :=
  model.IsEndpoint root kind e ∧ model.Direct root e.1 ∧ path <:+ e.1

/-- The direct endpoints of one kind inside an instance of a module. -/
def Inside (model : Model) (root : Module) (kind : Kind) (path : Path) (p : Operation × String)
    (e : Endpoint) : Prop :=
  (model.lookupModule p.2).isSome = true ∧ model.Under root kind ((p.1.id, 0) :: path) e

theorem under_iff (hm : model.ThroughInstances root path m) : model.Under root kind path e ↔
      Here kind path m.body e ∨ ∃ p ∈ m.instances, model.Inside root kind path p e := by
  constructor
  · rintro ⟨⟨n, op, hn, hop, hkind, hid⟩, hdirect, hsuffix⟩
    obtain heq | ⟨op', d, c, hp, hc, -, hsuffix'⟩ :=
      (hdirect.throughInstances hn).split hm hsuffix
    · rw [heq] at hn
      cases hm.elaborates.unique hn
      exact .inl ⟨heq, op, hop, hkind, hid⟩
    · exact .inr ⟨(op', d), hp, by simp [hc], ⟨n, op, hn, hop, hkind, hid⟩, hdirect, hsuffix'⟩
  · rintro (⟨rfl, op, hop, hkind, hid⟩ | ⟨p, hp, hc, he, hdirect, hsuffix⟩)
    · exact ⟨⟨m, op, hm.elaborates, hop, hkind, hid⟩, hm.direct, suffix_rfl⟩
    · exact ⟨he, hdirect, (suffix_cons _ _).trans hsuffix⟩

/-- Two instances have no endpoint in common. -/
theorem Inside.disjoint {p p' : Operation × String}
    (h : model.Inside root kind path p e) (h' : model.Inside root kind path p' e) :
    p.1.id = p'.1.id := by
  have hsuffix := suffix_of_suffix_length_le h.2.2.2 h'.2.2.2 (by simp)
  have heq := hsuffix.eq_of_length (by simp)
  exact (Prod.mk.inj (List.cons.inj heq).1).1

theorem Inside.not_here {p : Operation × String}
    (h : model.Inside root kind path p e) (hhere : Here kind path ops e) : False := by
  have hlength := h.2.2.2.length_le
  rw [hhere.1, length_cons] at hlength
  omega

/-- What a successful analysis of one module instance has done. -/
structure Analyzed (model : Model) (root m : Module) (path : Path) (depth : ℕ) (s : FlowState)
    (outputs : List MaybeNet) (s' : FlowState) : Prop where
  joins : model.Joins root (model.Under root .flowExport path) (model.Under root .flowImport path) s s'
  carries : ∀ (k : ℕ) v, m.returns[k]? = some v → m.isFlow v = true →
    model.Carries root path s' v outputs[k]?.join
  flows : ∀ k : ℕ, outputs[k]?.join.isSome = true → ∃ v, m.returns[k]? = some v ∧ m.isFlow v = true
  visited : s'.visitedInstances = s.visitedInstances + model.instanceCount depth m
  limit : s'.visitedInstances ≤ kMaxModelAnalysisNodes
  wired : model.Wired depth m

/-- What the analysis of module instances does, for those that succeed. -/
def AnalyzeSound (model : Model) (root : Module) (depth : ℕ) (analyze : Analyze) : Prop :=
  ∀ m inputs path s outputs s', model.ThroughInstances root path m →
    model.Fed root m path inputs s → analyze m inputs path s = .ok (outputs, s') →
      model.Analyzed root m path depth s outputs s'

/-- The instances counted for one operation. -/
def countOf (model : Model) (depth : ℕ) (p : Operation × String) : ℕ :=
  match model.lookupModule p.2 with
  | some c => model.instanceCount depth c
  | none => 0

section instances

theorem resolvable_of_ready (hready : m.ready values p = true)
    (hvalues : model.Known root m path values s) :
    ∀ v ∈ p.1.operands, m.isFlow v = true → model.Resolvable m v := by
  intro v hv hflow
  have := all_eq_true.mp hready v hv
  exact hvalues.resolvable v (by simpa [hflow] using this)

variable (hverified : model.Verified) (hroot : root ∈ model.modules)
  (hm : model.ThroughInstances root path m) {depth : ℕ} {analyze : Analyze}
  {p : Operation × String} {values' : Values}

include hverified hroot hm

section

variable (hp : p ∈ m.instances) (hc : model.lookupModule p.2 = some c)

include hp hc

theorem instance_types :
    p.1.operands.map m.typeOf = c.inputs.map some ∧ p.1.results = c.outputs := by
  obtain ⟨hop, hkind⟩ := Module.mem_instances.mp hp
  have h := hverified.element (hm.elaborates.mem_modules hroot) hop
    (by simp [hkind, Kind.definitions]) hc
  simpa [hkind, Kind.elements] using h

theorem fed_of_ready (hready : m.ready values p = true)
    (hvalues : model.Known root m path values s) : model.Fed root c ((p.1.id, 0) :: path)
      (p.1.operands.map fun v => if m.isFlow v then values v else none) s := by
  obtain ⟨hop, hkind⟩ := Module.mem_instances.mp hp
  intro k hk
  have htypes := congrArg (·[k]?) (instance_types hverified hroot hm hp hc).1
  simp only [getElem?_map, hk] at htypes
  obtain ⟨v, hv, htype⟩ := Option.map_eq_some_iff.mp htypes
  have hflow : m.isFlow v = true := decide_eq_true htype
  have hsome : (values v).isSome = true := by
    have := all_eq_true.mp hready v (mem_of_getElem? hv)
    simpa [hflow] using this
  obtain ⟨n, e, hn, he, hreaches⟩ := hvalues.carries v hsome
  refine ⟨n, e, ?_, he, hreaches.tail ?_⟩
  · simp [hv, hflow, hn]
  · refine .enter hm.elaborates hop (by simp [hkind, Kind.elements]) hc trivial
      (List.getElem?_eq_some_iff.mp hk).1 ?_
    simpa using hv

omit hverified hroot in
/-- The results of an instance carry what its module returns. -/
theorem known_bindResults (hcarries : ∀ (k : ℕ) v, c.returns[k]? = some v → c.isFlow v = true →
      model.Carries root ((p.1.id, 0) :: path) s v outputs[k]?.join)
    (hflows : ∀ k : ℕ, outputs[k]?.join.isSome = true → ∃ v, c.returns[k]? = some v ∧ c.isFlow v =
      true) (hoperands : ∀ v ∈ p.1.operands, m.isFlow v = true → model.Resolvable m v)
    (hvalues : model.Known root m path values s) :
    model.Known root m path (bindResults p.1 outputs values) s := by
  obtain ⟨hop, hkind⟩ := Module.mem_instances.mp hp
  have hresult : ∀ k : ℕ, p.1.results[k]? = some .flow → outputs[k]?.join.isSome = true →
      model.Carries root path s (.result p.1.id k) outputs[k]?.join := by
    intro k hk hsome
    obtain ⟨v, hv, hflow⟩ := hflows k hsome
    obtain ⟨n, e, hn, he, hreaches⟩ := hcarries k v hv hflow
    refine ⟨n, e, hn, he, hreaches.tail ?_⟩
    have hleave : model.Wire root (fun _ => True) ((p.1.id, 0) :: path, v)
        (path, .result p.1.id (0 * c.outputs.length + k)) := by
      refine .leave hm.elaborates hop (by simp [hkind, Kind.elements]) hc trivial hv ?_
      have := (List.getElem?_eq_some_iff.mp hk).1
      omega
    simpa using hleave
  have hcase : ∀ v, bindResults p.1 outputs values v = values v ∨
      ∃ k, v = .result p.1.id k ∧ p.1.results[k]? = some .flow ∧
        outputs[k]?.join.isSome = true ∧ bindResults p.1 outputs values v = outputs[k]?.join := by
    intro v
    cases v with
    | argument k => exact .inl rfl
    | result i k =>
      by_cases h : i = p.1.id ∧ p.1.results[k]? = some .flow
      · obtain ⟨rfl, hk⟩ := h
        cases hout : outputs[k]?.join with
        | none => exact .inl (by simp [bindResults, hk, hout])
        | some n => exact .inr ⟨k, rfl, hk, by simp [hout], by simp [bindResults, hk, hout]⟩
      · exact .inl (by simp [bindResults, h])
  refine ⟨fun v hv => ?_, fun v hv => ?_⟩
  · obtain heq | ⟨k, rfl, hk, hsome, heq⟩ := hcase v
    · rw [heq] at hv ⊢
      exact hvalues.carries v hv
    · rw [heq]
      exact hresult k hk hsome
  · obtain heq | ⟨k, rfl, hk, -, -⟩ := hcase v
    · rw [heq] at hv
      exact hvalues.resolvable v hv
    · exact .instanced hp hc hoperands hk

end

variable {pending : List (Operation × String)}

theorem bindInstance_known (hsound : model.AnalyzeSound root depth analyze) (hp : p ∈ m.instances)
    (hready : m.ready values p = true) (hvalues : model.Known root m path values s)
    (hlimit : s.visitedInstances ≤ kMaxModelAnalysisNodes)
    (hrun : model.bindInstance analyze m path p values s = .ok (values', s')) :
    model.Joins root (model.Inside root .flowExport path p) (model.Inside root .flowImport path p)
        s s' ∧
      model.Known root m path values' s' ∧
      s'.visitedInstances = s.visitedInstances + model.countOf depth p ∧
      s'.visitedInstances ≤ kMaxModelAnalysisNodes ∧
      (model.lookupModule p.2 = none → m.carriesFlow p.1 = false) ∧
      ∀ c, model.lookupModule p.2 = some c → model.Wired depth c := by
  obtain ⟨hop, hkind⟩ := Module.mem_instances.mp hp
  unfold bindInstance at hrun
  split at hrun
  case h_1 hnone =>
    split at hrun
    case isTrue => cases hrun
    case isFalse hflow =>
      cases hrun
      refine ⟨.nothing ?_ ?_, hvalues, ?_, hlimit, fun _ => by simpa using hflow, ?_⟩
      · intro e he
        simp [Inside, hnone] at he
      · intro e he
        simp [Inside, hnone] at he
      · simp [countOf, hnone]
      · simp [hnone]
  case h_2 c hc =>
    cases hchild : analyze c (p.1.operands.map fun v => if m.isFlow v then values v else none)
        ((p.1.id, 0) :: path) s with
    | error message => simp [hchild, bind, Except.bind] at hrun
    | ok result =>
      obtain ⟨outputs, s₁⟩ := result
      simp only [hchild] at hrun
      obtain ⟨rfl, rfl⟩ := hrun
      have h := hsound c _ _ s outputs s₁ (.step hm hop hkind hc)
        (fed_of_ready hverified hroot hm hp hc hready hvalues) hchild
      refine ⟨h.joins.congr (fun e => by simp [Inside, hc]) (fun e => by simp [Inside, hc]), ?_, ?_,
        h.limit, by simp [hc], ?_⟩
      · exact known_bindResults hm hp hc h.carries h.flows
          (resolvable_of_ready hready hvalues) (hvalues.later h.joins)
      · simpa [countOf, hc] using h.visited
      · intro c' hc'
        rw [hc] at hc'
        cases hc'
        exact h.wired

omit hverified hroot hm in
/-- The worklist takes one instance and keeps the others. -/
theorem perm_eraseP (hp : pending.find? (m.ready values) = some p) :
    pending.Perm (p :: pending.eraseP (m.ready values)) := by
  obtain ⟨hready, before, after, rfl, hbefore⟩ := find?_eq_some_iff_append.mp hp
  rw [eraseP_append_right _ (fun q hq => by simpa using hbefore q hq),
    eraseP_cons_of_pos hready]
  exact perm_middle

theorem bindInstances_known (hsound : model.AnalyzeSound root depth analyze)
    (hpending : ∀ p ∈ pending, p ∈ m.instances) (hnodup : (pending.map fun p => p.1.id).Nodup)
    (hvalues : model.Known root m path values s)
    (hlimit : s.visitedInstances ≤ kMaxModelAnalysisNodes) {count : ℕ}
    (hcount : count = pending.length)
    (hrun : model.bindInstances analyze m path count pending values s = .ok (values', s')) :
    model.Joins root (fun e => ∃ p ∈ pending, model.Inside root .flowExport path p e)
        (fun i => ∃ p ∈ pending, model.Inside root .flowImport path p i) s s' ∧
      model.Known root m path values' s' ∧
      s'.visitedInstances = s.visitedInstances + (pending.map (model.countOf depth)).sum ∧
      s'.visitedInstances ≤ kMaxModelAnalysisNodes ∧
      (∀ p ∈ pending, ∀ v ∈ p.1.operands, m.isFlow v = true → model.Resolvable m v) ∧
      (∀ p ∈ pending, model.lookupModule p.2 = none → m.carriesFlow p.1 = false) ∧
      ∀ p ∈ pending, ∀ c, model.lookupModule p.2 = some c → model.Wired depth c := by
  induction count generalizing pending values s with
  | zero =>
    obtain rfl := eq_nil_of_length_eq_zero hcount.symm
    cases hrun
    exact ⟨.nothing (by simp) (by simp), hvalues, by simp, hlimit, by simp, by simp, by simp⟩
  | succ count ih =>
    unfold bindInstances at hrun
    split at hrun
    case h_1 => cases hrun
    case h_2 p hfind =>
      have hperm := perm_eraseP hfind
      have hready : m.ready values p = true := find?_some hfind
      generalize pending.eraseP (m.ready values) = rest at hperm hrun
      have hmem : ∀ q, q ∈ pending ↔ q = p ∨ q ∈ rest := fun q => by
        rw [hperm.mem_iff, mem_cons]
      have hlength := hperm.length_eq
      rw [length_cons] at hlength
      have hids := (hperm.map fun q => q.1.id).nodup_iff.mp hnodup
      rw [map_cons, nodup_cons] at hids
      have hp := hpending p ((hmem p).mpr (.inl rfl))
      cases hone : model.bindInstance analyze m path p values s with
      | error message => simp [hone, bind, Except.bind] at hrun
      | ok result =>
        obtain ⟨values₁, s₁⟩ := result
        simp only [hone] at hrun
        obtain ⟨hjoins, hknown, hvisited, hlimit₁, hexternal, hwired⟩ :=
          bindInstance_known hverified hroot hm hsound hp hready hvalues hlimit hone
        obtain ⟨hjoins', hknown', hvisited', hlimit', hoperands, hexternal', hwired'⟩ :=
          ih (fun q hq => hpending q ((hmem q).mpr (.inr hq))) hids.2 hknown hlimit₁
            (by omega) hrun
        have hdisjoint : ∀ kind e, model.Inside root kind path p e →
            ¬ ∃ q ∈ rest, model.Inside root kind path q e := by
          rintro kind e he ⟨q, hq, heq⟩
          exact hids.1 (mem_map.mpr ⟨q, hq, heq.disjoint he⟩)
        have hsplit : ∀ kind e, (model.Inside root kind path p e ∨
            ∃ q ∈ rest, model.Inside root kind path q e) ↔
            ∃ q ∈ pending, model.Inside root kind path q e := by
          intro kind e
          simp [hmem]
        refine ⟨(hjoins.trans hjoins' (hdisjoint _) (hdisjoint _)).congr (hsplit _) (hsplit _),
          hknown', ?_, hlimit', ?_, ?_, ?_⟩
        · rw [(hperm.map _).sum_eq, map_cons, sum_cons]
          omega
        · intro q hq
          obtain rfl | hq := (hmem q).mp hq
          · exact resolvable_of_ready hready hvalues
          · exact hoperands q hq
        · intro q hq
          obtain rfl | hq := (hmem q).mp hq
          · exact hexternal
          · exact hexternal' q hq
        · intro q hq
          obtain rfl | hq := (hmem q).mp hq
          · exact hwired
          · exact hwired' q hq

end instances

/-! ### Analyses that succeed -/

theorem Known.nothing : model.Known root m path (fun _ => none) s := ⟨by simp, by simp⟩

/-- The values of a body before its instances are bound. -/
def entryValues (m : Module) (inputs : List MaybeNet) (path : Path) (s : FlowState) :
    Values × FlowState :=
  let bound := bindArguments inputs 0 m.inputs (fun _ => none)
    { s with visitedInstances := s.visitedInstances + 1 }
  bindExports path m.body bound.1 bound.2

/-- The stages of one analysis. -/
theorem analyze_succ {depth : ℕ} {inputs outputs : List MaybeNet} :
    model.analyze (depth + 1) m inputs path s = .ok (outputs, s') ↔
      s.visitedInstances + 1 ≤ kMaxModelAnalysisNodes ∧
      ∃ values₁ s₁ s₂, model.bindInstances (model.analyze depth) m path m.instances.length m.instances
          (entryValues m inputs path s).1 (entryValues m inputs path s).2 = .ok (values₁, s₁) ∧
        bindImports path values₁ m.body s₁ = .ok s₂ ∧
        bindReturns m values₁ m.returns = .ok outputs ∧ s' = s₂ := by
  unfold analyze
  dsimp only
  split
  case isTrue hlimit =>
    refine ⟨nofun, fun h => ?_⟩
    exact absurd h.1 (by omega)
  case isFalse hlimit =>
    have hle : s.visitedInstances + 1 ≤ kMaxModelAnalysisNodes := by omega
    change (model.bindInstances (model.analyze depth) m path m.instances.length m.instances
        (entryValues m inputs path s).1 (entryValues m inputs path s).2 >>= fun bound =>
      bindImports path bound.1 m.body bound.2 >>= fun s₂ =>
      bindReturns m bound.1 m.returns >>= fun outs => .ok (outs, s₂)) = _ ↔ _
    generalize model.bindInstances (model.analyze depth) m path m.instances.length m.instances
        (entryValues m inputs path s).1 (entryValues m inputs path s).2 = bound
    cases bound with
    | error message => simp [bind, Except.bind]
    | ok bound =>
      simp only [bind, Except.bind, Except.ok.injEq, hle, true_and]
      constructor
      · intro h
        cases himports : bindImports path bound.1 m.body bound.2 with
        | error message => simp [himports] at h
        | ok s₂ =>
          cases hreturns : bindReturns m bound.1 m.returns with
          | error message => simp [himports, hreturns] at h
          | ok outs =>
            simp only [himports, hreturns, Except.ok.injEq, Prod.mk.injEq] at h
            obtain ⟨rfl, rfl⟩ := h
            exact ⟨bound.1, bound.2, s₂, rfl, himports, hreturns, rfl⟩
      · rintro ⟨values₁, s₁, s₂, rfl, himports, hreturns, rfl⟩
        simp [himports, hreturns]

section sound

variable (hverified : model.Verified) (hroot : root ∈ model.modules)

theorem bindExports_visited (ops : List Operation) (values : Values) (s : FlowState) :
    (bindExports path ops values s).2.visitedInstances = s.visitedInstances := by
  induction ops generalizing values s with
  | nil => rfl
  | cons op ops ih =>
    unfold bindExports
    split
    · rw [ih]
      rfl
    · exact ih values s

/-- The values that have a net before the instances are bound. -/
theorem entryValues_known (hfed : model.Fed root m path inputs s) :
    model.Joins root (Here .flowExport path m.body) (fun _ => False) s (entryValues m inputs path s).2 ∧
      (entryValues m inputs path s).2.visitedInstances = s.visitedInstances + 1 ∧
      model.Known root m path (entryValues m inputs path s).1 (entryValues m inputs path s).2 ∧
      (∀ k, m.inputs[k]? = some .flow →
        ((entryValues m inputs path s).1 (.argument k)).isSome = true) ∧
      ∀ op ∈ m.body, op.kind = .flowExport →
        ((entryValues m inputs path s).1 (.result op.id 0)).isSome = true := by
  have hfed' : model.Fed root m path inputs { s with visitedInstances := s.visitedInstances + 1 } :=
    hfed
  obtain ⟨hstate, hknown, hinputs⟩ := bindArguments_known hfed' drop_zero .nothing (by simp)
  obtain ⟨hjoins, hknown', hmono, hexports⟩ := bindExports_known (fun op h => h) m.ids hknown
  have hentry : entryValues m inputs path s = bindExports path m.body
      (bindArguments inputs 0 m.inputs (fun _ => none)
        { s with visitedInstances := s.visitedInstances + 1 }).1
      { s with visitedInstances := s.visitedInstances + 1 } := by
    rw [entryValues, hstate]
  rw [hentry]
  exact ⟨hjoins.uncounted, bindExports_visited _ _ _, hknown', fun k hk => hmono _ (hinputs k hk), hexports⟩

include hverified hroot in
theorem analyze_sound {depth : ℕ} : model.AnalyzeSound root depth (model.analyze depth) := by
  induction depth with
  | zero =>
    intro m inputs path s outputs s' _ _ hrun
    cases hrun
  | succ depth ih =>
    intro m inputs path s outputs s' hm hfed hrun
    obtain ⟨hlimit, values, s₁, s₂, hinstances, himports, hreturns, rfl⟩ := analyze_succ.mp hrun
    obtain ⟨hentry, hvisited, hknown, -, -⟩ := entryValues_known hfed
    obtain ⟨hjoins, hknown₁, hvisited₁, hlimit₁, hoperands, hexternal, hwired⟩ :=
      bindInstances_known hverified hroot hm ih (fun p hp => hp) m.instances_nodup hknown
        (by omega) rfl hinstances
    obtain ⟨hjoins', hvisited', himported⟩ :=
      bindImports_known hm (fun op h => h) m.ids hknown₁ himports
    obtain ⟨houtputs, hreturned⟩ := bindReturns_eq hreturns
    refine ⟨?_, ?_, ?_, ?_, by omega, ⟨hoperands, hexternal, himported, ?_⟩, hwired⟩
    · have hfirst := hentry.trans hjoins (fun e he => ?_) (by simp)
      · refine (hfirst.trans hjoins' (by simp) ?_).congr (fun e => ?_) (fun i => ?_)
        · rintro i (hi | ⟨p, -, hi⟩) hhere
          · exact hi
          · exact hi.not_here hhere
        · rw [under_iff hm, or_false]
        · rw [under_iff hm, false_or, or_comm]
      · rintro ⟨p, -, hp⟩
        exact hp.not_here he
    · intro k v hv hflow
      obtain ⟨n, e, hn, he, hreaches⟩ :=
        hknown₁.carries v (hreturned v (mem_of_getElem? hv) hflow)
      refine ⟨n, e, ?_, hjoins'.sourceAt he, hreaches⟩
      simp [houtputs, getElem?_map, hv, hflow, hn]
    · intro k hk
      rw [houtputs, getElem?_map] at hk
      cases hv : m.returns[k]? with
      | none => simp [hv] at hk
      | some v =>
        refine ⟨v, rfl, ?_⟩
        by_contra hflow
        simp [hv, hflow] at hk
    · rw [hvisited', hvisited₁, hvisited]
      have hcount : model.instanceCount (depth + 1) m =
          1 + (m.instances.map (model.countOf depth)).sum := rfl
      omega
    · exact fun v hv hflow => hknown₁.resolvable v (hreturned v hv hflow)

end sound

/-! ### Analyses of what can be wired -/

section complete

variable (hverified : model.Verified) (hroot : root ∈ model.modules)
  (hm : model.ThroughInstances root path m) {pending : List (Operation × String)} {values' : Values}
  {depth : ℕ}

/-- The values that have a net when some instances are still pending. -/
structure Covers (model : Model) (m : Module) (pending : List (Operation × String))
    (values : Values) : Prop where
  inputs : ∀ k, m.inputs[k]? = some .flow → (values (.argument k)).isSome = true
  exports : ∀ op ∈ m.body, op.kind = .flowExport → (values (.result op.id 0)).isSome = true
  instances : ∀ p ∈ m.instances, p ∉ pending → ∀ c, model.lookupModule p.2 = some c →
    ∀ k, p.1.results[k]? = some .flow → (values (.result p.1.id k)).isSome = true

theorem Covers.resolved (h : model.Covers m pending values)
    (hstuck : ∀ p ∈ pending, m.ready values p = false) {v : Value} (hv : model.Resolvable m v) :
    (values v).isSome = true := by
  induction hv with
  | argument hk => exact h.inputs _ hk
  | exported hop hkind => exact h.exports _ hop hkind
  | @instanced op d c k hp hc _ hk ih =>
    refine h.instances (op, d) hp (fun hpending => ?_) c hc k hk
    have hready : m.ready values (op, d) = true := by
      refine all_eq_true.mpr fun w hw => ?_
      cases hflow : m.isFlow w with
      | false => rfl
      | true => exact ih w hw hflow
    rw [hstuck _ hpending] at hready
    cases hready

/-- **The worklist does not get stuck** on a body that can be wired. -/
theorem Covers.exists_ready (h : model.Covers m pending values)
    (hpending : ∀ p ∈ pending, p ∈ m.instances) (hwired : model.BodyWired m)
    (hne : pending ≠ []) : ∃ p, pending.find? (m.ready values) = some p := by
  cases hfind : pending.find? (m.ready values) with
  | some p => exact ⟨p, rfl⟩
  | none =>
    have hstuck : ∀ p ∈ pending, m.ready values p = false := by
      intro p hp
      simpa using find?_eq_none.mp hfind p hp
    obtain ⟨p, hp⟩ := exists_mem_of_ne_nil pending hne
    have hready : m.ready values p = true := by
      refine all_eq_true.mpr fun v hv => ?_
      cases hflow : m.isFlow v with
      | false => rfl
      | true => exact h.resolved hstuck (hwired.operands p (hpending p hp) v hv hflow)
    rw [hstuck p hp] at hready
    cases hready

theorem bindImports_ok (h : ∀ op ∈ ops, op.kind = .flowImport →
    ∃ v, op.operands.head? = some v ∧ (values v).isSome = true) :
    ∃ s', bindImports path values ops s = .ok s' := by
  induction ops generalizing s with
  | nil => exact ⟨s, rfl⟩
  | cons op ops ih =>
    have hops := fun op' hop' => h op' (mem_cons_of_mem op hop')
    unfold bindImports
    split
    case isTrue hkind =>
      obtain ⟨v, hv, hsome⟩ := h op (by simp) hkind
      obtain ⟨n, hn⟩ := Option.isSome_iff_exists.mp hsome
      simp only [hv, Option.bind_some, hn]
      exact ih hops
    case isFalse => exact ih hops

theorem bindReturns_ok (h : ∀ v ∈ vs, m.isFlow v = true → (values v).isSome = true) :
    ∃ outputs, bindReturns m values vs = .ok outputs := by
  induction vs with
  | nil => exact ⟨[], rfl⟩
  | cons v vs ih =>
    obtain ⟨outputs, houtputs⟩ := ih fun w hw => h w (mem_cons_of_mem v hw)
    unfold bindReturns
    rw [houtputs]
    split
    case isTrue hflow =>
      obtain ⟨n, hn⟩ := Option.isSome_iff_exists.mp (h v (by simp) hflow)
      exact ⟨some n :: outputs, by simp [hn, bind, Except.bind]⟩
    case isFalse => exact ⟨none :: outputs, by simp [bind, Except.bind]⟩

/-- The analysis of module instances that can be wired, within the limit. -/
def AnalyzeComplete (model : Model) (root : Module) (depth : ℕ) (analyze : Analyze) : Prop :=
  ∀ m inputs path s, model.ThroughInstances root path m → model.Fed root m path inputs s →
    model.Wired depth m →
    s.visitedInstances + model.instanceCount depth m ≤ kMaxModelAnalysisNodes →
      ∃ outputs s', analyze m inputs path s = .ok (outputs, s')

include hverified hroot hm

/-- A Flow result of an instance has a net once the instance is bound. -/
theorem isSome_bindResults {p : Operation × String} (hp : p ∈ m.instances)
    (hc : model.lookupModule p.2 = some c) {outputs : List MaybeNet}
    (hcarries : ∀ (k : ℕ) v, c.returns[k]? = some v → c.isFlow v = true →
      model.Carries root ((p.1.id, 0) :: path) s v outputs[k]?.join) {k : ℕ}
    (hk : p.1.results[k]? = some .flow) :
    (bindResults p.1 outputs values (.result p.1.id k)).isSome = true := by
  have hresults := (instance_types hverified hroot hm hp hc).2
  have htypes := congrArg (·[k]?) (hverified c (lookupModule_eq_some.mp hc).1).1
  rw [hresults] at hk
  simp only [getElem?_map, hk] at htypes
  obtain ⟨v, hv, htype⟩ := Option.map_eq_some_iff.mp htypes
  obtain ⟨n, e, hn, -, -⟩ := hcarries k v hv (decide_eq_true htype)
  simp [bindResults, hresults, hk, hn]

theorem bindInstances_ok (hwired : model.BodyWired m)
    (hchildren : ∀ p ∈ m.instances, ∀ c, model.lookupModule p.2 = some c → model.Wired depth c)
    (hpending : ∀ p ∈ pending, p ∈ m.instances) (hnodup : (pending.map fun p => p.1.id).Nodup)
    (hcovers : model.Covers m pending values) (hvalues : model.Known root m path values s)
    (hlimit : s.visitedInstances + (pending.map (model.countOf depth)).sum ≤ kMaxModelAnalysisNodes)
    (hcomplete : model.AnalyzeComplete root depth (model.analyze depth)) {count : ℕ}
    (hcount : count = pending.length) :
    ∃ values' s', model.bindInstances (model.analyze depth) m path count pending values s =
      .ok (values', s') ∧ model.Covers m [] values' := by
  induction count generalizing pending values s with
  | zero =>
    obtain rfl := eq_nil_of_length_eq_zero hcount.symm
    exact ⟨values, s, rfl, hcovers⟩
  | succ count ih =>
    have hne : pending ≠ [] := fun h => by simp [h] at hcount
    obtain ⟨p, hfind⟩ := hcovers.exists_ready hpending hwired hne
    have hperm := perm_eraseP hfind
    have hready : m.ready values p = true := find?_some hfind
    unfold bindInstances
    rw [hfind]
    generalize pending.eraseP (m.ready values) = rest at hperm
    have hmem : ∀ q, q ∈ pending ↔ q = p ∨ q ∈ rest := fun q => by
      rw [hperm.mem_iff, mem_cons]
    have hlength := hperm.length_eq
    rw [length_cons] at hlength
    have hids := (hperm.map fun q => q.1.id).nodup_iff.mp hnodup
    rw [map_cons, nodup_cons] at hids
    have hsum := (hperm.map (model.countOf depth)).sum_eq
    rw [map_cons, sum_cons] at hsum
    have hp := hpending p ((hmem p).mpr (.inl rfl))
    obtain ⟨hop, hkind⟩ := Module.mem_instances.mp hp
    have hbound : ∃ values₁ s₁, model.bindInstance (model.analyze depth) m path p values s =
        .ok (values₁, s₁) ∧ (∀ v, (values v).isSome = true → (values₁ v).isSome = true) ∧
        ∀ c, model.lookupModule p.2 = some c → ∀ k, p.1.results[k]? = some .flow →
          (values₁ (.result p.1.id k)).isSome = true := by
      unfold bindInstance
      cases hc : model.lookupModule p.2 with
      | none =>
        have hflow := hwired.external p hp hc
        exact ⟨values, s, by simp [hflow], fun v hv => hv, by simp⟩
      | some c =>
        have hfed := fed_of_ready hverified hroot hm hp hc hready hvalues
        have hcountOf : model.countOf depth p = model.instanceCount depth c := by
          simp [countOf, hc]
        have hchild := ThroughInstances.step hm hop hkind hc
        obtain ⟨outputs, s₁, hrun⟩ := hcomplete c _ _ s hchild hfed
          (hchildren p hp c hc) (by omega)
        have hanalyzed := analyze_sound hverified hroot c _ _ s outputs s₁ hchild hfed hrun
        refine ⟨bindResults p.1 outputs values, s₁, ?_, ?_, ?_⟩
        · simp only [hrun, bind, Except.bind]
        · intro v hv
          cases v with
          | argument k => exact hv
          | result i k =>
            by_cases h : i = p.1.id ∧ p.1.results[k]? = some .flow
            · simp only [bindResults, if_pos h]
              cases outputs[k]?.join <;> simp [hv]
            · simpa only [bindResults, if_neg h] using hv
        · intro c' hc' k hk
          cases hc'
          exact isSome_bindResults hverified hroot hm hp hc hanalyzed.carries hk
    obtain ⟨values₁, s₁, hone, hmono, hresults⟩ := hbound
    obtain ⟨-, hknown₁, hvisited, -⟩ := bindInstance_known hverified hroot hm
      (analyze_sound hverified hroot) hp hready hvalues (by omega) hone
    have hcovers₁ : model.Covers m rest values₁ := by
      refine ⟨fun k hk => hmono _ (hcovers.inputs k hk),
        fun op hop hkind => hmono _ (hcovers.exports op hop hkind), fun q hq hqr c hc k hk => ?_⟩
      by_cases hqp : q = p
      · subst hqp
        exact hresults c hc k hk
      · refine hmono _ (hcovers.instances q hq (fun h => ?_) c hc k hk)
        exact ((hmem q).mp h).elim hqp hqr
    obtain ⟨values', s', hrun, hcovers'⟩ := ih (fun q hq => hpending q ((hmem q).mpr (.inr hq)))
      hids.2 hcovers₁ hknown₁ (by omega) (by omega)
    refine ⟨values', s', ?_, hcovers'⟩
    simp only [hone]
    exact hrun

omit hm in
theorem analyze_complete : model.AnalyzeComplete root depth (model.analyze depth) := by
  induction depth with
  | zero => exact fun _ _ _ _ _ _ hwired => hwired.elim
  | succ depth ih =>
    intro m inputs path s hm hfed hwired hlimit
    have hcount : model.instanceCount (depth + 1) m =
        1 + (m.instances.map (model.countOf depth)).sum := rfl
    obtain ⟨-, hvisited, hknown, hinputs, hexports⟩ := entryValues_known hfed
    have hcovers : model.Covers m m.instances (entryValues m inputs path s).1 :=
      ⟨hinputs, hexports, fun p hp hnot => absurd hp hnot⟩
    obtain ⟨values, s₁, hinstances, hcovers'⟩ := bindInstances_ok hverified hroot hm hwired.1 hwired.2
      (fun p hp => hp) m.instances_nodup hcovers hknown (by omega) ih rfl
    have hresolved : ∀ v, model.Resolvable m v → (values v).isSome = true :=
      fun v hv => hcovers'.resolved (by simp) hv
    have hmodule := hm.elaborates.mem_modules hroot
    obtain ⟨s₂, himports⟩ : ∃ s₂, bindImports path values m.body s₁ = .ok s₂ := by
      refine bindImports_ok fun op hop hkind => ?_
      have hop' := (hverified m hmodule).2 op hop
      simp only [verifyOperation, hkind, Bool.and_eq_true, decide_eq_true_eq] at hop'
      obtain ⟨v, hv⟩ : ∃ v, op.operands.head? = some v := by
        cases hoperands : op.operands with
        | nil => simp [hoperands] at hop'
        | cons v vs => exact ⟨v, rfl⟩
      exact ⟨v, hv, hresolved v (hwired.1.imports op hop hkind v hv)⟩
    obtain ⟨outputs, hreturns⟩ := bindReturns_ok fun v hv hflow =>
      hresolved v (hwired.1.returns v hv hflow)
    exact ⟨outputs, s₂, analyze_succ.mpr
      ⟨by omega, values, s₁, s₂, hinstances, himports, hreturns, rfl⟩⟩

end complete

/-! ### The selected root -/

/-- What is checked of a root, in terms of its hierarchy. -/
structure FlowContract (model : Model) (root : Module) : Prop where
  closed : RootClosed root
  wired : model.Wired (kMaxModelAnalysisNodes + 1) root
  limit : model.instanceCount (kMaxModelAnalysisNodes + 1) root ≤ kMaxModelAnalysisNodes
  exports : ∀ e, model.Under root .flowExport [] e →
    ∃! i, model.Under root .flowImport [] i ∧ model.Connected root e i

theorem length_eq_one_iff {α : Type*} {l : List α} (hl : l.Nodup) : l.length = 1 ↔ ∃! x, x ∈ l := by
  rw [List.length_eq_one_iff]
  constructor
  · rintro ⟨a, rfl⟩
    exact ⟨a, by simp, fun b hb => by simpa using hb⟩
  · rintro ⟨a, ha, hunique⟩
    refine ⟨a, perm_singleton.mp ?_⟩
    refine (perm_ext_iff_of_nodup hl (nodup_singleton a)).mpr fun b => ?_
    rw [mem_singleton]
    exact ⟨hunique b, fun h => h ▸ ha⟩

theorem verifyNet_ok_iff {net : Net} :
    verifyNet net = .ok () ↔ net.source ≠ none ∧ net.sinks.length = 1 := by
  unfold verifyNet
  split
  case isTrue h => simp [h]
  case isFalse h =>
    split
    case isTrue h' => simp [h']
    case isFalse h' =>
      have hpos := length_pos_of_ne_nil h'
      split
      · simp
        omega
      · simp [h]
        omega

theorem forM_verifyNet_ok_iff {nets : List Net} :
    forM nets verifyNet = .ok () ↔ ∀ net ∈ nets, net.source ≠ none ∧ net.sinks.length = 1 := by
  induction nets with
  | nil => simp [pure, Except.pure]
  | cons net nets ih =>
    rw [forM_cons, forall_mem_cons, ← verifyNet_ok_iff, ← ih]
    cases verifyNet net with
    | error message | ok u => simp [bind, Except.bind]

section contract

variable (hverified : model.Verified) (hroot : root ∈ model.modules)
include hverified hroot

/-- An import has one source. -/
theorem Connected.unique {e' i : Endpoint} (he : model.IsEndpoint root .flowExport e)
    (he' : model.IsEndpoint root .flowExport e') (h : model.Connected root e i)
    (h' : model.Connected root e' i) : e = e' := by
  obtain ⟨m, op, v, hm, hop, hid, hv, hreaches⟩ := h
  obtain ⟨m', op', v', hm', hop', hid', hv', hreaches'⟩ := h'
  cases hm.unique hm'
  obtain rfl := m.eq_of_id hop hop' (hid.trans hid'.symm)
  cases Option.some.inj (hv.symm.trans hv')
  exact Reaches.unique hverified hroot he he' hreaches hreaches'

/-- Each net belongs to one direct export and holds the direct imports connected to it. -/
theorem nets_iff {s : FlowState} (h : model.Joins root (model.Under root .flowExport [])
    (model.Under root .flowImport []) ⟨[], 0⟩ s) :
    (∀ net ∈ s.nets, ∃ e, net.source = some e ∧ model.Under root .flowExport [] e ∧
      net.sinks.Nodup ∧
      ∀ i, i ∈ net.sinks ↔ model.Under root .flowImport [] i ∧ model.Connected root e i) ∧
    ∀ e, model.Under root .flowExport [] e → ∃ net ∈ s.nets, net.source = some e := by
  obtain ⟨es, links, hgrows, hes, hlinks, hconnected⟩ := h
  have hsources : s.nets.map source = es.map some := by simpa using hgrows.sources
  have hperm : s.links.Perm (links.map fun l => (some l.1, l.2)) := by
    simpa [FlowState.links] using hgrows.links
  have hsource : ∀ net ∈ s.nets, ∃ e ∈ es, net.source = some e := by
    intro net hnet
    have hmem : net.source ∈ es.map some := by
      rw [← hsources]
      exact mem_map_of_mem hnet
    obtain ⟨e, he, heq⟩ := mem_map.mp hmem
    exact ⟨e, he, heq.symm⟩
  have hinj : ∀ net ∈ s.nets, ∀ net' ∈ s.nets, net.source = net'.source → net = net' := by
    have hnodup : (s.nets.map source).Nodup := by
      rw [hsources]
      exact hes.1.map fun _ _ => Option.some.inj
    exact fun net hnet net' hnet' heq => inj_on_of_nodup_map hnodup hnet hnet' heq
  have hlink : ∀ e i, (e, i) ∈ links ↔ ∃ net ∈ s.nets, net.source = some e ∧ i ∈ net.sinks := by
    intro e i
    have : (e, i) ∈ links ↔ (some e, i) ∈ s.links := by
      rw [hperm.mem_iff]
      constructor
      · exact fun hl => mem_map.mpr ⟨(e, i), hl, rfl⟩
      · intro hl
        obtain ⟨l, hmem, heq⟩ := mem_map.mp hl
        cases heq
        exact hmem
    rw [this]
    simp only [FlowState.links, mem_flatMap, mem_map, Prod.mk.injEq]
    constructor
    · rintro ⟨net, hnet, sink, hsink, heq, rfl⟩
      exact ⟨net, hnet, heq, hsink⟩
    · rintro ⟨net, hnet, heq, hsink⟩
      exact ⟨net, hnet, i, hsink, heq, rfl⟩
  refine ⟨fun net hnet => ?_, fun e he => ?_⟩
  · obtain ⟨e, he, heq⟩ := hsource net hnet
    refine ⟨e, heq, (hes.2 e).mp he, ?_, fun i => ⟨fun hi => ?_, fun ⟨hi, hei⟩ => ?_⟩⟩
    · have hsinks : (s.nets.flatMap sinks).Nodup := by
        have hsnd : (s.links.map Prod.snd).Nodup := by
          rw [(hperm.map Prod.snd).nodup_iff, map_map]
          exact hlinks.1
        simpa [FlowState.links, map_flatMap, comp_def] using hsnd
      exact (nodup_flatMap.mp hsinks).1 net hnet
    · have hl := (hlink e i).mpr ⟨net, hnet, heq, hi⟩
      exact ⟨(hlinks.2 i).mp (mem_map.mpr ⟨(e, i), hl, rfl⟩), hconnected _ hl⟩
    · obtain ⟨⟨e', i'⟩, hl, rfl⟩ := mem_map.mp ((hlinks.2 i).mpr hi)
      obtain ⟨net', hnet', heq', hi'⟩ := (hlink e' i').mp hl
      obtain ⟨e'', he'', heq''⟩ := hsource net' hnet'
      obtain rfl : e' = e'' := Option.some.inj (heq'.symm.trans heq'')
      obtain rfl : e = e' := Connected.unique hverified hroot ((hes.2 e).mp he).1
        ((hes.2 e').mp he'').1 hei (hconnected _ hl)
      obtain rfl := hinj net hnet net' hnet' (heq.trans heq'.symm)
      exact hi'
  · have hmem : some e ∈ s.nets.map source := by
      rw [hsources]
      exact mem_map_of_mem ((hes.2 e).mpr he)
    obtain ⟨net, hnet, heq⟩ := mem_map.mp hmem
    exact ⟨net, hnet, heq⟩

theorem forM_nets_ok_iff {s : FlowState} (h : model.Joins root (model.Under root .flowExport [])
    (model.Under root .flowImport []) ⟨[], 0⟩ s) :
    forM s.nets verifyNet = .ok () ↔ ∀ e, model.Under root .flowExport [] e →
      ∃! i, model.Under root .flowImport [] i ∧ model.Connected root e i := by
  obtain ⟨hnets, hexports⟩ := nets_iff hverified hroot h
  rw [forM_verifyNet_ok_iff]
  constructor
  · intro hall e he
    obtain ⟨net, hnet, heq⟩ := hexports e he
    obtain ⟨e', heq', -, hnodup, hsinks⟩ := hnets net hnet
    cases heq.symm.trans heq'
    simpa only [hsinks] using (length_eq_one_iff hnodup).mp (hall net hnet).2
  · intro hall net hnet
    obtain ⟨e, heq, he, hnodup, hsinks⟩ := hnets net hnet
    refine ⟨by simp [heq], (length_eq_one_iff hnodup).mpr ?_⟩
    simpa only [hsinks] using hall e he

theorem any_isSome_iff {depth : ℕ} {s s' : FlowState} {outputs : List MaybeNet}
    (h : model.Analyzed root root [] depth s outputs s') :
    outputs.any Option.isSome = false ↔ .flow ∉ root.outputs := by
  have htypes := (hverified root hroot).1
  have hindex : ∀ k : ℕ, outputs[k]?.join.isSome = true ↔ root.outputs[k]? = some .flow := by
    intro k
    have htype := congrArg (·[k]?) htypes
    simp only [getElem?_map] at htype
    constructor
    · intro hk
      obtain ⟨v, hv, hflow⟩ := h.flows k hk
      have hflow : root.typeOf v = some .flow := of_decide_eq_true hflow
      rw [hv, Option.map_some, hflow] at htype
      obtain ⟨type, htype', heq⟩ := Option.map_eq_some_iff.mp htype.symm
      cases heq
      exact htype'
    · intro hk
      rw [hk, Option.map_some] at htype
      obtain ⟨v, hv, hflow⟩ := Option.map_eq_some_iff.mp htype
      obtain ⟨n, e, hn, -, -⟩ := h.carries k v hv (decide_eq_true hflow)
      rw [hn]
      rfl
  rw [any_eq_false]
  constructor
  · intro hnone hflow
    obtain ⟨k, hk⟩ := getElem?_of_mem hflow
    have hsome := (hindex k).mpr hk
    cases houtput : outputs[k]? with
    | none => simp [houtput] at hsome
    | some output =>
      exact hnone output (mem_of_getElem? houtput) (by simpa [houtput] using hsome)
  · intro hflow output houtput hsome
    obtain ⟨k, hk⟩ := getElem?_of_mem houtput
    exact hflow (mem_of_getElem? ((hindex k).mp (by rw [hk]; exact hsome)))

/-- **The check of a root accepts exactly the Flow contract**, in which no order enters. -/
theorem verifyRoot_ok_iff : model.verifyRoot root = .ok () ↔ model.FlowContract root := by
  unfold verifyRoot
  split
  case isTrue hinput => exact ⟨nofun, fun h => absurd hinput h.closed.1⟩
  case isFalse hinput =>
    have hfed : model.Fed root root [] (List.replicate root.inputs.length none) ⟨[], 0⟩ :=
      fun k hk => absurd (mem_of_getElem? hk) hinput
    cases hrun : model.analyze (kMaxModelAnalysisNodes + 1) root
        (List.replicate root.inputs.length none) [] ⟨[], 0⟩ with
    | error message =>
      simp only [bind]
      refine ⟨nofun, fun h => ?_⟩
      obtain ⟨outputs, s, hok⟩ := analyze_complete hverified hroot root _ _ _ .root hfed h.wired
        (by simpa using h.limit)
      rw [hrun] at hok
      cases hok
    | ok result =>
      obtain ⟨outputs, s⟩ := result
      have h := analyze_sound hverified hroot root _ _ _ outputs s .root hfed hrun
      have houtputs := any_isSome_iff hverified hroot h
      have hnets := forM_nets_ok_iff hverified hroot h.joins
      have hvisited := h.visited
      have hlimit := h.limit
      simp only [bind, Except.bind]
      split
      case isTrue hsome =>
        refine ⟨nofun, fun hcontract => ?_⟩
        rw [houtputs.mpr hcontract.closed.2] at hsome
        cases hsome
      case isFalse hsome =>
        rw [hnets]
        constructor
        · intro hexports
          refine ⟨⟨hinput, houtputs.mp (by simpa using hsome)⟩, h.wired, ?_, hexports⟩
          rw [hvisited] at hlimit
          simpa using hlimit
        · exact fun hcontract => hcontract.exports

theorem FlowContract.import_source (h : model.FlowContract root) {i : Endpoint}
    (hi : model.Under root .flowImport [] i) :
    ∃ e, model.Under root .flowExport [] e ∧ model.Connected root e i := by
  have hfed : model.Fed root root [] (List.replicate root.inputs.length none) ⟨[], 0⟩ :=
    fun k hk => absurd (mem_of_getElem? hk) h.closed.1
  obtain ⟨outputs, s, hrun⟩ := analyze_complete hverified hroot root _ _ _ .root hfed h.wired
    (by simpa using h.limit)
  obtain ⟨es, links, hgrows, hes, hlinks, hconnected⟩ :=
    (analyze_sound hverified hroot root _ _ _ outputs s .root hfed hrun).joins
  obtain ⟨⟨e, i'⟩, hl, rfl⟩ := mem_map.mp ((hlinks.2 i).mpr hi)
  have hlink : (some e, i') ∈ s.links := by
    rw [hgrows.links.mem_iff]
    exact mem_append_right _ (mem_map.mpr ⟨(e, i'), hl, rfl⟩)
  obtain ⟨net, hnet, hsink⟩ := mem_flatMap.mp hlink
  obtain ⟨sink, -, heq⟩ := mem_map.mp hsink
  have hsource : some e ∈ es.map some := by
    have hmem := mem_map_of_mem (f := source) hnet
    rw [hgrows.sources, (Prod.mk.inj heq).1] at hmem
    simpa using hmem
  obtain ⟨e', he', heq'⟩ := mem_map.mp hsource
  cases heq'
  exact ⟨e, (hes.2 e).mp he', hconnected _ hl⟩

end contract

end Model

end AgenticCircuit.Analysis
