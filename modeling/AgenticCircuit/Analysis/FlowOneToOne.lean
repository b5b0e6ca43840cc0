import AgenticCircuit.Analysis.FlowConnections

/-! # Flow connections are one-to-one outside collections

An accepted model has one-to-one connections among the endpoints that are reached through `ac.instance`
only, in whatever order its bodies are written.  The endpoints below an `ac.array` or an `ac.instances`
are never visited: the connections of the whole hierarchy are one-to-one exactly when those are. -/

namespace AgenticCircuit.Analysis.Model

variable {model model' : Model} {root root' : Module} {path : Path} {e : Endpoint} {kind : Kind}

/-! ### The order of the bodies -/

theorem Under.reordered (h : Reordered model model') (hroot : SameBody root root')
    (he : model.Under root kind path e) :
    model'.Under root' kind path e :=
  ⟨he.1.reordered h hroot, he.2.1.reordered h hroot, he.2.2⟩

theorem FlowContract.reordered (h : Reordered model model') (hroot : SameBody root root')
    (hcontract : model.FlowContract root) : model'.FlowContract root' where
  closed := by
    rw [RootClosed, hroot.inputs, hroot.outputs]
    exact hcontract.closed
  wired := hcontract.wired.reordered h hroot
  limit := by
    rw [instanceCount_reordered h hroot]
    exact hcontract.limit
  exports e he := by
    obtain ⟨i, ⟨hi, hei⟩, hunique⟩ := hcontract.exports e (he.reordered h.symm hroot.symm)
    refine ⟨i, ⟨hi.reordered h hroot, hei.reordered h hroot⟩, ?_⟩
    rintro j ⟨hj, hej⟩
    exact hunique j ⟨hj.reordered h.symm hroot.symm, hej.reordered h.symm hroot.symm⟩

/-- An accepted model is accepted in every order of its bodies. -/
theorem verifyFlowConnections_reordered (hverified : model.Verified)
    (hroot : model.selectedRoot = some root) (haccepted : model.verifyFlowConnections = .ok ())
    (h : Reordered model model') : model'.verifyFlowConnections = .ok () := by
  obtain ⟨root', hroot', hsame⟩ := h.selectedRoot hroot
  unfold verifyFlowConnections at haccepted ⊢
  rw [hroot] at haccepted
  rw [hroot']
  have hcontract := (verifyRoot_ok_iff hverified (mem_modules_of_selectedRoot hroot)).mp haccepted
  exact (verifyRoot_ok_iff (h.verified hverified) (mem_modules_of_selectedRoot hroot')).mpr
    (hcontract.reordered h hsame)

/-! ### Visited and hidden endpoints -/

theorem under_nil :
    model.Under root kind [] e ↔ model.IsEndpoint root kind e ∧ model.Direct root e.1 := by
  simp [Under]

section hidden

variable (hverified : model.Verified) (hroot : root ∈ model.modules)
  (hcontract : model.FlowContract root)
include hverified hroot hcontract

theorem FlowContract.direct_of_import {e i : Endpoint} (he : model.IsEndpoint root .flowExport e)
    (hi : model.IsEndpoint root .flowImport i) (hdirect : model.Direct root i.1)
    (hei : model.Connected root e i) : model.Direct root e.1 := by
  obtain ⟨e', he', hei'⟩ := hcontract.import_source hverified hroot (under_nil.mpr ⟨hi, hdirect⟩)
  obtain rfl := Connected.unique hverified hroot he he'.1 hei hei'
  exact he'.2.1

theorem FlowContract.hidden_of_oneToOne (h : model.OneToOneOn root fun _ => True) :
    model.OneToOneOn root fun path => ¬ model.Direct root path := by
  refine ⟨fun e he hhidden => ?_, fun i hi hhidden => ?_⟩
  · obtain ⟨i, ⟨⟨hi, -⟩, hei⟩, hunique⟩ := h.1 e he trivial
    have hi' : ¬ model.Direct root i.1 := fun hdirect =>
      hhidden (hcontract.direct_of_import hverified hroot he hi hdirect hei)
    exact ⟨i, ⟨⟨hi, hi'⟩, hei⟩, fun j hj => hunique j ⟨⟨hj.1.1, trivial⟩, hj.2⟩⟩
  · obtain ⟨e, ⟨⟨he, -⟩, hei⟩, hunique⟩ := h.2 i hi trivial
    have he' : ¬ model.Direct root e.1 := by
      intro hdirect
      obtain ⟨j, ⟨hj, hej⟩, -⟩ := hcontract.exports e (under_nil.mpr ⟨he, hdirect⟩)
      obtain ⟨k, -, honly⟩ := h.1 e he trivial
      have hjk := honly j ⟨⟨hj.1, trivial⟩, hej⟩
      have hik := honly i ⟨⟨hi, trivial⟩, hei⟩
      rw [hik, ← hjk] at hhidden
      exact hhidden hj.2.1
    exact ⟨e, ⟨⟨he, he'⟩, hei⟩, fun d hd => hunique d ⟨⟨hd.1.1, trivial⟩, hd.2⟩⟩

theorem FlowContract.oneToOne_of_hidden
    (h : model.OneToOneOn root fun path => ¬ model.Direct root path) :
    model.OneToOneOn root fun _ => True := by
  refine ⟨fun e he _ => ?_, fun i hi _ => ?_⟩
  · by_cases hdirect : model.Direct root e.1
    · obtain ⟨i, ⟨hi, hei⟩, hunique⟩ := hcontract.exports e (under_nil.mpr ⟨he, hdirect⟩)
      refine ⟨i, ⟨⟨hi.1, trivial⟩, hei⟩, ?_⟩
      rintro j ⟨⟨hj, -⟩, hej⟩
      refine hunique j ⟨under_nil.mpr ⟨hj, ?_⟩, hej⟩
      -- a hidden import has a hidden source, which is `e`
      by_contra hhidden
      obtain ⟨e', ⟨⟨he', hhidden'⟩, hej'⟩, -⟩ := h.2 j hj hhidden
      obtain rfl := Connected.unique hverified hroot he he' hej hej'
      exact hhidden' hdirect
    · obtain ⟨i, ⟨⟨hi, -⟩, hei⟩, hunique⟩ := h.1 e he hdirect
      refine ⟨i, ⟨⟨hi, trivial⟩, hei⟩, ?_⟩
      rintro j ⟨⟨hj, -⟩, hej⟩
      refine hunique j ⟨⟨hj, fun hj' => hdirect ?_⟩, hej⟩
      exact hcontract.direct_of_import hverified hroot he hj hj' hej
  · have hsource : ∃ e, model.IsEndpoint root .flowExport e ∧ model.Connected root e i := by
      by_cases hdirect : model.Direct root i.1
      · obtain ⟨e, he, hei⟩ :=
          hcontract.import_source hverified hroot (under_nil.mpr ⟨hi, hdirect⟩)
        exact ⟨e, he.1, hei⟩
      · obtain ⟨e, ⟨⟨he, -⟩, hei⟩, -⟩ := h.2 i hi hdirect
        exact ⟨e, he, hei⟩
    obtain ⟨e, he, hei⟩ := hsource
    refine ⟨e, ⟨⟨he, trivial⟩, hei⟩, ?_⟩
    rintro e' ⟨⟨he', -⟩, hei'⟩
    exact Connected.unique hverified hroot he' he hei' hei

end hidden

/-- **Flow connections are one-to-one exactly when those below collections are.** -/
theorem oneToOne_iff_below_collections (model : Model) (root : Module) (hverified : model.Verified)
    (hroot : model.selectedRoot = some root) (h : model.verifyFlowConnections = .ok ()) :
    (model.OneToOneOn root (fun _ => True) ∧ RootClosed root ∧
      ∀ model', Reordered model model' → model'.verifyFlowConnections = .ok ()) ↔
    model.OneToOneOn root fun path => ¬ model.Direct root path := by
  have hmodule := mem_modules_of_selectedRoot hroot
  have hcontract : model.FlowContract root := by
    unfold verifyFlowConnections at h
    rw [hroot] at h
    exact (verifyRoot_ok_iff hverified hmodule).mp h
  constructor
  · exact fun hclaim => hcontract.hidden_of_oneToOne hverified hmodule hclaim.1
  · intro hhidden
    refine ⟨hcontract.oneToOne_of_hidden hverified hmodule hhidden, hcontract.closed, ?_⟩
    exact fun model' hmodel' => verifyFlowConnections_reordered hverified hroot h hmodel'

theorem direct_of_instances (hmodel : ∀ m ∈ model.modules, ∀ op ∈ m.body,
      op.kind.elements = [] ∨ ∃ d ∈ op.kind.definitions, op.kind = .instanceOf d)
    (hroot : root ∈ model.modules) {m : Module}
    (hm : model.Elaborates root path m) : model.ThroughInstances root path m := by
  induction hm with
  | root => exact .root
  | @element path m c op e d hm hop hd hc ih =>
    obtain hempty | ⟨d', -, hkind⟩ := hmodel m (hm.mem_modules hroot) op hop
    · simp [hempty] at hd
    · simp only [Kind.elements] at hd
      obtain ⟨rfl, rfl⟩ : e = 0 ∧ d' = d := by
        by_cases he : e = 0 <;> simp_all
      exact .step ih hop hkind hc

/-! ### A producer, a relay and a consumer -/

def flowProducer : Module where
  name := "Producer"
  inputs := []
  outputs := [.flow]
  body := [⟨0, .queue, "out", "", [], []⟩, ⟨1, .flowExport, "", "", [], [.flow]⟩,
    ⟨2, .process, "produce", "", [], []⟩]
  returns := [.result 1 0]
  ids := by decide
  defined := by decide

def flowRelay : Module where
  name := "Relay"
  inputs := [.flow]
  outputs := [.flow]
  body := []
  returns := [.argument 0]
  ids := by decide
  defined := by decide

def flowConsumer : Module where
  name := "Consumer"
  inputs := [.flow]
  outputs := []
  body := [⟨0, .queue, "in", "", [], []⟩, ⟨1, .flowImport, "", "", [.argument 0], []⟩,
    ⟨2, .process, "consume", "", [], []⟩]
  returns := []
  ids := by decide
  defined := by decide

/-- The consumer stands before the relay and the producer. -/
def flowTop : Module where
  name := "Top"
  inputs := []
  outputs := []
  body := [⟨0, .instanceOf "Consumer", "consumer", "", [.result 1 0], []⟩,
    ⟨1, .instanceOf "Relay", "relay", "", [.result 2 0], [.flow]⟩,
    ⟨2, .instanceOf "Producer", "producer", "", [], [.flow]⟩,
    ⟨3, .process, "control", "", [], []⟩]
  returns := []
  ids := by decide
  defined := by decide

def flowChain : Model where
  definitions := [.module flowProducer, .module flowRelay, .module flowConsumer, .module flowTop]
  systems := [⟨"Top", "root", true⟩]
  names := by decide

theorem oneToOne_flowChain : flowChain.verifyFlowConnections = .ok () ∧
    flowChain.OneToOneOn flowTop fun _ => True := by
  have haccepted : flowChain.verifyFlowConnections = .ok () := by decide +kernel
  refine ⟨haccepted, ((oneToOne_iff_below_collections flowChain flowTop (by decide +kernel) rfl
    haccepted).mpr ?_).1⟩
  have hdirect : ∀ kind e, flowChain.IsEndpoint flowTop kind e → flowChain.Direct flowTop e.1 := by
    rintro kind e ⟨m, op, hm, -⟩
    exact (direct_of_instances (by decide +kernel) (mem_modules_of_selectedRoot rfl) hm).direct
  exact ⟨fun e he hhidden => absurd (hdirect _ e he) hhidden,
    fun i hi hhidden => absurd (hdirect _ i hi) hhidden⟩

/-! ### An export below an array -/

def flowLeaf : Module where
  name := "Leaf"
  inputs := []
  outputs := []
  body := [⟨0, .queue, "out", "", [], []⟩, ⟨1, .flowExport, "", "", [], [.flow]⟩]
  returns := []
  ids := by decide
  defined := by decide

def flowArrayTop : Module where
  name := "Top"
  inputs := []
  outputs := []
  body := [⟨0, .arrayOf "Leaf" [1], "leafs", "", [], []⟩]
  returns := []
  ids := by decide
  defined := by decide

/-- The export of the only element of the array is connected to nothing. -/
def flowArray : Model where
  definitions := [.module flowLeaf, .module flowArrayTop]
  systems := [⟨"Top", "root", true⟩]
  names := by decide

/-- **An export below an array need not be connected.** -/
theorem flowArray_dangling : ¬ ∀ (model : Model) (root : Module), model.Verified →
    model.selectedRoot = some root → model.verifyFlowConnections = .ok () →
      model.OneToOneOn root (fun _ => True) ∧ RootClosed root ∧
        ∀ model', Reordered model model' → model'.verifyFlowConnections = .ok () := by
  intro hclaim
  have h := (hclaim flowArray flowArrayTop (by decide +kernel) rfl (by decide +kernel)).1
  have hop : (⟨0, .arrayOf "Leaf" [1], "leafs", "", [], []⟩ : Operation) ∈ flowArrayTop.body := by
    simp [flowArrayTop]
  have hleaf : flowArray.Elaborates flowArrayTop [(0, 0)] flowLeaf := .element .root hop rfl rfl
  have hexport : (⟨1, .flowExport, "", "", [], [.flow]⟩ : Operation) ∈ flowLeaf.body := by
    simp [flowLeaf]
  obtain ⟨i, ⟨⟨⟨m, op, hm, hop, hkind, -⟩, -⟩, -⟩, -⟩ :=
    h.1 ([(0, 0)], 1) ⟨flowLeaf, _, hleaf, hexport, rfl, rfl⟩ trivial
  -- no operation of the model is an import
  have himports : ∀ m ∈ flowArray.modules, ∀ op ∈ m.body, op.kind ≠ .flowImport := by
    decide +kernel
  exact himports m (hm.mem_modules (mem_modules_of_selectedRoot rfl)) op hop hkind

end AgenticCircuit.Analysis.Model
