import AgenticCircuit.Transforms.CanonicalOrder
import Mathlib.Algebra.BigOperators.Group.List.Basic

/-! # When canonicalization forgets the order of the siblings

The key of an operation does not contain its operands, its results or its regions, so two
siblings that differ only there keep the order they came in.  The main result
`canonical_iff_separated` says that nothing else goes wrong: the canonical model is the same
for every reordering of the siblings exactly when siblings with one key are interchangeable.
Canonicalizing twice never changes anything.

`Model.canonical` is the form the pass computes (`sortModel_eq`), written so that the
rewriting of headers comes first and the sorting of the top level last. -/

namespace AgenticCircuit.Transforms

open List Operation Argument
open StableSort

/-! ### Rewriting and walking -/

theorem rewriteOperations_eq_map (f : Header → Header) (g : Argument → Argument)
    (l : List Operation) : rewriteOperations f g l = l.map (rewrite f g) := by
  induction l with
  | nil => rfl
  | cons op l ih => rw [rewriteOperations, ih, map_cons]

theorem walkOperations_eq_flatMap (depth : Nat) (l : List Operation) :
    walkOperations depth l = l.flatMap (walk depth) := by
  induction l with
  | nil => rfl
  | cons op l ih => rw [walkOperations, ih, flatMap_cons]

@[simp] theorem header_rewrite (f : Header → Header) (g : Argument → Argument) (op : Operation) :
    (op.rewrite f g).header = f op.header := by
  cases op
  rfl

section rewrite
variable (f f' : Header → Header) (g g' : Argument → Argument)

mutual

theorem Operation.rewrite_rewrite : ∀ op : Operation,
    (op.rewrite f g).rewrite f' g' = op.rewrite (f' ∘ f) (g' ∘ g)
  | .mk header regions => by
    simp only [rewrite, regions_rewrite regions, Function.comp_apply]

theorem Region.rewrite_rewrite : ∀ region : Region,
    (region.rewrite f g).rewrite f' g' = region.rewrite (f' ∘ f) (g' ∘ g)
  | .mk blocks => by simp only [Region.rewrite, blocks_rewrite blocks]

theorem Block.rewrite_rewrite : ∀ block : Block,
    (block.rewrite f g).rewrite f' g' = block.rewrite (f' ∘ f) (g' ∘ g)
  | .mk arguments operations => by
    simp only [Block.rewrite, operations_rewrite operations, map_map]

theorem regions_rewrite : ∀ regions : List Region,
    rewriteRegions f' g' (rewriteRegions f g regions) = rewriteRegions (f' ∘ f) (g' ∘ g) regions
  | [] => rfl
  | region :: regions => by
    simp only [rewriteRegions, region.rewrite_rewrite, regions_rewrite regions]

theorem blocks_rewrite : ∀ blocks : List Block,
    rewriteBlocks f' g' (rewriteBlocks f g blocks) = rewriteBlocks (f' ∘ f) (g' ∘ g) blocks
  | [] => rfl
  | block :: blocks => by
    simp only [rewriteBlocks, block.rewrite_rewrite, blocks_rewrite blocks]

theorem operations_rewrite : ∀ operations : List Operation,
    rewriteOperations f' g' (rewriteOperations f g operations) =
      rewriteOperations (f' ∘ f) (g' ∘ g) operations
  | [] => rfl
  | op :: operations => by
    simp only [rewriteOperations, op.rewrite_rewrite, operations_rewrite operations]

end

end rewrite

/-- What preflight and freeze evidence read of a header. -/
def Header.shape (h : Header) : Nat × List String :=
  (h.operands.length, h.attributes.map Prod.fst)

def shapes (walk : List (Nat × Header)) : List (Nat × Nat × List String) :=
  walk.map fun item => (item.1, item.2.shape)

theorem shapes_append (l l' : List (Nat × Header)) : shapes (l ++ l') = shapes l ++ shapes l' :=
  map_append

section walk
variable (f : { f : Header → Header // ∀ h : Header, (f h).shape = h.shape })
  (g : Argument → Argument)

mutual

theorem Operation.shapes_rewrite (depth : Nat) : ∀ op : Operation,
    shapes ((op.rewrite f.1 g).walk depth) = shapes (op.walk depth)
  | .mk header regions => by
    have h := shapes_rewriteRegions depth regions
    simp only [shapes, rewrite, walk, map_cons, f.2] at h ⊢
    rw [h]

theorem Region.shapes_rewrite (depth : Nat) : ∀ region : Region,
    shapes ((region.rewrite f.1 g).walk depth) = shapes (region.walk depth)
  | .mk blocks => by
    simp only [Region.rewrite, Region.walk, shapes_rewriteBlocks depth blocks]

theorem Block.shapes_rewrite (depth : Nat) : ∀ block : Block,
    shapes ((block.rewrite f.1 g).walk depth) = shapes (block.walk depth)
  | .mk arguments operations => by
    simp only [Block.rewrite, Block.walk, shapes_rewriteOperations (depth + 1) operations]

theorem shapes_rewriteRegions (depth : Nat) : ∀ regions : List Region,
    shapes (walkRegions depth (rewriteRegions f.1 g regions)) = shapes (walkRegions depth regions)
  | [] => rfl
  | region :: regions => by
    simp only [rewriteRegions, walkRegions, shapes_append, region.shapes_rewrite depth,
      shapes_rewriteRegions depth regions]

theorem shapes_rewriteBlocks (depth : Nat) : ∀ blocks : List Block,
    shapes (walkBlocks depth (rewriteBlocks f.1 g blocks)) = shapes (walkBlocks depth blocks)
  | [] => rfl
  | block :: blocks => by
    simp only [rewriteBlocks, walkBlocks, shapes_append, block.shapes_rewrite depth,
      shapes_rewriteBlocks depth blocks]

theorem shapes_rewriteOperations (depth : Nat) : ∀ operations : List Operation,
    shapes (walkOperations depth (rewriteOperations f.1 g operations)) =
      shapes (walkOperations depth operations)
  | [] => rfl
  | op :: operations => by
    simp only [rewriteOperations, walkOperations, shapes_append, op.shapes_rewrite depth,
      shapes_rewriteOperations depth operations]

end

end walk

/-! ### Preflight and freeze evidence do not see the order -/

variable {m m' : Model} {f : Header → Header} {g : Argument → Argument}

theorem foldlM_visit_isSome_iff (limits : RawModelStructureLimits) (l : List (Nat × Header))
    {nodes edges : Nat} (hnodes : nodes ≤ limits.maxNodes) (hedges : edges ≤ limits.maxEdges) :
    (l.foldlM (visit limits) (nodes, edges)).isSome = true ↔
      (∀ item ∈ shapes l, item.1 ≤ limits.maxNestedRegionDepth) ∧
        nodes + (shapes l).length ≤ limits.maxNodes ∧
        edges + ((shapes l).map fun item => item.2.1).sum ≤ limits.maxEdges := by
  induction l generalizing nodes edges with
  | nil => simp [shapes, hnodes, hedges]
  | cons item l ih =>
    simp only [foldlM_cons, shapes, map_cons, forall_mem_cons, length_cons,
      sum_cons, Header.shape] at ih ⊢
    by_cases hdepth : limits.maxNestedRegionDepth < item.1
    · have hvisit : visit limits (nodes, edges) item = none := by simp [visit, hdepth]
      rw [hvisit]
      exact ⟨fun h => absurd h (by simp), fun h => absurd h.1.1 (by omega)⟩
    · by_cases hroom : nodes = limits.maxNodes ∨
          limits.maxEdges - edges < item.2.operands.length
      · have hvisit : visit limits (nodes, edges) item = none := by simp [visit, hroom]
        rw [hvisit]
        exact ⟨fun h => absurd h (by simp), fun h => by omega⟩
      · have hvisit : visit limits (nodes, edges) item =
            some (nodes + 1, edges + item.2.operands.length) := by
          simp [visit, hdepth, hroom]
        rw [hvisit, Option.bind_eq_bind, Option.bind_some, ih (by omega) (by omega)]
        constructor
        · rintro ⟨hd, hn, he⟩
          exact ⟨⟨by omega, hd⟩, by omega, by omega⟩
        · rintro ⟨⟨_, hd⟩, hn, he⟩
          exact ⟨hd, by omega, by omega⟩

/-- The two models have the same operations as far as preflight and evidence can tell. -/
def SameShape (m m' : Model) : Prop := (shapes m.walk).Perm (shapes m'.walk)

theorem SameShape.preflight (h : SameShape m m') :
    preflightRawModelStructure m = preflightRawModelStructure m' := by
  unfold preflightRawModelStructure
  rw [Bool.eq_iff_iff, foldlM_visit_isSome_iff _ _ (Nat.zero_le _) (Nat.zero_le _),
    foldlM_visit_isSome_iff _ _ (Nat.zero_le _) (Nat.zero_le _), h.length_eq,
    (h.map fun item => item.2.1).sum_eq]
  simp only [h.mem_iff]

theorem hasTopologyFreezeEvidence_eq (m : Model) :
    hasTopologyFreezeEvidence m = (shapes m.walk).any fun item => item.2.2.any isFreezeEvidence := by
  simp [hasTopologyFreezeEvidence, shapes, Header.shape, Function.comp_def]

theorem SameShape.evidence (h : SameShape m m') :
    hasTopologyFreezeEvidence m = hasTopologyFreezeEvidence m' := by
  rw [hasTopologyFreezeEvidence_eq, hasTopologyFreezeEvidence_eq, Bool.eq_iff_iff,
    any_eq_true, any_eq_true]
  simp only [h.mem_iff]

/-! ### The canonical form -/

/-- The first body block with its operations rewritten by `f`. -/
def Operation.mapFront (f : List Operation → List Operation) : Operation → Operation
  | .mk header (.mk (.mk arguments operations :: blocks) :: regions) =>
    .mk header (.mk (.mk arguments (f operations) :: blocks) :: regions)
  | op => op

/-- The operations of the first body block. -/
def Operation.front : Operation → List Operation
  | .mk _ (.mk (.mk _ operations :: _) :: _) => operations
  | _ => []

/-- The rank that orders the body of an operation, for the four kinds whose body is sorted. -/
def bodyRank (name : OperationName) : Option (OperationName → Nat) :=
  if name.text = "ac.module" then some graphRank
  else if name.text = "ac.type_scope" then some typeScopeRank
  else if name.text = "ac.interface" then some interfaceRank
  else if name.text = "ac.protocol" then some protocolRank
  else none

/-- The operation with its body sorted, where its kind has a sorted body. -/
def Operation.sortChildren (op : Operation) : Operation :=
  (bodyRank op.name).elim op fun rank => op.mapFront (List.insertionSort (notAfter rank))

/-- The header as the canonical model has it. -/
def Header.prepare (h : Header) : Header := h.normalizeAddressMap.dropLocation

/-- The operation with address maps in normal form and without locations. -/
def Operation.prepare (op : Operation) : Operation :=
  op.rewrite Header.prepare dropLocation

/-- The form canonicalization gives a model that is not frozen. -/
def Model.canonical (m : Model) : Model where
  header := m.header.prepare
  body := ((m.body.map prepare).map Operation.sortChildren).insertionSort
    (notAfter topLevelRank)

@[simp] theorem header_mapFront (f : List Operation → List Operation) (op : Operation) :
    (op.mapFront f).header = op.header := by
  unfold mapFront
  split <;> rfl

@[simp] theorem header_sortChildren (op : Operation) : op.sortChildren.header = op.header := by
  unfold Operation.sortChildren
  cases bodyRank op.name <;> simp

@[simp] theorem header_prepare (op : Operation) : op.prepare.header = op.header.prepare :=
  header_rewrite _ _ op

theorem orderKey_congr {rank : OperationName → Nat} {a b : Operation}
    (h : b.header.name = a.header.name ∧ b.header.attributes = a.header.attributes) :
    orderKey rank b = orderKey rank a := by
  have hname : b.name = a.name := h.1
  have hsym : b.header.symName? = a.header.symName? := by
    unfold Header.symName?
    rw [h.2]
  rw [orderKey, orderKey, restKey, restKey, isTransition_congr hname, hname, hsym, h.2]

theorem map_insertionSort_notAfter {f : Operation → Operation}
    (hf : ∀ op, (f op).header.name = op.header.name ∧
      (f op).header.attributes = op.header.attributes) (rank : OperationName → Nat)
    (l : List Operation) :
    (l.insertionSort (notAfter rank)).map f = (l.map f).insertionSort (notAfter rank) :=
  map_insertionSort _ _ _ _ fun a _ b _ => by
    rw [notAfter_iff, notAfter_iff, orderKey_congr (hf a), orderKey_congr (hf b)]

theorem map_fst_of_map_snd {operations : List Operation} {sorted : List (Operation × Nat)}
    (hperm : sorted.Perm operations.zipIdx)
    (h : sorted.map Prod.snd = operations.zipIdx.map Prod.snd) :
    sorted.map Prod.fst = operations := by
  -- a pair of the block is known by its place
  have hplace : ∀ l : List (Operation × Nat), (∀ pair ∈ l, pair ∈ operations.zipIdx) →
      (l.map Prod.snd).map (fun i => operations[i]?) = (l.map Prod.fst).map some := by
    intro l hl
    rw [map_map, map_map]
    refine map_congr_left fun pair hpair => ?_
    exact mem_zipIdx_iff_getElem?.mp (hl pair hpair)
  have hsorted := hplace sorted fun pair hpair => hperm.subset hpair
  rw [h, hplace _ fun pair hpair => hpair, zipIdx_map_fst] at hsorted
  exact (map_injective_iff.mpr (Option.some_injective _) hsorted).symm

theorem sortBlock_false (operations : List Operation) (rank : OperationName → Nat) :
    sortBlock operations false rank = .ok (operations.insertionSort (notAfter rank)) := by
  have hmap : (operations.zipIdx.insertionSort fun left right =>
      notAfter rank left.1 right.1).map Prod.fst = operations.insertionSort (notAfter rank) := by
    rw [map_insertionSort _ (notAfter rank) _ _ fun _ _ _ _ => Iff.rfl,
      zipIdx_map_fst]
  unfold sortBlock
  dsimp only
  split
  · rename_i h
    rw [← hmap, map_fst_of_map_snd (perm_insertionSort _ _) h]
  · simp [hmap]

theorem sortBody_false (rank : OperationName → Nat) : ∀ op : Operation,
    op.sortBody false rank = .ok (op.mapFront (insertionSort (notAfter rank)))
  | .mk header (.mk (.mk arguments operations :: blocks) :: regions) => by
    rw [sortBody, sortBlock_false]
    rfl
  | .mk _ (.mk [] :: _) => rfl
  | .mk _ [] => rfl

/-- The operation after the pass over the bodies of one kind. -/
def Operation.sortKind (kind : String) (rank : OperationName → Nat) (op : Operation) : Operation :=
  if op.name.text = kind then op.mapFront (List.insertionSort (notAfter rank)) else op

theorem sortBodies_false (kind : String) (rank : OperationName → Nat) (l : List Operation) :
    sortBodies kind false rank l = .ok (l.map (sortKind kind rank)) := by
  unfold sortBodies
  induction l with
  | nil => rfl
  | cons op l ih =>
    rw [mapM_cons, ih, map_cons]
    by_cases hkind : op.name.text = kind
    · simp only [hkind, sortBody_false, sortKind]
      rfl
    · simp only [hkind, sortKind]
      rfl

theorem sortKind_all (op : Operation) :
    (((op.sortKind "ac.module" graphRank).sortKind "ac.type_scope" typeScopeRank).sortKind
      "ac.interface" interfaceRank).sortKind "ac.protocol" protocolRank = op.sortChildren := by
  have hname : ∀ f, (op.mapFront f).name = op.name := fun f => by simp [name]
  unfold Operation.sortChildren bodyRank sortKind
  by_cases h1 : op.name.text = "ac.module"
  · simp [h1, hname]
  by_cases h2 : op.name.text = "ac.type_scope"
  · simp [h2, hname]
  by_cases h3 : op.name.text = "ac.interface"
  · simp [h3, hname]
  by_cases h4 : op.name.text = "ac.protocol"
  · simp [h4]
  · simp [h1, h2, h3, h4]

theorem mapFront_rewrite (hf : ∀ h : Header, (f h).name = h.name ∧ (f h).attributes = h.attributes)
    (rank : OperationName → Nat) : ∀ op : Operation,
    (op.mapFront (insertionSort (notAfter rank))).rewrite f g =
      (op.rewrite f g).mapFront (insertionSort (notAfter rank))
  | .mk header (.mk (.mk arguments operations :: blocks) :: regions) => by
    have hkeep : ∀ op : Operation, (op.rewrite f g).header.name = op.header.name ∧
        (op.rewrite f g).header.attributes = op.header.attributes := by
      intro op
      rw [header_rewrite]
      exact hf _
    simp only [mapFront, rewrite, rewriteRegions, Region.rewrite,
      rewriteBlocks, Block.rewrite, rewriteOperations_eq_map,
      map_insertionSort_notAfter hkeep]
  | .mk _ (.mk [] :: _) => rfl
  | .mk _ [] => rfl

theorem sortChildren_rewrite
    (hf : ∀ h : Header, (f h).name = h.name ∧ (f h).attributes = h.attributes) (op : Operation) :
    op.sortChildren.rewrite f g = (op.rewrite f g).sortChildren := by
  have hname : (op.rewrite f g).name = op.name := by
    unfold name
    rw [header_rewrite]
    exact (hf _).1
  unfold Operation.sortChildren
  rw [hname]
  cases bodyRank op.name with
  | none => rfl
  | some rank => exact mapFront_rewrite hf rank op

theorem dropLocation_keeps (h : Header) :
    h.dropLocation.name = h.name ∧ h.dropLocation.attributes = h.attributes := ⟨rfl, rfl⟩

theorem sortChildren_prepare (op : Operation) :
    ((op.rewrite Header.normalizeAddressMap id).sortChildren).rewrite Header.dropLocation
      dropLocation = op.prepare.sortChildren := by
  rw [sortChildren_rewrite dropLocation_keeps, rewrite_rewrite]
  rfl

theorem sortModel_eq (m : Model) : sortModel m = .ok m.canonical := by
  have hkeep : ∀ op : Operation,
      (op.sortChildren.rewrite Header.dropLocation dropLocation).header.name = op.header.name ∧
        (op.sortChildren.rewrite Header.dropLocation dropLocation).header.attributes =
          op.header.attributes := by
    intro op
    rw [header_rewrite, header_sortChildren]
    exact dropLocation_keeps _
  have hsort : ∀ l : List Operation,
      ((l.insertionSort (notAfter topLevelRank)).map Operation.sortChildren).map
        (rewrite Header.dropLocation dropLocation) =
      (l.map fun op => op.sortChildren.rewrite Header.dropLocation
        dropLocation).insertionSort (notAfter topLevelRank) := by
    intro l
    rw [map_map]
    exact map_insertionSort_notAfter hkeep topLevelRank l
  have hpasses : ∀ l : List Operation,
      (((l.map (sortKind "ac.module" graphRank)).map
        (sortKind "ac.type_scope" typeScopeRank)).map
        (sortKind "ac.interface" interfaceRank)).map
        (sortKind "ac.protocol" protocolRank) = l.map Operation.sortChildren := by
    intro l
    rw [map_map, map_map, map_map]
    exact map_congr_left fun op _ => sortKind_all op
  unfold sortModel
  dsimp only
  rw [sortBlock_false]
  simp only [bind, Except.bind, sortBodies_false, hpasses, Model.rewrite, rewriteOperations_eq_map,
    hsort, normalizeAddressMaps]
  rw [Model.canonical, map_map, map_map]
  congr 3
  exact map_congr_left fun op _ => sortChildren_prepare op

/-! ### Canonicalizing twice -/

theorem normalizeAddressMap_dropLocation (h : Header) :
    h.dropLocation.normalizeAddressMap = h.normalizeAddressMap.dropLocation := by
  by_cases hname : h.name.text = "ac.address_map"
  · simp [Header.normalizeAddressMap, Header.dropLocation, hname]
  · simp [Header.normalizeAddressMap, Header.dropLocation, hname]

theorem Header.prepare_prepare (h : Header) : h.prepare.prepare = h.prepare := by
  unfold Header.prepare
  rw [normalizeAddressMap_dropLocation, normalizeAddressMap_idem]
  rfl

theorem prepare_prepare (op : Operation) : op.prepare.prepare = op.prepare := by
  have hheader : Header.prepare ∘ Header.prepare = Header.prepare := funext Header.prepare_prepare
  unfold prepare
  rw [rewrite_rewrite, hheader]
  rfl

theorem Header.shape_prepare (h : Header) : h.prepare.shape = h.shape := by
  by_cases hname : h.name.text = "ac.address_map"
  · simp [Header.prepare, Header.shape, Header.normalizeAddressMap, Header.dropLocation, hname]
  · simp [Header.prepare, Header.shape, Header.normalizeAddressMap, Header.dropLocation, hname]

theorem Header.name_prepare (h : Header) : h.prepare.name = h.name := by
  unfold Header.prepare Header.normalizeAddressMap
  split <;> rfl

@[simp] theorem name_prepare (op : Operation) : op.prepare.name = op.name := by
  simp [name, Header.name_prepare]

@[simp] theorem isTransition_prepare (op : Operation) : op.prepare.isTransition = op.isTransition :=
  isTransition_congr (name_prepare op)

@[simp] theorem name_sortChildren (op : Operation) : op.sortChildren.name = op.name := by
  simp [name]

theorem mapFront_mapFront (f f' : List Operation → List Operation) : ∀ op : Operation,
    (op.mapFront f).mapFront f' = op.mapFront (f' ∘ f)
  | .mk _ (.mk (.mk _ _ :: _) :: _) => rfl
  | .mk _ (.mk [] :: _) => rfl
  | .mk _ [] => rfl

theorem sortChildren_sortChildren (op : Operation) :
    op.sortChildren.sortChildren = op.sortChildren := by
  have hsort : ∀ rank, insertionSort (notAfter rank) ∘ insertionSort (notAfter rank) =
      insertionSort (notAfter rank) := fun rank =>
    funext fun l => (pairwise_insertionSort _ l).insertionSort_eq
  rw [Operation.sortChildren, name_sortChildren, Operation.sortChildren]
  cases bodyRank op.name with
  | none => rfl
  | some rank => simp [mapFront_mapFront, hsort]

theorem map_eq_self {f : Operation → Operation} {l : List Operation} :
    l.map f = l ↔ ∀ op ∈ l, f op = op := by
  simpa using @map_inj_left _ _ l f id

theorem rewrite_mapFront_of_fixed {s : List Operation → List Operation} (hs : ∀ l, s l ⊆ l) :
    ∀ op : Operation,
    op.rewrite f g = op → (op.mapFront s).rewrite f g = op.mapFront s
  | .mk header (.mk (.mk arguments operations :: blocks) :: regions), h => by
    simp only [rewrite, rewriteRegions, Region.rewrite, rewriteBlocks, Block.rewrite,
      Operation.mk.injEq, cons.injEq, Region.mk.injEq, Block.mk.injEq] at h
    obtain ⟨hheader, ⟨⟨harguments, hoperations⟩, hblocks⟩, hregions⟩ := h
    have hfixed : ∀ op ∈ operations, op.rewrite f g = op := by
      rw [rewriteOperations_eq_map] at hoperations
      exact fun op hop => map_eq_self.mp hoperations op hop
    have hsorted : rewriteOperations f g (s operations) = s operations := by
      rw [rewriteOperations_eq_map]
      exact map_eq_self.mpr fun op hop => hfixed op (hs _ hop)
    simp only [mapFront, rewrite, rewriteRegions, Region.rewrite,
      rewriteBlocks, Block.rewrite, hheader, harguments, hsorted, hblocks, hregions]
  | .mk _ (.mk [] :: _), h => h
  | .mk _ [], h => h

theorem prepare_sortChildren (op : Operation) :
    op.prepare.sortChildren.prepare = op.prepare.sortChildren := by
  unfold Operation.sortChildren
  cases bodyRank op.prepare.name with
  | none => exact prepare_prepare op
  | some rank =>
    exact rewrite_mapFront_of_fixed (fun l => (perm_insertionSort _ l).subset) _
      (prepare_prepare op)

theorem canonical_canonical (m : Model) : m.canonical.canonical = m.canonical := by
  have hmem : ∀ op ∈ m.canonical.body, ∃ raw : Operation, op = raw.prepare.sortChildren := by
    intro op hop
    obtain ⟨_, hprep, rfl⟩ := mem_map.mp ((mem_insertionSort _).mp hop)
    obtain ⟨raw, _, rfl⟩ := mem_map.mp hprep
    exact ⟨raw, rfl⟩
  have hprepare : m.canonical.body.map prepare = m.canonical.body := by
    refine map_eq_self.mpr fun op hop => ?_
    obtain ⟨raw, rfl⟩ := hmem op hop
    exact prepare_sortChildren raw
  have hchildren : m.canonical.body.map Operation.sortChildren = m.canonical.body := by
    refine map_eq_self.mpr fun op hop => ?_
    obtain ⟨raw, rfl⟩ := hmem op hop
    exact sortChildren_sortChildren _
  rw [Model.canonical, hprepare, hchildren]
  congr 1
  · exact Header.prepare_prepare _
  · exact (pairwise_insertionSort _ _).insertionSort_eq

/-! ### Reordering the siblings -/

/-- The two operations differ at most in the order of a sorted body, and agree on the order of
its transitions. -/
inductive Reordered : Operation → Operation → Prop
  | refl (op : Operation) : Reordered op op
  | body {header : Header} {arguments : List Argument} {operations operations' : List Operation}
      {blocks : List Block} {regions : List Region} (hkind : (bodyRank header.name).isSome = true)
      (h : Rearranged isTransition operations operations') :
      Reordered (.mk header (.mk (.mk arguments operations :: blocks) :: regions))
        (.mk header (.mk (.mk arguments operations' :: blocks) :: regions))

namespace Reordered

variable {a b c : Operation}

instance : Std.Refl Reordered := ⟨Reordered.refl⟩

theorem symm (h : Reordered a b) : Reordered b a := by
  cases h with
  | refl => exact .refl a
  | body hkind h => exact .body hkind h.symm

theorem trans (h : Reordered a b) (h' : Reordered b c) : Reordered a c := by
  cases h with
  | refl => exact h'
  | body hkind h =>
    cases h' with
    | refl => exact .body hkind h
    | body _ h' => exact .body hkind (h.trans h')

theorem header (h : Reordered a b) : b.header = a.header := by
  cases h <;> rfl

theorem prepare (h : Reordered a b) : Reordered a.prepare b.prepare := by
  cases h with
  | refl => exact .refl _
  | @body header arguments operations operations' blocks regions hkind h =>
    have hfront : ∀ operations,
        prepare (.mk header (.mk (.mk arguments operations :: blocks) :: regions)) =
          .mk header.prepare (.mk (.mk (arguments.map dropLocation) (operations.map prepare) ::
              rewriteBlocks Header.prepare dropLocation blocks) ::
            rewriteRegions Header.prepare dropLocation regions) := by
      intro operations
      simp only [prepare, rewrite, rewriteRegions, Region.rewrite,
        rewriteBlocks, Block.rewrite, rewriteOperations_eq_map]
      rfl
    rw [hfront, hfront]
    refine .body ?_ (h.map isTransition_prepare)
    rw [Header.name_prepare]
    exact hkind

theorem sortChildren : ∀ op : Operation, Reordered op op.sortChildren
  | .mk header (.mk (.mk arguments operations :: blocks) :: regions) => by
    unfold Operation.sortChildren
    cases hrank : bodyRank
        (Operation.mk header (.mk (.mk arguments operations :: blocks) :: regions)).name with
    | none => exact .refl _
    | some rank =>
      refine .body (Option.isSome_of_mem hrank) ?_
      exact rearranged_insertionSort_of _ (notAfter_of_isTransition rank) operations
  | .mk header (.mk [] :: regions) => by
    unfold Operation.sortChildren
    cases bodyRank (Operation.mk header (.mk [] :: regions)).name <;> exact .refl _
  | .mk header [] => by
    unfold Operation.sortChildren
    cases bodyRank (Operation.mk header []).name <;> exact .refl _

theorem shapes_walk (h : Reordered a b) (depth : Nat) :
    (shapes (a.walk depth)).Perm (shapes (b.walk depth)) := by
  cases h with
  | refl => exact .refl _
  | body hkind h =>
    have hfront := (h.1.flatMap_right (walk (depth + 1))).map
      fun item : Nat × Header => (item.1, item.2.shape)
    simp only [walk, walkRegions, Region.walk, walkBlocks, Block.walk,
      walkOperations_eq_flatMap, shapes, map_cons, map_append]
    exact ((hfront.append_right _).append_right _).cons _

end Reordered

/-- `m'` is `m` with the siblings reordered that canonicalization may reorder: none in a model
that carries freeze evidence. -/
def Model.Reordered (m m' : Model) : Prop :=
  m' = m ∨ hasTopologyFreezeEvidence m = false ∧ m'.header = m.header ∧
    ∃ body, List.Forall₂ Transforms.Reordered m.body body ∧
      Rearranged isTransition body m'.body

variable {l l' : List Operation} {m m' : Model} {rank : OperationName → Nat} {a b op : Operation}

theorem shapes_walkOperations_of_forall₂ {depth : Nat}
    (h : List.Forall₂ (fun a b => (shapes (a.walk depth)).Perm (shapes (b.walk depth))) l l') :
    (shapes (walkOperations depth l)).Perm (shapes (walkOperations depth l')) := by
  induction h with
  | nil => exact .refl _
  | cons hab _ ih =>
    simp only [walkOperations, shapes_append]
    exact hab.append ih

theorem shapes_walkOperations_of_perm (h : l.Perm l') (depth : Nat) :
    (shapes (walkOperations depth l)).Perm (shapes (walkOperations depth l')) := by
  rw [walkOperations_eq_flatMap, walkOperations_eq_flatMap]
  exact (h.flatMap_right _).map _

theorem Model.Reordered.sameShape (h : m.Reordered m') : SameShape m m' := by
  rcases h with rfl | ⟨_, hheader, body, hbody, hrest⟩
  · exact List.Perm.refl _
  · unfold SameShape Model.walk
    rw [hheader]
    refine List.Perm.cons _ ((shapes_walkOperations_of_forall₂ ?_).trans
      (shapes_walkOperations_of_perm hrest.1 1))
    exact hbody.imp fun _ _ hab => hab.shapes_walk 1

theorem sameShape_canonical (m : Model) : SameShape m m.canonical := by
  unfold SameShape Model.walk Model.canonical
  have hheader : (0, m.header.shape) = (0, m.header.prepare.shape) := by
    rw [Header.shape_prepare]
  simp only [shapes, map_cons, hheader]
  refine List.Perm.cons _ (List.Perm.trans ?_
    (shapes_walkOperations_of_perm (perm_insertionSort _ _).symm 1))
  refine shapes_walkOperations_of_forall₂ ?_
  rw [map_map, forall₂_map_right_iff, forall₂_same]
  intro op _
  rw [← shapes_rewrite ⟨Header.prepare, Header.shape_prepare⟩ dropLocation 1 op]
  exact (Reordered.sortChildren op.prepare).shapes_walk 1

/-! ### Siblings with one key -/

/-- Siblings of a sorted body that have one key are the same operation. -/
def SeparatedBody (op : Operation) : Prop :=
  ∀ rank, bodyRank op.name = some rank → ∀ a ∈ op.front, ∀ b ∈ op.front,
    stableKey a (rank a.name) = stableKey b (rank b.name) → a.isTransition = false → a = b

/-- Siblings that have one key, transitions apart, are the same operation; at the top level, up
to the order of their own bodies. -/
structure Separated (body : List Operation) : Prop where
  top : ∀ a ∈ body, ∀ b ∈ body,
    stableKey a (topLevelRank a.name) = stableKey b (topLevelRank b.name) →
      a.isTransition = false → Reordered a b
  bodies : ∀ op ∈ body, SeparatedBody op

theorem tied_cases (hab : notAfter rank a b) (hba : notAfter rank b a) :
    a.isTransition = true ∧ b.isTransition = true ∨
      stableKey a (rank a.name) = stableKey b (rank b.name) ∧ a.isTransition = false := by
  rcases (tied_iff rank a b).mp ⟨hab, hba⟩ with hkey | hboth
  · cases ha : a.isTransition with
    | true => exact .inl ⟨rfl, (isTransition_congr (name_eq_of_stableKey hkey)).symm.trans ha⟩
    | false => exact .inr ⟨hkey, rfl⟩
  · exact .inl hboth

theorem SeparatedBody.sortChildren_eq (ha : SeparatedBody a) (h : Reordered a b) :
    a.sortChildren = b.sortChildren := by
  cases h with
  | refl => rfl
  | @body header arguments operations operations' blocks regions hkind h =>
    obtain ⟨rank, hrank⟩ := Option.isSome_iff_exists.mp hkind
    have hsort : operations.insertionSort (notAfter rank) =
        operations'.insertionSort (notAfter rank) := by
      refine h.insertionSort_eq _ (notAfter_of_isTransition rank) fun x hx y hy hxy hyx => ?_
      rcases tied_cases hxy hyx with hboth | ⟨hkey, hx'⟩
      · exact .inr hboth
      · exact .inl (ha rank hrank x hx y hy hkey hx')
    have hmk : ∀ operations, Operation.sortChildren
        (.mk header (.mk (.mk arguments operations :: blocks) :: regions)) =
        .mk header (.mk (.mk arguments (operations.insertionSort (notAfter rank)) :: blocks) ::
          regions) := by
      intro operations
      unfold Operation.sortChildren
      have hname : (Operation.mk header
          (.mk (.mk arguments operations :: blocks) :: regions)).name = header.name := rfl
      rw [hname, hrank]
      rfl
    rw [hmk, hmk, hsort]

theorem map_sortChildren_eq (hsep : ∀ op ∈ l, SeparatedBody op) (h : List.Forall₂ Reordered l l') :
    l.map Operation.sortChildren = l'.map Operation.sortChildren := by
  induction h with
  | nil => rfl
  | cons hab _ ih =>
    rw [map_cons, map_cons, (hsep _ mem_cons_self).sortChildren_eq hab,
      ih fun op hop => hsep op (mem_cons_of_mem _ hop)]

theorem stableKey_sortChildren (op : Operation) (rank : Nat) :
    stableKey op.sortChildren rank = stableKey op rank := by
  simp [stableKey]

theorem isTransition_sortChildren (op : Operation) :
    op.sortChildren.isTransition = op.isTransition :=
  isTransition_congr (name_sortChildren op)

/-- **Separated siblings come out in one order.** -/
theorem Separated.canonical_eq (hsep : Separated (m.body.map prepare)) (h : m.Reordered m') :
    m'.canonical = m.canonical := by
  rcases h with rfl | ⟨_, hheader, body, hbody, hrest⟩
  · rfl
  have hprep : List.Forall₂ Reordered (m.body.map prepare)
      (body.map prepare) := by
    rw [forall₂_map_left_iff, forall₂_map_right_iff]
    exact hbody.imp fun _ _ hab => hab.prepare
  have hsame := map_sortChildren_eq hsep.bodies hprep
  have hmoved := (hrest.map isTransition_prepare).map isTransition_sortChildren
  rw [← hsame] at hmoved
  have hsort := hmoved.insertionSort_eq (notAfter topLevelRank)
    (notAfter_of_isTransition topLevelRank) fun x hx y hy hxy hyx => by
      obtain ⟨a, ha, rfl⟩ := mem_map.mp hx
      obtain ⟨b, hb, rfl⟩ := mem_map.mp hy
      rcases tied_cases hxy hyx with hboth | ⟨hkey, htrans⟩
      · exact .inr hboth
      · rw [stableKey_sortChildren, stableKey_sortChildren, name_sortChildren,
          name_sortChildren] at hkey
        rw [isTransition_sortChildren] at htrans
        exact .inl ((hsep.bodies a ha).sortChildren_eq (hsep.top a ha b hb hkey htrans))
  unfold Model.canonical
  rw [hheader, hsort]

/-! ### Siblings that are not separated -/

theorem front_prepare : ∀ op : Operation, op.prepare.front = op.front.map prepare
  | .mk _ (.mk (.mk _ children :: _) :: _) => rewriteOperations_eq_map _ _ children
  | .mk _ (.mk [] :: _) => rfl
  | .mk _ [] => rfl

theorem isTransition_of_stableKey {i j : Nat} (h : stableKey a i = stableKey b j)
    (ha : a.isTransition = false) : b.isTransition = false :=
  (isTransition_congr (name_eq_of_stableKey h)).symm.trans ha

theorem front_mapFront {f : List Operation → List Operation} (hf : f [] = []) :
    ∀ op : Operation, (op.mapFront f).front = f op.front
  | .mk _ (.mk (.mk _ _ :: _) :: _) => rfl
  | .mk _ (.mk [] :: _) => hf.symm
  | .mk _ [] => hf.symm

theorem front_sortChildren (h : bodyRank op.name = some rank) :
    op.sortChildren.front = op.front.insertionSort (notAfter rank) := by
  unfold Operation.sortChildren
  rw [h, Option.elim_some, front_mapFront (insertionSort_nil _)]

theorem exists_reordered_front : ∀ (op : Operation) {l : List Operation},
    (bodyRank op.name).isSome = true → Rearranged isTransition op.front l →
      ∃ op', Reordered op op' ∧ op'.front = l
  | .mk header (.mk (.mk arguments _ :: blocks) :: regions), l, hkind, h =>
    ⟨.mk header (.mk (.mk arguments l :: blocks) :: regions), .body hkind h, rfl⟩
  | .mk _ (.mk [] :: _), _, _, h | .mk _ [], _, _, h => ⟨_, .refl _, h.1.nil_eq⟩

theorem exists_reordered_of_not_separatedBody (h : ¬ SeparatedBody op.prepare) :
    ∃ op', Reordered op op' ∧ op'.prepare.sortChildren ≠ op.prepare.sortChildren := by
  unfold SeparatedBody at h
  push Not at h
  obtain ⟨rank, hrank, x, hx, y, hy, hkey, htrans, hne⟩ := h
  rw [front_prepare] at hx hy
  obtain ⟨a, ha, rfl⟩ := mem_map.mp hx
  obtain ⟨b, hb, rfl⟩ := mem_map.mp hy
  have htied := (tied_iff rank a.prepare b.prepare).mpr (.inl hkey)
  have hbtrans := isTransition_of_stableKey hkey htrans
  rw [isTransition_prepare] at htrans hbtrans
  obtain ⟨l, hl, hdiff⟩ :=
    exists_rearranged_ne (notAfter rank) ha hb htied.1 htied.2 hne htrans hbtrans
  have hkind : bodyRank op.name = some rank := by rw [← hrank, name_prepare]
  obtain ⟨op', hop', hfront⟩ := exists_reordered_front op (Option.isSome_of_mem hkind) hl
  have hrank' : bodyRank op'.prepare.name = some rank := by
    rw [name_prepare, ← hkind, name, hop'.header]
    rfl
  refine ⟨op', hop', fun heq => hdiff ?_⟩
  have hfronts := congrArg front heq
  rwa [front_sortChildren hrank', front_sortChildren hrank, front_prepare, front_prepare,
    hfront] at hfronts

theorem separated_of_canonical_eq (hfree : hasTopologyFreezeEvidence m = false)
    (h : ∀ m', m.Reordered m' → m'.canonical = m.canonical) : Separated (m.body.map prepare) := by
  have hbodies : ∀ op ∈ m.body, SeparatedBody op.prepare := by
    intro op hop
    by_contra hnot
    obtain ⟨op', hop', hdiff⟩ := exists_reordered_of_not_separatedBody hnot
    obtain ⟨s, t, hst⟩ := append_of_mem hop
    have hreordered : m.Reordered { m with body := s ++ op' :: t } := by
      refine .inr ⟨hfree, rfl, s ++ op' :: t, ?_, Rearranged.refl _ _⟩
      rw [hst]
      exact rel_append (forall₂_refl _) (.cons hop' (forall₂_refl _))
    -- the canonical bodies are permutations of lists that differ in one place
    have hbody := congrArg Model.body (h _ hreordered)
    simp only [Model.canonical, hst, map_append] at hbody
    have hlists := (perm_insertionSort (notAfter topLevelRank) _).symm.trans
      (hbody ▸ perm_insertionSort (notAfter topLevelRank) _)
    have htails : ([op'.prepare.sortChildren] ++ _).Perm ([op.prepare.sortChildren] ++ _) :=
      ((perm_append_left_iff _).mp hlists).symm
    exact hdiff (singleton_perm_singleton.mp ((perm_append_right_iff _).mp htails))
  refine ⟨?_, fun op hop => ?_⟩
  · intro x hx y hy hkey htrans
    obtain ⟨a, ha, rfl⟩ := mem_map.mp hx
    obtain ⟨b, hb, rfl⟩ := mem_map.mp hy
    by_cases heq : a.prepare.sortChildren = b.prepare.sortChildren
    · exact (Reordered.sortChildren _).trans (heq ▸ (Reordered.sortChildren b.prepare).symm)
    · exfalso
      have htied := (tied_iff topLevelRank a.prepare.sortChildren b.prepare.sortChildren).mpr
        (.inl (by simpa [stableKey_sortChildren] using hkey))
      have hbtrans := isTransition_of_stableKey hkey htrans
      rw [isTransition_prepare] at htrans hbtrans
      obtain ⟨l, hl, hdiff⟩ := exists_rearranged_ne (notAfter topLevelRank)
        (f := fun op : Operation => op.prepare.sortChildren) ha hb htied.1 htied.2 heq htrans
        hbtrans
      have hreordered : m.Reordered { m with body := l } :=
        .inr ⟨hfree, rfl, m.body, forall₂_refl _, hl⟩
      apply hdiff
      have hbody := congrArg Model.body (h _ hreordered)
      simpa only [Model.canonical, map_map, Function.comp_def] using hbody
  · obtain ⟨raw, hraw, rfl⟩ := mem_map.mp hop
    exact hbodies raw hraw

/-! ### The pass -/

variable (verifyModel : Model → Bool)

theorem canonicalizeModel_eq (hpre : preflightRawModelStructure m = true)
    (hfree : hasTopologyFreezeEvidence m = false) :
    canonicalizeModel verifyModel m = some m.canonical := by
  simp only [canonicalizeModel, hpre, hfree, sortModel_eq]
  rfl

theorem canonicalizeModel_idem (m c : Model) (h : canonicalizeModel verifyModel m = some c) :
    canonicalizeModel verifyModel c = some c := by
  cases hpre : preflightRawModelStructure m with
  | false => simp [canonicalizeModel, hpre] at h
  | true =>
    cases hfree : hasTopologyFreezeEvidence m with
    | true =>
      -- a frozen model is returned as it is
      have hc : m = c := by
        simp only [canonicalizeModel, hpre, hfree] at h
        simp at h
        exact h.2
      exact hc ▸ h
    | false =>
      rw [canonicalizeModel_eq verifyModel hpre hfree] at h
      obtain rfl := Option.some.inj h
      have hsame := sameShape_canonical m
      rw [canonicalizeModel_eq verifyModel (hsame.preflight.symm.trans hpre)
        (hsame.evidence.symm.trans hfree), canonical_canonical]

/-- **Canonicalization forgets the order of the siblings, and is idempotent, exactly when
siblings with one key are interchangeable.** -/
theorem canonical_iff_separated (verifyModel : Model → Bool) (m : Model) :
    ((∀ m', m.Reordered m' →
        canonicalizeModel verifyModel m' = canonicalizeModel verifyModel m) ∧
      ∀ c, canonicalizeModel verifyModel m = some c →
        canonicalizeModel verifyModel c = some c) ↔
      preflightRawModelStructure m = false ∨ hasTopologyFreezeEvidence m = true ∨
        Separated (m.body.map prepare) := by
  constructor
  · rintro ⟨hsame, _⟩
    cases hpre : preflightRawModelStructure m with
    | false => exact .inl rfl
    | true =>
      cases hfree : hasTopologyFreezeEvidence m with
      | true => exact .inr (.inl rfl)
      | false =>
        refine .inr (.inr (separated_of_canonical_eq hfree fun m' hm' => ?_))
        have hshape := hm'.sameShape
        have heq := hsame m' hm'
        rw [canonicalizeModel_eq verifyModel hpre hfree,
          canonicalizeModel_eq verifyModel (hshape.preflight.symm.trans hpre)
            (hshape.evidence.symm.trans hfree)] at heq
        exact Option.some.inj heq
  · intro h
    refine ⟨fun m' hm' => ?_, canonicalizeModel_idem verifyModel m⟩
    have hshape := hm'.sameShape
    cases hpre : preflightRawModelStructure m with
    | false =>
      have hpre' := hshape.preflight.symm.trans hpre
      simp [canonicalizeModel, hpre, hpre']
    | true =>
      cases hfree : hasTopologyFreezeEvidence m with
      | true =>
        rcases hm' with rfl | ⟨hfree', _⟩
        · rfl
        · exact absurd hfree' (by simp [hfree])
      | false =>
        have hsep : Separated (m.body.map prepare) := by
          simpa [hpre, hfree] using h
        rw [canonicalizeModel_eq verifyModel hpre hfree,
          canonicalizeModel_eq verifyModel (hshape.preflight.symm.trans hpre)
            (hshape.evidence.symm.trans hfree), hsep.canonical_eq hm']

/-! ### Two contracts on one message -/

/-- A declaration without regions. -/
def leaf (name : OperationName) (attributes : List (String × Attribute)) (operands : List Nat)
    (results : List (Nat × String)) : Operation :=
  .mk { name, attributes, operands, results } []

/-- A model with one module, which requires a true and a false constant with one message. -/
def contracts (first second : Nat) : Model where
  header := { name := ⟨"builtin.module", by decide⟩,
              attributes := [("ac.contract_epoch", .string "0.2")] }
  body := [.mk
    { name := ⟨"ac.module", by decide⟩,
      attributes := [("function_type", .other "() -> ()"), ("static_params", .other "\x7b\x7d"),
        ("sym_name", .string "Top")] }
    [.mk [.mk []
      [leaf ⟨"arith.constant", by decide⟩ [("value", .other "true")] [] [(0, "i1")],
       leaf ⟨"arith.constant", by decide⟩ [("value", .other "false")] [] [(1, "i1")],
       leaf ⟨"ac.require", by decide⟩ [("message", .string "capacity")] [first] [],
       leaf ⟨"ac.require", by decide⟩ [("message", .string "capacity")] [second] [],
       leaf ⟨"ac.return", by decide⟩ [] [] []]]]]

/-- The two contracts have one key, and stay in the order they were written in. -/
theorem contracts_keep_their_order :
    (contracts 0 1).Reordered (contracts 1 0) ∧
      (canonicalizeModel (fun _ => true) (contracts 1 0)).map Model.walk ≠
        (canonicalizeModel (fun _ => true) (contracts 0 1)).map Model.walk := by
  refine ⟨.inr ⟨by decide +kernel, rfl, (contracts 1 0).body, ?_, Rearranged.refl _ _⟩,
    by decide +kernel⟩
  refine .cons (.body rfl ⟨?_, rfl⟩) .nil
  exact ((List.Perm.swap _ _ _).cons _).cons _

end AgenticCircuit.Transforms
