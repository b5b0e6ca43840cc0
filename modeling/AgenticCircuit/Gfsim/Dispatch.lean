import AgenticCircuit.Gfsim.Core

/-! # Registries, dispatch and activation adjacency

What a `SimSystem` knows statically about its runtime objects, named by pointers (`Ptr`).  Three
registries lead to them:

* `objects`, the map filled by `registerObject` (it also holds the system itself);
* `hierarchy`, the objects a walk of the root module visits, in that order;
* `dispatch`, the generated table, whose row `i` belongs to object ID `i`.

`lookup` prefers the dispatch table, `runtimeObjects` merges the three in ascending ID, and
`identityConflict` is the check made before the first step.  The typed thunks of a dispatch row
made by `makeDispatchRow` call the methods of the object itself, so a row is its object.

`Config` collects what the setters install before a run. -/

namespace AgenticCircuit.Gfsim

/-- The address of a runtime object. -/
abbrev Ptr := ℕ

/-- The immutable identity of a runtime object. -/
structure ObjectInfo where
  id : ObjectId
  kind : ObjectKind
  path : String := ""
deriving DecidableEq

/-! ### Activation adjacency -/

/-- Compressed adjacency indexed by activation source. -/
structure ActivationPlan where
  offsets : List ℕ := []
  targets : List ObjectId := []
deriving DecidableEq

namespace ActivationPlan

def empty (a : ActivationPlan) : Bool := a.offsets.isEmpty

def targetsFor (a : ActivationPlan) (source : ObjectId) : List ObjectId :=
  if a.offsets.isEmpty || decide (a.offsets.length - 1 ≤ source) then []
  else
    let first := a.offsets.getD source 0
    let last := a.offsets.getD (source + 1) 0
    (a.targets.drop first).take (last - first)

theorem targetsFor_of_empty {a : ActivationPlan} (h : a.empty = true) (source : ObjectId) :
    a.targetsFor source = [] := by
  unfold empty at h
  simp [targetsFor, h]

end ActivationPlan

/-! ### Configuration -/

structure Config where
  /-- The system itself; `objects` holds it under `kSystemObjectId`. -/
  self : Ptr
  info : Ptr → ObjectInfo
  objects : List (ObjectId × Ptr)
  hierarchy : List Ptr := []
  dispatch : List Ptr := []
  activation : ActivationPlan := {}
  eventQueueCapacity : ℕ := 1024
  timeDomains : List TimeDomainRuntime := []
  maxDomainCycles : List (String × ℕ) := []
  maxTicks : ℕ := uint64Max
  maxEvents : ℕ := uint64Max
  maxTraceRecords : ℕ := uint64Max
  deadlockWindow : Option ℕ := none

namespace Config

variable (c : Config)

/-- The object behind an ID: its dispatch row, else its registration. -/
def lookup (id : ObjectId) : Option Ptr :=
  if id < c.dispatch.length then c.dispatch[id]? else c.objects.lookup id

/-- The kind of the object behind an ID. -/
def kindOf (id : ObjectId) : Option ObjectKind := (c.lookup id).map (fun p => (c.info p).kind)

/-- The IDs and objects of the three registries in ascending ID; a later registry replaces
the entry of an earlier one. -/
def runtimeObjectMap : List (ObjectId × Ptr) :=
  let registered := (c.objects.filter (fun e => e.1 != kSystemObjectId)).foldl
    (fun m e => assignKey e.1 e.2 m) []
  let attached := (c.hierarchy.filter (fun p => (c.info p).kind != .module)).foldl
    (fun m p => assignKey (c.info p).id p m) registered
  c.dispatch.zipIdx.foldl (fun m e => assignKey e.2 e.1 m) attached

def runtimeObjects : List Ptr := c.runtimeObjectMap.map Prod.snd

/-- The identity check: the first clash among the objects in the order they are recorded. -/
def identityConflictAux :
    List Ptr → List (ObjectId × Ptr) → List (String × Ptr) → Option IdentityConflict
  | [], _, _ => none
  | p :: rest, ids, paths =>
    let i := c.info p
    if p = c.self then identityConflictAux rest ids paths
    else if i.id = kInvalidObjectId && i.kind != .module then some .invalidId
    else if i.id ≠ kInvalidObjectId && (ids.lookup i.id).any (· != p) then
      some (.sharedId i.id)
    else
      let ids := if i.id = kInvalidObjectId then ids else (i.id, p) :: ids
      if i.path.isEmpty then identityConflictAux rest ids paths
      else if (paths.lookup i.path).any (· != p) then some (.sharedPath i.path)
      else identityConflictAux rest ids ((i.path, p) :: paths)

def identityConflict : Option IdentityConflict :=
  c.identityConflictAux (c.objects.map Prod.snd ++ c.hierarchy ++ c.dispatch) [] []

/-- A generated system: object `i` of the listed kind is row `i` of the dispatch table. -/
def ofKinds (kinds : List ObjectKind) : Config where
  self := kSystemObjectId
  info p := { id := p, kind := kinds.getD p .system }
  objects := [(kSystemObjectId, kSystemObjectId)]
  dispatch := List.range kinds.length

/-- A generated system finds its objects under their own IDs. -/
theorem eq_of_lookup_ofKinds {kinds : List ObjectKind} {id : ObjectId} {p : Ptr}
    (h : (ofKinds kinds).lookup id = some p) : p = id := by
  unfold lookup at h
  split at h
  · simp only [ofKinds, List.getElem?_eq_some_iff, List.getElem_range] at h
    exact h.2.symm
  · simp only [ofKinds, List.lookup_cons] at h
    split at h
    · rename_i hid
      rw [← Option.some.inj h]
      exact (beq_iff_eq.mp hid).symm
    · cases h

end Config

end AgenticCircuit.Gfsim
