import AgenticCircuit.Frontend.BlockArguments
import AgenticCircuit.Frontend.Lowering

/-! # The recorded uses and definitions

While the builder grows a block it records the names that the block uses before it defines them, and
the names that it defines.  `Recorded` says that the records of all blocks are right, up to touches of
one block that are already recorded but stand in no action or edge yet: the builder records the uses
of a call before it appends the action. -/

namespace AgenticCircuit.Frontend

open List Except Builder Touch
open Touch (Exposed)

variable (names : String → List String) {ts ts' : List (Touch String)}

def MutableBlock.touches (b : MutableBlock) : List (Touch String) :=
  b.actions.flatMap (·.touches names) ++ b.edge.elim [] (·.touches names)

/-- The records of a block are those of the history `ts`. -/
structure MutableBlock.Records (b : MutableBlock) (ts : List (Touch String)) : Prop where
  uses : ∀ x, x ∈ b.uses ↔ Exposed x ts
  definitions : ∀ x, x ∈ b.definitions ↔ assign x ∈ ts

/-- Histories with the same records. -/
def Alike (ts ts' : List (Touch String)) : Prop :=
  ∀ x, (Exposed x ts ↔ Exposed x ts') ∧ (assign x ∈ ts ↔ assign x ∈ ts')

theorem Alike.append_left (ts : List (Touch String)) {us us' : List (Touch String)}
    (h : Alike us us') : Alike (ts ++ us) (ts ++ us') := by
  intro x
  rw [exposed_append, exposed_append, mem_append, mem_append, (h x).1, (h x).2]
  exact ⟨Iff.rfl, Iff.rfl⟩

theorem Alike.append_right (h : Alike ts ts')
    (us : List (Touch String)) : Alike (ts ++ us) (ts' ++ us) := by
  intro x
  rw [exposed_append, exposed_append, mem_append, mem_append, (h x).1, (h x).2]
  exact ⟨Iff.rfl, Iff.rfl⟩

theorem alike_uses {U V : List String} (h : ∀ x, x ∈ U ↔ x ∈ V) :
    Alike (U.map .use) (touches V []) := by
  intro x
  rw [exposed_uses, exposed_touches, h]
  simp [touches]

theorem MutableBlock.Records.alike {b : MutableBlock}
    (h : b.Records ts) (hts : Alike ts ts') : b.Records ts' :=
  ⟨fun x => (h.uses x).trans (hts x).1, fun x => (h.definitions x).trans (hts x).2⟩

/-- The records of the blocks are right, `pending` being recorded in the block `n` already; no block is
open but those of `O`. -/
structure Recorded (O : Set BlockName) (n : BlockName) (pending : List (Touch String)) (σ : Builder) :
    Prop where
  nodup : σ.names.Nodup
  records : ∀ b ∈ σ.blocks, b.Records (b.touches names ++ if b.name = n then pending else [])
  order : ∀ x, x ∈ σ.localOrder ↔ ∃ b ∈ σ.blocks, x ∈ b.definitions
  opened : ∀ b ∈ σ.blocks, b.edge = none → b.name ∈ O

variable {names} {env : Environment} {O O' : Set BlockName} {n m : BlockName}
  {pending pending' : List (Touch String)} {σ τ : Builder} {e : ProcessEdge}

namespace Builder

/-! ### Blocks -/

theorem find_of_mem (hnodup : σ.names.Nodup) {b : MutableBlock} (hb : b ∈ σ.blocks) :
    σ.find b.name = some b := by
  unfold find
  unfold names at hnodup
  generalize σ.blocks = blocks at hnodup hb
  induction blocks with
  | nil => cases hb
  | cons c rest ih =>
    rw [map_cons, nodup_cons] at hnodup
    rw [find?_cons]
    obtain rfl | hb := mem_cons.mp hb
    · rw [beq_self_eq_true]
    · have hne : c.name ≠ b.name := fun heq => hnodup.1 (heq ▸ mem_map_of_mem hb)
      rw [beq_eq_false_iff_ne.mpr hne]
      exact ih hnodup.2 hb

theorem edge_of_closed (hnodup : σ.names.Nodup) {b : MutableBlock} (hb : b ∈ σ.blocks) :
    σ.closed b.name = b.edge.isSome := by
  unfold closed
  rw [find_of_mem hnodup hb]
  rfl

theorem closed_update (σ : Builder) {f : MutableBlock → MutableBlock}
    (hname : ∀ b, (f b).name = b.name) (hedge : ∀ b, (f b).edge = b.edge) (n : BlockName) :
    (σ.update m f).closed n = σ.closed n := by
  unfold closed
  rw [find_update _ _ hname]
  split
  · rw [Option.any_map]
    congr 1
    funext b
    exact congrArg Option.isSome (hedge b)
  · rfl

@[simp] theorem closed_recordUses (loads : List String) :
    (σ.recordUses m loads).closed n = σ.closed n := by
  apply closed_update <;> exact fun _ => rfl

@[simp] theorem names_recordUses (loads : List String) : (σ.recordUses m loads).names = σ.names :=
  names_update σ m fun _ => rfl

@[simp] theorem names_recordDefinition (x : String) : (σ.recordDefinition m x).names = σ.names :=
  names_update σ m fun _ => rfl

theorem recordDefinitions_blocks (m : BlockName) (xs : List String) (σ : Builder) :
    (σ.recordDefinitions m xs).blocks =
      (σ.update m fun b => { b with definitions := b.definitions ++ xs }).blocks := by
  unfold recordDefinitions
  induction xs generalizing σ with
  | nil => simp [update]
  | cons x xs ih =>
    rw [foldl_cons, ih]
    simp only [recordDefinition, update, map_map]
    apply map_congr_left
    intro b _
    by_cases hb : b.name = m <;> simp [hb]

theorem mem_recordDefinitions_order {m : BlockName} {xs : List String} {σ : Builder} {y : String} :
    y ∈ (σ.recordDefinitions m xs).localOrder ↔ y ∈ σ.localOrder ∨ y ∈ xs := by
  unfold recordDefinitions
  induction xs generalizing σ with
  | nil => simp
  | cons x xs ih =>
    rw [foldl_cons, ih]
    have hx : y ∈ (σ.recordDefinition m x).localOrder ↔ y ∈ σ.localOrder ∨ y = x := by
      unfold recordDefinition
      split
      · rename_i hmem
        exact ⟨.inl, fun h => h.elim id fun heq => heq ▸ hmem⟩
      · simp
    rw [hx, mem_cons, or_assoc]

theorem finish_names (h : σ.finish n e = .ok τ) : τ.names = σ.names := by
  unfold finish at h
  split at h
  · cases h
  · have heq := ok.inj h
    subst heq
    exact names_update σ n fun _ => rfl

end Builder

/-! ### Records through an operation -/

namespace Recorded

theorem mono (h : Recorded names O n pending σ) (hO : ∀ x ∈ O, x ∈ O') :
    Recorded names O' n pending σ :=
  ⟨h.nodup, h.records, h.order, fun b hb hopen => hO _ (h.opened b hb hopen)⟩

theorem moveTo (h : Recorded names O n [] σ) (m : BlockName) : Recorded names O m [] σ := by
  refine ⟨h.nodup, fun b hb => ?_, h.order, h.opened⟩
  have hrecords := h.records b hb
  rw [ite_self] at hrecords ⊢
  exact hrecords

section

variable (h : Recorded names O n pending σ)

include h

theorem congr (hblocks : τ.blocks = σ.blocks) (horder : τ.localOrder = σ.localOrder) :
    Recorded names O n pending τ := by
  refine ⟨?_, ?_, ?_, ?_⟩
  · show (τ.blocks.map _).Nodup
    rw [hblocks]
    exact h.nodup
  · rw [hblocks]
    exact h.records
  · rw [hblocks, horder]
    exact h.order
  · rw [hblocks]
    exact h.opened

/-- A change of the block `n` that keeps its records right. -/
theorem update (hn : n ∈ σ.names) (f : MutableBlock → MutableBlock) (xs : List String)
    (hblocks : τ.blocks = (σ.update n f).blocks)
    (horder : ∀ x, x ∈ τ.localOrder ↔ x ∈ σ.localOrder ∨ x ∈ xs) (hname : ∀ b, (f b).name = b.name)
    (hdefs : ∀ b, (f b).definitions = b.definitions ++ xs)
    (hopened : ∀ b ∈ σ.blocks, b.name = n → (f b).edge = none → n ∈ O')
    (hrecords : ∀ b ∈ σ.blocks, b.name = n → b.Records (b.touches names ++ pending) →
      (f b).Records ((f b).touches names ++ pending')) (hO : ∀ m ∈ O, m ≠ n → m ∈ O') :
    Recorded names O' n pending' τ := by
  have hmem : ∀ b ∈ τ.blocks, ∃ c ∈ σ.blocks, b = if c.name = n then f c else c := by
    intro b hb
    rw [hblocks] at hb
    obtain ⟨c, hc, rfl⟩ := mem_map.mp hb
    exact ⟨c, hc, rfl⟩
  refine ⟨?_, ?_, ?_, ?_⟩
  · have hnames : τ.names = σ.names := by
      rw [← names_update σ n hname]
      exact congrArg (List.map _) hblocks
    rw [hnames]
    exact h.nodup
  · intro b hb
    obtain ⟨c, hc, rfl⟩ := hmem b hb
    have hold := h.records c hc
    by_cases hcn : c.name = n
    · rw [if_pos hcn] at hold
      rw [if_pos hcn, hname, if_pos hcn]
      exact hrecords c hc hcn hold
    · rw [if_neg hcn] at hold
      rw [if_neg hcn, if_neg hcn]
      exact hold
  · intro x
    rw [horder, h.order]
    constructor
    · rintro (⟨b, hb, hx⟩ | hx)
      · refine ⟨if b.name = n then f b else b, ?_, ?_⟩
        · rw [hblocks]
          exact mem_map_of_mem hb
        · split
          · rw [hdefs]
            exact mem_append_left _ hx
          · exact hx
      · obtain ⟨b, hb, hbn⟩ := mem_map.mp hn
        refine ⟨f b, ?_, ?_⟩
        · rw [hblocks]
          exact mem_map.mpr ⟨b, hb, if_pos hbn⟩
        · rw [hdefs]
          exact mem_append_right _ hx
    · rintro ⟨b, hb, hx⟩
      obtain ⟨c, hc, rfl⟩ := hmem b hb
      split at hx
      · rw [hdefs] at hx
        exact (mem_append.mp hx).imp_left fun hx => ⟨c, hc, hx⟩
      · exact .inl ⟨c, hc, hx⟩
  · intro b hb hopen
    obtain ⟨c, hc, rfl⟩ := hmem b hb
    by_cases hcn : c.name = n
    · rw [if_pos hcn] at hopen ⊢
      rw [hname, hcn]
      exact hopened c hc hcn hopen
    · rw [if_neg hcn] at hopen ⊢
      exact hO _ (h.opened c hc hopen) hcn

/-- A block whose edge is there is not open. -/
theorem closed (hclosed : σ.closed m = true) : Recorded names (O \ {m}) n pending σ := by
  refine ⟨h.nodup, h.records, h.order, fun b hb hopen => ⟨h.opened b hb hopen, ?_⟩⟩
  rintro rfl
  rw [edge_of_closed h.nodup hb, hopen] at hclosed
  cases hclosed

theorem newBlock (base : BlockBase) (hn : n ∈ σ.names) :
    Recorded names (insert (σ.freshName base) O) n pending (σ.newBlock base) := by
  have hfresh := σ.freshName_notMem base
  refine ⟨?_, ?_, ?_, ?_⟩
  · rw [(σ.newBlock_lays base).names]
    rw [← concat_eq_append]
    exact h.nodup.concat hfresh
  · intro b hb
    obtain hb | hb := mem_append.mp hb
    · exact h.records b hb
    · rw [mem_singleton] at hb
      subst hb
      have hne : σ.freshName base ≠ n := fun heq => hfresh (heq ▸ hn)
      rw [if_neg hne]
      constructor <;> intro x <;> simp [MutableBlock.touches, Exposed]
  · intro x
    rw [show (σ.newBlock base).localOrder = σ.localOrder from rfl, h.order]
    constructor
    · rintro ⟨b, hb, hx⟩
      exact ⟨b, mem_append_left _ hb, hx⟩
    · rintro ⟨b, hb, hx⟩
      obtain hb | hb := mem_append.mp hb
      · exact ⟨b, hb, hx⟩
      · rw [mem_singleton] at hb
        subst hb
        cases hx
  · intro b hb hopen
    obtain hb | hb := mem_append.mp hb
    · exact .inr (h.opened b hb hopen)
    · rw [mem_singleton] at hb
      subst hb
      exact .inl rfl

/-! ### Records through the builder's operations -/

theorem recordUses (hn : n ∈ σ.names) (loads : List String) :
    Recorded names O n (pending ++ loads.map .use) (σ.recordUses n loads) := by
  refine h.update hn _ [] rfl (fun x => by simp [Builder.recordUses, Builder.update])
    (fun _ => rfl) (fun b => (append_nil _).symm) ?_ ?_ fun m hm _ => hm
  · intro b hb hbn hopen
    rw [← hbn]
    exact h.opened b hb hopen
  · intro b hb hbn hrecords
    constructor
    · intro x
      show x ∈ b.uses ++ _ ↔ Exposed x (b.touches names ++ _)
      rw [← append_assoc, exposed_append, exposed_uses, ← hrecords.uses, ← hrecords.definitions]
      grind
    · intro x
      show x ∈ b.definitions ↔ _ ∈ b.touches names ++ _
      rw [← append_assoc, mem_append, ← hrecords.definitions]
      simp

theorem recordDefinition (hn : n ∈ σ.names) (x : String) :
    Recorded names O n (pending ++ [.assign x]) (σ.recordDefinition n x) := by
  refine h.update hn _ [x] rfl ?_ (fun _ => rfl) (fun _ => rfl) ?_ ?_ fun m hm _ => hm
  · intro y
    have hmem : y ∈ (σ.recordDefinitions n [x]).localOrder ↔ _ := mem_recordDefinitions_order
    exact hmem
  · intro b hb hbn hopen
    rw [← hbn]
    exact h.opened b hb hopen
  · intro b hb hbn hrecords
    constructor
    · intro y
      show y ∈ b.uses ↔ Exposed y (b.touches names ++ _)
      rw [hrecords.uses, ← append_assoc, @Touch.exposed_append _ y _ [.assign x]]
      simp [Exposed]
    · intro y
      show y ∈ b.definitions ++ [x] ↔ _ ∈ b.touches names ++ _
      rw [← append_assoc, mem_append, mem_append, hrecords.definitions]
      simp

end

theorem addAction {c : BlockName} {a : ProcessAction} (h : Recorded names O c pending σ)
    (hc : c = σ.current) (hmem : c ∈ σ.names) (hopen : σ.closed c = false)
    (huses : Alike pending (touches (a.arguments.flatMap names) [])) :
    Recorded names O c [] (σ.addAction a) := by
  subst hc
  refine h.update hmem (fun b =>
    { b with actions := b.actions ++ [a], definitions := b.definitions ++ a.results }) a.results ?_ ?_
    (fun _ => rfl) (fun _ => rfl) ?_ ?_ fun m hm _ => hm
  · rw [Builder.addAction, Builder.recordDefinitions_blocks]
    simp only [Builder.update, map_map]
    apply map_congr_left
    intro b _
    by_cases hb : b.name = σ.current <;> simp [hb]
  · intro x
    exact mem_recordDefinitions_order
  · intro b hb hbn hedge
    rw [← hbn]
    exact h.opened b hb hedge
  · intro b hb hbn hrecords
    have hedge : b.edge = none := by
      rw [← hbn, edge_of_closed h.nodup hb] at hopen
      exact Option.isSome_eq_false_iff.mp hopen |> Option.isNone_iff_eq_none.mp
    replace hrecords := hrecords.alike (huses.append_left _)
    simp only [MutableBlock.touches] at hrecords
    constructor
    · intro x
      rw [hrecords.uses]
      simp [MutableBlock.touches, hedge, ProcessAction.touches, exposed_append, exposed_touches]
    · intro x
      show x ∈ b.definitions ++ a.results ↔ _
      rw [mem_append, hrecords.definitions]
      simp [MutableBlock.touches, hedge, ProcessAction.touches, assign_mem_touches]

theorem finish (h : Recorded names O n pending σ) (hn : n ∈ σ.names)
    (htouches : Alike pending (e.touches names)) (hfinish : σ.finish n e = .ok τ) (m : BlockName) :
    Recorded names (O \ {n}) m [] τ := by
  unfold Builder.finish at hfinish
  split at hfinish
  · cases hfinish
  rename_i hopen
  have heq := ok.inj hfinish
  subst heq
  refine Recorded.moveTo (n := n) ?_ m
  refine h.update hn _ [] rfl (fun x => by simp [Builder.update]) (fun _ => rfl)
    (fun _ => (append_nil _).symm) ?_ ?_ fun m hm hne => ⟨hm, hne⟩
  · intro b hb hbn hedge
    cases hedge
  · intro b hb hbn hrecords
    have hedge : b.edge = none := by
      rw [← hbn, edge_of_closed h.nodup hb, Option.not_isSome_iff_eq_none] at hopen
      exact hopen
    replace hrecords := hrecords.alike (htouches.append_left _)
    simp only [MutableBlock.touches, hedge, Option.elim_none, append_nil] at hrecords
    rw [append_nil]
    exact ⟨hrecords.uses, hrecords.definitions⟩

theorem joinBlocks {target : BlockName} {ns : List BlockName} {σ τ : Builder}
    (h : Recorded names O n [] σ) (hns : ∀ m ∈ ns, m ∈ σ.names)
    (hjoin : joinBlocks target ns σ = .ok τ) :
    Recorded names (O \ {m | m ∈ ns}) n [] τ ∧ τ.names = σ.names := by
  induction ns generalizing O σ with
  | nil =>
    cases hjoin
    exact ⟨h.mono fun m hm => ⟨hm, not_mem_nil⟩, rfl⟩
  | cons m ns ih =>
    rw [joinBlocks] at hjoin
    obtain ⟨ρ, hfinish, hrest⟩ := bind_ok hjoin
    have hm := (h.moveTo m).finish (hns m mem_cons_self) (fun x => ⟨Iff.rfl, Iff.rfl⟩) hfinish n
    have hnames : ρ.names = σ.names := finish_names hfinish
    obtain ⟨hτ, hτnames⟩ := ih hm (fun k hk => hnames ▸ hns k (mem_cons_of_mem m hk)) hrest
    refine ⟨hτ.mono ?_, hτnames.trans hnames⟩
    rintro k ⟨⟨hk, hne⟩, hrest⟩
    exact ⟨hk, fun hmem => (mem_cons.mp hmem).elim hne hrest⟩

end Recorded

/-! ### Records through statements -/

/-- In `τ` the records are right and only the current block and blocks of `S` are open. -/
structure Kept (names : String → List String) (S : Set BlockName) (σ τ : Builder) : Prop where
  recorded : Recorded names (insert τ.current S) τ.current [] τ
  current : τ.current ∈ τ.names
  older : ∀ m ∈ σ.names, m ∈ τ.names

/-- From `σ` to `τ` the records stay right. -/
def Grows (names : String → List String) (σ τ : Builder) : Prop :=
  ∀ S : Set BlockName, σ.current ∈ σ.names → Recorded names (insert σ.current S) σ.current [] σ →
    Kept names S σ τ

theorem Grows.refl (σ : Builder) : Grows names σ σ := fun _ hmem h => ⟨h, hmem, fun _ hm => hm⟩

theorem Grows.trans {ρ : Builder} (h : Grows names σ τ) (h' : Grows names τ ρ) :
    Grows names σ ρ := by
  intro S hmem hrecorded
  have hτ := h S hmem hrecorded
  have hρ := h' S hτ.current hτ.recorded
  exact ⟨hρ.recorded, hρ.current, fun m hm => hρ.older m (hτ.older m hm)⟩

theorem Operand.Readable.alike {o : Operand} (ho : o.Readable names) :
    Alike (o.loads.map .use) (touches (names o.unparse) []) := alike_uses fun x => (ho x).symm

theorem Expr.Readable.alike {e : Expr} (he : e.Readable names) :
    Alike (e.loads.map .use) (touches (names e.unparse) []) := alike_uses fun x => (he x).symm

theorem Call.Readable.alike {c : Call} (hc : c.Readable names) :
    Alike (c.loads.map .use) (touches (c.arguments.flatMap names) []) := by
  apply alike_uses
  intro x
  unfold Call.loads Call.arguments
  rw [flatMap_append, flatMap_append, mem_append, mem_append]
  apply or_congr
  · simp only [mem_flatMap, mem_map, exists_exists_and_eq_and]
    exact exists_congr fun o => and_congr_right fun ho => (hc.args o ho x).symm
  · simp only [mem_flatMap, mem_map, exists_exists_and_eq_and]
    exact exists_congr fun k => and_congr_right fun hk => (hc.keywords k hk x).symm

/-- From `σ` to `ρ` the records stay right while the current block is open and `pending` is recorded in
it already. -/
structure Ready (names : String → List String) (S : Set BlockName) (pending : List (Touch String))
    (σ ρ : Builder) : Prop where
  recorded : Recorded names (insert ρ.current S) ρ.current pending ρ
  current : ρ.current ∈ ρ.names
  opened : ρ.closed ρ.current = false
  names : ρ.names = σ.names

namespace Builder

theorem finish_current (h : σ.finish n e = .ok τ) : τ.current = σ.current := by
  unfold finish at h
  split at h
  · cases h
  · have heq := ok.inj h
    subst heq
    rfl

end Builder

namespace Ready

variable {S : Set BlockName} {ρ : Builder}

theorem kept (h : Ready names S pending σ ρ) (hτ : Kept names S ρ τ) : Kept names S σ τ :=
  ⟨hτ.recorded, hτ.current, fun m hm => hτ.older m (h.names ▸ hm)⟩

theorem consumeLinear {operation : String} {args : List Operand} {positions : List ℕ} {ρ : Builder}
    (h : Ready names S pending σ ρ)
    (hconsume : Builder.consumeLinear operation args positions ρ = .ok τ) :
    Ready names S pending σ τ := by
  induction positions generalizing ρ with
  | nil =>
    cases hconsume
    exact h
  | cons i rest ih =>
    rw [Builder.consumeLinear] at hconsume
    split at hconsume
    · dsimp only at hconsume
      split at hconsume
      · cases hconsume
      · refine ih ?_ hconsume
        exact ⟨h.recorded.congr rfl rfl, h.current, h.opened, h.names⟩
    · cases hconsume

section

variable (h : Ready names S pending σ ρ)

include h

theorem addEffect (operation : String) (kind : EffectKind) :
    Ready names S pending σ (ρ.addEffect operation kind) :=
  ⟨h.recorded.congr rfl rfl, h.current, h.opened, h.names⟩

theorem recordUses (loads : List String) :
    Ready names S (pending ++ loads.map .use) σ (ρ.recordUses ρ.current loads) where
  recorded := h.recorded.recordUses h.current loads
  current := (names_recordUses loads).symm ▸ h.current
  opened := (closed_recordUses loads).trans h.opened
  names := (names_recordUses loads).trans h.names

theorem finish (he : Alike pending (e.touches names))
    (hfinish : ρ.finish ρ.current e = .ok τ) : Kept names S σ τ := by
  apply h.kept
  have hmem := h.current
  have hτ := h.recorded.finish hmem he hfinish τ.current
  rw [← finish_current hfinish] at hmem hτ
  exact ⟨hτ.mono fun m hm => hm.1, finish_names hfinish ▸ hmem, fun m hm => finish_names hfinish ▸ hm⟩

theorem suspend {operation : String} {arguments : List String}
    (harguments : Alike pending (touches (arguments.flatMap names) []))
    (hsuspend : ρ.suspend operation arguments = .ok τ) : Kept names S σ τ := by
  have hedge : ∀ t, Alike pending ((ProcessEdge.suspend operation arguments t).touches names) :=
    fun _ => harguments
  unfold Builder.suspend at hsuspend
  split at hsuspend
  · exact h.finish (hedge _) hsuspend
  · generalize (if BlockName.mk .resume 1 ∈ ρ.names then BlockBase.done else .resume) = base at hsuspend
    obtain ⟨ρ', hfinish, hτ⟩ := bind_ok hsuspend
    have heq := ok.inj hτ
    subst heq
    have hnames : ρ'.names = ρ.names ++ [ρ.freshName base] :=
      (finish_names hfinish).trans (ρ.newBlock_lays base).names
    have hmem : ρ.current ∈ (ρ.newBlock base).names := by
      rw [(ρ.newBlock_lays base).names]
      exact mem_append_left _ h.current
    have hnew := (h.recorded.newBlock base h.current).finish hmem (hedge _) hfinish (ρ.freshName base)
    refine h.kept ⟨Recorded.mono (hnew.congr rfl rfl) ?_, ?_, ?_⟩
    · rintro m ⟨rfl | rfl | hm, hne⟩
      · exact .inl rfl
      · exact absurd rfl hne
      · exact .inr hm
    · show ρ.freshName base ∈ ρ'.names
      rw [hnames]
      exact mem_append_right _ (mem_singleton_self _)
    · intro m hm
      show m ∈ ρ'.names
      rw [hnames]
      exact mem_append_left _ hm

theorem addAction {a : ProcessAction}
    (huses : Alike pending (touches (a.arguments.flatMap names) [])) :
    Kept names S σ (ρ.addAction a) := by
  apply h.kept
  obtain ⟨acts, hlays⟩ : ∃ layout, Lays ρ (ρ.addAction a) [] layout ρ.current := by
    obtain ⟨-, -, -, hclosed⟩ | ⟨acts, hopen, -⟩ := ρ.closed_or_open h.current
    · rw [h.opened] at hclosed
      cases hclosed
    · exact ⟨_, addAction_lays a hopen⟩
  have hτ := h.recorded.addAction rfl h.current h.opened huses
  have hmem := h.current
  rw [← hlays.current] at hτ hmem
  rw [← append_nil ρ.names, ← hlays.names] at hmem
  exact ⟨hτ, hmem, fun m hm => hlays.names ▸ mem_append_left _ hm⟩

end

end Ready

/-! ### Simple statements -/

namespace Builder

variable {S : Set BlockName}

variable {next : Building} {a b f h t : BlockName} {σ₃ σ₄ : Builder}

theorem call_kept {c : Call} {results : List String} (hc : c.Readable names)
    (hready : Ready names S [] σ σ) (h : σ.call env c results = .ok τ) : Kept names S σ τ := by
  unfold call at h
  cases hfunc : c.func with
  | other text =>
    rw [hfunc] at h
    cases h
  | name id =>
    rw [hfunc] at h
    dsimp only at h
    cases hfind : env.effects.find id with
    | none =>
      rw [hfind] at h
      cases hrecord : env.records id with
      | none =>
        rw [hrecord] at h
        cases h
      | some name =>
        rw [hrecord] at h
        have heq := ok.inj h
        subst heq
        exact ((hready.recordUses c.loads).addEffect "record_create" .pure).addAction hc.alike
    | some d =>
      rw [hfind] at h
      dsimp only at h
      split at h
      · cases h
      obtain ⟨ρ, hconsume, h⟩ := bind_ok h
      have hρ := ((hready.consumeLinear hconsume).recordUses c.loads).addEffect id d.kind
      split at h
      · split at h
        · cases h
        · exact hρ.suspend hc.alike h
      · have heq := ok.inj h
        subst heq
        exact hρ.addAction hc.alike

theorem assignment_kept {targets : List Target} {value : Option Expr}
    (hs : (Simple.assign targets value).Readable names) (hready : Ready names S [] σ σ)
    (h : σ.assignment env targets value = .ok τ) : Kept names S σ τ := by
  unfold assignment at h
  match targets with
  | [] => cases h
  | _ :: _ :: _ => cases h
  | [target] =>
    dsimp only at h
    cases hnames : Environment.targetNames target with
    | none =>
      rw [hnames] at h
      cases h
    | some results =>
      rw [hnames] at h
      match value, results, h with
      | none, _, h =>
        cases h
        exact hready.kept ⟨hready.recorded, hready.current, fun _ hm => hm⟩
      | some (.call c), _, h =>
        dsimp only at h
        split at h
        · cases h
        · exact call_kept hs hready h
      | some (.operand o), [name], h =>
        have heq := ok.inj h
        subst heq
        refine (hready.recordUses o.loads).addAction ?_
        rw [flatMap_singleton]
        exact Operand.Readable.alike hs
      | some (.operand o), [], h => cases h
      | some (.operand o), _ :: _ :: _, h => cases h

theorem simple_kept {s : Simple} (hs : s.Readable names)
    (hready : Ready names S [] σ σ) (h : σ.simple env s = .ok τ) : Kept names S σ τ := by
  cases s with
  | assign targets value => exact assignment_kept hs hready h
  | expr value =>
    cases value with
    | call c => exact call_kept hs hready h
    | operand o => cases h
  | pass =>
    cases h
    exact hready.kept ⟨hready.recorded, hready.current, fun _ hm => hm⟩
  | other kind => cases h

/-! ### Statements -/

theorem guardOpen_opened (h : σ.guardOpen next = .ok τ) : σ.closed σ.current = false := by
  unfold guardOpen at h
  split at h
  · cases h
  · rename_i hopen
    exact Bool.eq_false_iff.mpr hopen

theorem fallTo_recorded {target : BlockName} (hmem : σ.current ∈ σ.names)
    (h : Recorded names (insert σ.current S) σ.current [] σ) (hfall : σ.fallTo target = .ok τ)
    (m : BlockName) : Recorded names S m [] τ ∧ τ.names = σ.names := by
  unfold fallTo at hfall
  split at hfall
  · rename_i hclosed
    have heq := ok.inj hfall
    subst heq
    refine ⟨((h.closed hclosed).moveTo m).mono ?_, rfl⟩
    exact fun k hk => hk.1.resolve_left hk.2
  · refine ⟨(h.finish hmem (fun x => ⟨Iff.rfl, Iff.rfl⟩) hfall m).mono ?_, finish_names hfall⟩
    exact fun k hk => hk.1.resolve_left hk.2

/-- A body, its `else` clause and the jump between them, the blocks `b` and `a` being open. -/
theorem loop_kept {loops : List (BlockName × BlockName)} {σ₂ : Builder} (hb : b ∈ σ₂.names)
    (ha : a ∈ σ₂.names) (holder : ∀ m ∈ σ.names, m ∈ σ₂.names)
    (hrecorded : Recorded names (insert b (insert a S)) b [] σ₂)
    (hbody : Grows names { σ₂ with loopStack := loops, current := b } σ₃)
    (hfall : σ₃.fallTo h = .ok σ₄)
    (horelse : Grows names { σ₄ with loopStack := σ.loopStack, current := a } τ) :
    Kept names S σ τ := by
  have h₃ := hbody (insert a S) hb (hrecorded.congr rfl rfl)
  obtain ⟨h₄, hnames₄⟩ := fallTo_recorded h₃.current h₃.recorded hfall a
  have ha₄ : a ∈ σ₄.names := by
    rw [hnames₄]
    exact h₃.older a ha
  have hτ := horelse S ha₄ (h₄.congr rfl rfl)
  refine ⟨hτ.recorded, hτ.current, fun m hm => hτ.older m ?_⟩
  show m ∈ σ₄.names
  rw [hnames₄]
  exact h₃.older m (holder m hm)

theorem openLoop_recorded {header body after : BlockBase} (hready : Ready names S [] σ σ)
    (hopen : σ.openLoop header body after = .ok ((h, b, a), τ)) :
    Recorded names (insert h (insert b (insert a S))) h [] τ ∧ τ.names = σ.names ++ [h, b, a] := by
  obtain ⟨ρ, hfinish, hρ⟩ := bind_ok hopen
  have heq := ok.inj hρ
  simp only [Prod.mk.injEq] at heq
  obtain ⟨⟨rfl, rfl, rfl⟩, rfl⟩ := heq
  have hh := hready.recorded.newBlock header hready.current
  have hcur₁ : σ.current ∈ (σ.newBlock header).names := by
    rw [(σ.newBlock_lays header).names]
    exact mem_append_left _ hready.current
  have hb := hh.newBlock body hcur₁
  have hcur₂ : σ.current ∈ ((σ.newBlock header).newBlock body).names := by
    rw [((σ.newBlock header).newBlock_lays body).names]
    exact mem_append_left _ hcur₁
  have ha := hb.newBlock after hcur₂
  have hcur₃ : σ.current ∈ (((σ.newBlock header).newBlock body).newBlock after).names := by
    rw [(((σ.newBlock header).newBlock body).newBlock_lays after).names]
    exact mem_append_left _ hcur₂
  refine ⟨(ha.finish hcur₃ (fun x => ⟨Iff.rfl, Iff.rfl⟩) hfinish _).mono ?_, ?_⟩
  · rintro m ⟨rfl | rfl | rfl | rfl | hm, hne⟩
    · exact .inr (.inr (.inl rfl))
    · exact .inr (.inl rfl)
    · exact .inl rfl
    · exact absurd rfl hne
    · exact .inr (.inr (.inr hm))
  · rw [finish_names hfinish, (newBlock_lays _ _).names, (newBlock_lays _ _).names,
      (newBlock_lays _ _).names]
    simp

theorem ready_of_guardOpen (h : σ.guardOpen next = .ok τ) (hmem : σ.current ∈ σ.names)
    (hrecorded : Recorded names (insert σ.current S) σ.current [] σ) : Ready names S [] σ σ :=
  ⟨hrecorded, hmem, guardOpen_opened h, rfl⟩

/-- The branch of an `if` with its two blocks. -/
theorem openBranch_recorded {test : Expr} {σ₁ : Builder} (htest : test.Readable names)
    (hready : Ready names S [] σ σ) (ht : t = σ.freshName .thenBlock)
    (hσ₁ : σ₁ = σ.newBlock .thenBlock) (hf : f = σ₁.freshName .elseBlock)
    (hfinish : ((σ₁.newBlock .elseBlock).recordUses σ.current test.loads).finish σ.current
        (.branch (.test test.unparse) t f) =
      .ok τ) : Recorded names (insert t (insert f S)) t [] τ ∧ τ.names = σ.names ++ [t, f] := by
  subst ht hσ₁ hf
  have hnames₁ := (σ.newBlock_lays .thenBlock).names
  have hnames₂ := ((σ.newBlock .thenBlock).newBlock_lays .elseBlock).names
  have hcur₁ : σ.current ∈ (σ.newBlock .thenBlock).names := by
    rw [hnames₁]
    exact mem_append_left _ hready.current
  have hcur₂ : σ.current ∈ ((σ.newBlock .thenBlock).newBlock .elseBlock).names := by
    rw [hnames₂]
    exact mem_append_left _ hcur₁
  have hedge : ∀ t f, Alike ([] ++ test.loads.map .use)
      ((ProcessEdge.branch (.test test.unparse) t f).touches names) := fun _ _ => htest.alike
  have hnew := (hready.recorded.newBlock .thenBlock hready.current).newBlock .elseBlock hcur₁
  have huses := hnew.recordUses hcur₂ test.loads
  refine ⟨(huses.finish ((names_recordUses test.loads).symm ▸ hcur₂) (hedge _ _) hfinish _).mono ?_, ?_⟩
  · rintro m ⟨rfl | rfl | rfl | hm, hne⟩
    · exact .inr (.inl rfl)
    · exact .inl rfl
    · exact absurd rfl hne
    · exact .inr (.inr hm)
  · rw [finish_names hfinish, names_recordUses, hnames₂, hnames₁, append_assoc]
    rfl

/-- The two bodies of an `if`. -/
theorem branches_recorded (ht : t ∈ σ₃.names) (hf : f ∈ σ₃.names)
    (hrecorded : Recorded names (insert t (insert f S)) t [] σ₃)
    (hbody : Grows names { σ₃ with current := t } σ₄)
    (horelse : Grows names { σ₄ with current := f } τ) :
    Recorded names (insert τ.current (insert σ₄.current S)) τ.current [] τ ∧
      σ₄.current ∈ τ.names ∧ τ.current ∈ τ.names ∧ ∀ m ∈ σ₃.names, m ∈ τ.names := by
  have h₄ := hbody (insert f S) ht (hrecorded.congr rfl rfl)
  have hf₄ : Recorded names (insert f (insert σ₄.current S)) f [] σ₄ := by
    refine (h₄.recorded.moveTo f).mono ?_
    rintro m (rfl | rfl | hm)
    · exact .inr (.inl rfl)
    · exact .inl rfl
    · exact .inr (.inr hm)
  have hτ := horelse (insert σ₄.current S) (h₄.older f hf) (hf₄.congr rfl rfl)
  exact ⟨hτ.recorded, hτ.older _ h₄.current, hτ.current, fun m hm => hτ.older m (h₄.older m hm)⟩

/-- Where the two branches meet: after them nothing follows, or in a new block. -/
theorem closed_of_notMem_open {m n : BlockName}
    (hm : m ∉ [n, τ.current].filter fun k => !τ.closed k) (hmn : m = n ∨ m = τ.current) :
    τ.closed m = true := by
  by_contra hne
  refine hm (mem_filter.mpr ⟨?_, by simp [hne]⟩)
  rcases hmn with rfl | rfl <;> simp

/-- The open ends of the branches jump to a new block. -/
theorem meet_recorded {c : BlockName} (hc : c ∈ τ.names) (hcurrent : τ.current ∈ τ.names)
    (hrecorded : Recorded names (insert τ.current (insert c S)) τ.current [] τ) {ρ : Builder}
    (hjoin : joinBlocks (τ.freshName .resume) ([c, τ.current].filter fun n => !τ.closed n)
      (τ.newBlock .resume) = .ok ρ) :
    Recorded names (insert (τ.freshName .resume) S) (τ.freshName .resume) [] ρ ∧
      ρ.names = τ.names ++ [τ.freshName .resume] := by
  have hnames := (τ.newBlock_lays .resume).names
  set openBlocks := [c, τ.current].filter fun n => !τ.closed n with hopen
  have hmem : ∀ m ∈ openBlocks, m ∈ (τ.newBlock .resume).names := by
    intro m hm
    rw [hnames]
    refine mem_append_left _ ?_
    have hm := (mem_filter.mp hm).1
    simp only [mem_cons, not_mem_nil, or_false] at hm
    rcases hm with rfl | rfl
    · exact hc
    · exact hcurrent
  -- the ends that do not jump are closed already
  have hends : Recorded names (S ∪ {m | m ∈ openBlocks}) τ.current [] τ := by
    refine ⟨hrecorded.nodup, hrecorded.records, hrecorded.order, fun b hb hedge => ?_⟩
    by_cases hbopen : b.name ∈ openBlocks
    · exact .inr hbopen
    · have hnotclosed : τ.closed b.name ≠ true := by
        rw [edge_of_closed hrecorded.nodup hb, hedge]
        exact Bool.false_ne_true
      rcases hrecorded.opened b hb hedge with heq | heq | hS
      · exact absurd (closed_of_notMem_open hbopen (.inr heq)) hnotclosed
      · exact absurd (closed_of_notMem_open hbopen (.inl heq)) hnotclosed
      · exact .inl hS
  obtain ⟨hρ, hρnames⟩ := (hends.newBlock .resume hcurrent).joinBlocks hmem hjoin
  refine ⟨(hρ.moveTo _).mono ?_, hρnames.trans hnames⟩
  rintro m ⟨rfl | hm | hm, hne⟩
  · exact .inl rfl
  · exact .inr hm
  · exact absurd hm hne

theorem statements_keeps (body : Body) (hbody : body.Readable names) {σ τ : Builder}
    (h : statements env body σ = .ok τ) : Grows names σ τ := by
  induction body generalizing σ τ with
  | nil =>
    cases h
    exact .refl _
  | simple s rest ih =>
    unfold statements at h
    obtain ⟨ρ, hs, hrest⟩ := bind_ok (guardOpen_ok h)
    refine Grows.trans (fun S hmem hrecorded => ?_) (ih hbody.2 hrest)
    exact simple_kept hbody.1 (ready_of_guardOpen h hmem hrecorded) hs
  | ite test body orelse rest ihbody ihorelse ihrest =>
    obtain ⟨htest, hbodyReadable, horelseReadable, hrestReadable⟩ := hbody
    unfold statements at h
    have hguard := h
    obtain ⟨σ₃, hbranch, h⟩ := bind_ok (guardOpen_ok h)
    obtain ⟨σ₄, hthen, h⟩ := bind_ok h
    obtain ⟨σ₅, helse, h⟩ := bind_ok h
    have hmeet : ∀ S : Set BlockName, σ.current ∈ σ.names →
        Recorded names (insert σ.current S) σ.current [] σ →
        Recorded names (insert σ₅.current (insert σ₄.current S)) σ₅.current [] σ₅ ∧
          σ₄.current ∈ σ₅.names ∧ σ₅.current ∈ σ₅.names ∧ ∀ m ∈ σ.names, m ∈ σ₅.names := by
      intro S hmem hrecorded
      obtain ⟨h₃, hnames⟩ := openBranch_recorded htest (ready_of_guardOpen hguard hmem hrecorded) rfl
        rfl rfl hbranch
      obtain ⟨h₅, hthenEnd, helseEnd, holder⟩ := branches_recorded (by simp [hnames]) (by simp [hnames])
        h₃ (ihbody hbodyReadable hthen) (ihorelse horelseReadable helse)
      exact ⟨h₅, hthenEnd, helseEnd, fun m hm => holder m (by simp [hnames, hm])⟩
    dsimp only at h
    split at h
    · rename_i hnone
      refine Grows.trans (fun S hmem hrecorded => ?_) (ihrest hrestReadable h)
      obtain ⟨h₅, -, helseEnd, holder⟩ := hmeet S hmem hrecorded
      refine ⟨?_, helseEnd, holder⟩
      have hclosed : σ₅.closed σ₄.current = true :=
        closed_of_notMem_open (n := σ₄.current) (by rw [hnone]; exact not_mem_nil) (.inl rfl)
      refine (h₅.closed hclosed).mono ?_
      rintro m ⟨rfl | rfl | hm, hne⟩
      · exact .inl rfl
      · exact absurd rfl hne
      · exact .inr hm
    · obtain ⟨ρ, hjoin, hrest⟩ := bind_ok h
      refine Grows.trans (fun S hmem hrecorded => ?_) (ihrest hrestReadable hrest)
      obtain ⟨h₅, hthenEnd, helseEnd, holder⟩ := hmeet S hmem hrecorded
      obtain ⟨hρ, hnames⟩ := meet_recorded hthenEnd helseEnd h₅ hjoin
      refine ⟨hρ.congr rfl rfl, ?_, ?_⟩
      · show σ₅.freshName .resume ∈ ρ.names
        simp [hnames]
      · intro m hm
        show m ∈ ρ.names
        simp [hnames, holder m hm]
  | whileLoop test body orelse rest ihbody ihorelse ihrest =>
    obtain ⟨htest, hbodyReadable, horelseReadable, hrestReadable⟩ := hbody
    unfold statements at h
    have hguard := h
    have h := guardOpen_ok h
    split at h
    · cases h
    obtain ⟨⟨⟨hd, d, a⟩, σ₁⟩, hopen, h⟩ := bind_ok h
    obtain ⟨σ₂, hheader, h⟩ := bind_ok h
    obtain ⟨σ₃, hlooped, h⟩ := bind_ok h
    obtain ⟨σ₄, hfall, h⟩ := bind_ok h
    obtain ⟨σ₅, helse, hrest⟩ := bind_ok h
    refine Grows.trans (fun S hmem hrecorded => ?_) (ihrest hrestReadable hrest)
    obtain ⟨h₁, hnames⟩ := openLoop_recorded (ready_of_guardOpen hguard hmem hrecorded) hopen
    have hedge : Alike ([] ++ test.loads.map .use)
      ((ProcessEdge.branch (.test test.unparse) d a).touches names) := htest.alike
    have h₂ := (h₁.recordUses (by simp [hnames]) test.loads).finish
      (by simp [hnames]) hedge hheader d
    have hnames₂ : σ₂.names = σ.names ++ [hd, d, a] := by
      rw [finish_names hheader, names_recordUses, hnames]
    refine loop_kept (by simp [hnames₂]) (by simp [hnames₂]) (fun m hm => by simp [hnames₂, hm])
      (h₂.mono ?_) (ihbody hbodyReadable hlooped) hfall (ihorelse horelseReadable helse)
    exact fun m hm => hm.1.resolve_left hm.2
  | forLoop target iter body orelse rest ihbody ihorelse ihrest =>
    obtain ⟨hiter, hbodyReadable, horelseReadable, hrestReadable⟩ := hbody
    unfold statements at h
    have hguard := h
    have h := guardOpen_ok h
    split at h
    · rename_i x _ _ _
      split at h
      · cases h
      obtain ⟨⟨⟨hd, d, a⟩, σ₁⟩, hopen, h⟩ := bind_ok h
      obtain ⟨σ₂, hheader, h⟩ := bind_ok h
      obtain ⟨σ₃, hlooped, h⟩ := bind_ok h
      obtain ⟨σ₄, hfall, h⟩ := bind_ok h
      obtain ⟨σ₅, helse, hrest⟩ := bind_ok h
      refine Grows.trans (fun S hmem hrecorded => ?_) (ihrest hrestReadable hrest)
      obtain ⟨h₁, hnames⟩ := openLoop_recorded (ready_of_guardOpen hguard hmem hrecorded) hopen
      have hedge : Alike ([] ++ iter.loads.map .use ++ [.assign x])
          ((ProcessEdge.branch (.next x iter.unparse) d a).touches names) := by
        refine Alike.append_right ?_ [.assign x]
        have huses := hiter.alike
        rw [touches, map_nil, append_nil] at huses
        exact huses
      have h₂ := ((h₁.recordUses (by simp [hnames]) iter.loads).recordDefinition
        (by simp [hnames]) x).finish
        (by simp [hnames]) hedge hheader d
      have hnames₂ : σ₂.names = σ.names ++ [hd, d, a] := by
        rw [finish_names hheader, names_recordDefinition, names_recordUses, hnames]
      refine loop_kept (by simp [hnames₂]) (by simp [hnames₂]) (fun m hm => by simp [hnames₂, hm])
        (h₂.mono ?_) (ihbody hbodyReadable hlooped) hfall (ihorelse horelseReadable helse)
      exact fun m hm => hm.1.resolve_left hm.2
    · cases h
    · cases h
  | ret value rest ih =>
    unfold statements at h
    have hguard := h
    have h := guardOpen_ok h
    split at h
    · obtain ⟨ρ, hret, hrest⟩ := bind_ok h
      refine Grows.trans (fun S hmem hrecorded => ?_) (ih hbody hrest)
      exact (ready_of_guardOpen hguard hmem hrecorded).finish (fun x => ⟨Iff.rfl, Iff.rfl⟩) hret
    · cases h
  | brk rest ih =>
    unfold statements at h
    have hguard := h
    have h := guardOpen_ok h
    split at h
    · cases h
    · obtain ⟨ρ, hbrk, hrest⟩ := bind_ok h
      refine Grows.trans (fun S hmem hrecorded => ?_) (ih hbody hrest)
      exact (ready_of_guardOpen hguard hmem hrecorded).finish (fun x => ⟨Iff.rfl, Iff.rfl⟩) hbrk
  | cont rest ih =>
    unfold statements at h
    have hguard := h
    have h := guardOpen_ok h
    split at h
    · cases h
    · obtain ⟨ρ, hcont, hrest⟩ := bind_ok h
      refine Grows.trans (fun S hmem hrecorded => ?_) (ih hbody hrest)
      exact (ready_of_guardOpen hguard hmem hrecorded).finish (fun x => ⟨Iff.rfl, Iff.rfl⟩) hcont

end Builder

end AgenticCircuit.Frontend
