import AgenticCircuit.Frontend.Builder

/-! # Regions of a control flow graph

What the builder makes of a body, said without the builder.  `Region` relates a statement list to
the part of a control flow graph that stands for it: where it starts, which blocks it owns, and
where control falls through, if it does.  The builder lays out regions (`statements_region`), and
everything about the graph is then an induction over regions.

* **`Layout`** is the graph as seen by name: the actions of a block and its edge.  The builder only
  adds blocks, actions and edges (`Refines`).
* **Loops.**  `Body.loopParts` is the common view of `while` and `for`.  The blocks after a loop
  stand for its `else` clause followed by the rest: the edge out of the header and every `break`
  lead there. -/

namespace AgenticCircuit.Frontend

open List ProcessEdge

/-! ### Layouts -/

/-- The blocks of a graph by name: actions and edge. -/
abbrev Layout := BlockName → Option (List ProcessAction × Option ProcessEdge)

def Builder.layout (σ : Builder) : Layout := fun n =>
  (σ.find n).map fun b => (b.actions, b.edge)

namespace ProcessProgram

def names (P : ProcessProgram) : List BlockName := P.blocks.map ProcessBlock.name

def layout (P : ProcessProgram) : Layout := fun n =>
  (P.blocks.find? (fun b => b.name == n)).map fun b => (b.actions, some b.edge)

/-- The order of creation of the blocks. -/
def index (P : ProcessProgram) (n : BlockName) : ℕ := P.names.idxOf n

theorem mem_names_of_layout (P : ProcessProgram) {n : BlockName}
    {a : List ProcessAction × Option ProcessEdge} (h : P.layout n = some a) : n ∈ P.names := by
  unfold layout at h
  obtain ⟨b, hb, -⟩ := Option.map_eq_some_iff.mp h
  have hname := find?_some hb
  rw [beq_iff_eq] at hname
  exact mem_map.mpr ⟨b, mem_of_find?_eq_some hb, hname⟩

end ProcessProgram

/-- A block may get more actions while it is open, and an edge once. -/
def EntryLe (a b : List ProcessAction × Option ProcessEdge) : Prop :=
  a.1 <+: b.1 ∧ ∀ e, a.2 = some e → b = a

variable {A B : Layout} {b : BlockName} {j : ℕ}

theorem EntryLe.refl (a : List ProcessAction × Option ProcessEdge) : EntryLe a a :=
  ⟨prefix_rfl, fun _ _ => rfl⟩

theorem EntryLe.trans {a b c : List ProcessAction × Option ProcessEdge} (h : EntryLe a b)
    (h' : EntryLe b c) : EntryLe a c := by
  refine ⟨h.1.trans h'.1, fun e he => ?_⟩
  have hb := h.2 e he
  subst hb
  exact h'.2 e he

/-- Every block of `A` is in `B`, at least as far as in `A`. -/
def Refines (A B : Layout) : Prop :=
  ∀ n a, A n = some a → ∃ b, B n = some b ∧ EntryLe a b

theorem Refines.refl (A : Layout) : Refines A A := fun _ a ha => ⟨a, ha, .refl a⟩

theorem Refines.trans {C : Layout} (h : Refines A B) (h' : Refines B C) : Refines A C := by
  intro n a ha
  obtain ⟨b, hb, hab⟩ := h n a ha
  obtain ⟨c, hc, hbc⟩ := h' n b hb
  exact ⟨c, hc, hab.trans hbc⟩

/-- The block `b` performs `a` as its action number `j`. -/
def ActsAt (P : Layout) (b : BlockName) (j : ℕ) (a : ProcessAction) : Prop :=
  ∃ acts e, P b = some (acts, e) ∧ acts[j]? = some a

/-- The block `b` has `j` actions and ends with `e`. -/
def EndsWith (P : Layout) (b : BlockName) (j : ℕ) (e : ProcessEdge) : Prop :=
  ∃ acts, P b = some (acts, some e) ∧ acts.length = j

theorem ActsAt.refines (h : Refines A B) {a : ProcessAction} (ha : ActsAt A b j a) :
    ActsAt B b j a := by
  obtain ⟨acts, e, hb, hj⟩ := ha
  obtain ⟨⟨acts', e'⟩, hb', hle⟩ := h b _ hb
  obtain ⟨more, hmore⟩ := hle.1
  refine ⟨acts', e', hb', ?_⟩
  have hmore : acts ++ more = acts' := hmore
  rw [← hmore]
  exact getElem?_append_left (List.getElem?_eq_some_iff.mp hj).1 ▸ hj

theorem EndsWith.refines (h : Refines A B) {e : ProcessEdge} (he : EndsWith A b j e) :
    EndsWith B b j e := by
  obtain ⟨acts, hb, hj⟩ := he
  obtain ⟨entry, hb', hle⟩ := h b _ hb
  rw [hle.2 e rfl] at hb'
  exact ⟨acts, hb', hj⟩

/-! ### Loops -/

/-- The common parts of the two loop statements; a `for` loop has a target. -/
structure LoopParts where
  condition : Condition
  target : Option String
  body : Body
  orelse : Body
  rest : Body

/-- The loop at the head of a statement list. -/
def Body.loopParts : Body → Option LoopParts
  | .whileLoop test body orelse rest => some ⟨.test test.unparse, none, body, orelse, rest⟩
  | .forLoop (.name x) iter body orelse rest =>
    some ⟨.next x iter.unparse, some x, body, orelse, rest⟩
  | _ => none

/-- The base of a loop's header block. -/
def LoopParts.header (l : LoopParts) : BlockBase :=
  if l.target.isSome then .forLoop else .loop

/-- Control that falls through at `fall` goes on to `target`. -/
def FallsTo (P : Layout) (fall : Option (BlockName × ℕ)) (target : BlockName) : Prop :=
  ∀ x k, fall = some (x, k) → EndsWith P x k (.jump target)

/-! ### Regions -/

/-- `Region env P index loops body b j owned fall`: from action `j` of block `b` on, the graph `P`
stands for `body`, inside the loops whose headers and exits are `loops`.  Besides `b` it owns the
blocks `owned`, listed in the order in which they are laid out, and control falls through at
`fall`.  `index` is the order of creation. -/
inductive Region (env : Environment) (P : Layout) (index : BlockName → ℕ) :
    List (BlockName × BlockName) → Body → BlockName → ℕ → List BlockName →
    Option (BlockName × ℕ) → Prop
  | nil {loops : List (BlockName × BlockName)} {b : BlockName} {j : ℕ} :
      Region env P index loops .nil b j [] (some (b, j))
  | skip {loops : List (BlockName × BlockName)} {s : Simple} {rest : Body} {b : BlockName}
      {j : ℕ} {owned : List BlockName} {fall : Option (BlockName × ℕ)}
      (hs : env.meaning s = some .skip) (hrest : Region env P index loops rest b j owned fall) :
      Region env P index loops (.simple s rest) b j owned fall
  | action {loops : List (BlockName × BlockName)} {s : Simple} {rest : Body} {b : BlockName}
      {j : ℕ} {owned : List BlockName} {fall : Option (BlockName × ℕ)} {a : ProcessAction}
      (hs : env.meaning s = some (.action a)) (ha : ActsAt P b j a)
      (hrest : Region env P index loops rest b (j + 1) owned fall) :
      Region env P index loops (.simple s rest) b j owned fall
  | suspend {loops : List (BlockName × BlockName)} {s : Simple} {rest : Body} {b t : BlockName}
      {j : ℕ} {owned : List BlockName} {fall : Option (BlockName × ℕ)} {operation : String}
      {arguments : List String} (hs : env.meaning s = some (.suspend operation arguments))
      (hend : EndsWith P b j (.suspend operation arguments t))
      (hrest : Region env P index loops rest t 0 owned fall) :
      Region env P index loops (.simple s rest) b j (t :: owned) fall
  | restart {loops : List (BlockName × BlockName)} {s : Simple} {b : BlockName} {j : ℕ}
      {arguments : List String} (hs : env.meaning s = some (.restart arguments))
      (hend : EndsWith P b j (.suspend "yield_sim" arguments entryName)) :
      Region env P index loops (.simple s .nil) b j [] none
  | ite {loops : List (BlockName × BlockName)} {test : Expr} {body orelse rest : Body}
      {b t f m : BlockName} {j : ℕ} {owned₁ owned₂ owned : List BlockName}
      {fall₁ fall₂ fall : Option (BlockName × ℕ)}
      (hend : EndsWith P b j (.branch (.test test.unparse) t f))
      (hbody : Region env P index loops body t 0 owned₁ fall₁)
      (horelse : Region env P index loops orelse f 0 owned₂ fall₂)
      (hjoin₁ : FallsTo P fall₁ m) (hjoin₂ : FallsTo P fall₂ m)
      (hopen : fall₁.isSome ∨ fall₂.isSome) (hkind : ∀ x ∈ [t, f, m], x.base ≠ .forLoop)
      (hrest : Region env P index loops rest m 0 owned fall) :
      Region env P index loops (.ite test body orelse rest) b j
        (t :: owned₁ ++ f :: owned₂ ++ m :: owned) fall
  | iteClosed {loops : List (BlockName × BlockName)} {test : Expr} {body orelse : Body}
      {b t f : BlockName} {j : ℕ} {owned₁ owned₂ : List BlockName}
      (hend : EndsWith P b j (.branch (.test test.unparse) t f))
      (hbody : Region env P index loops body t 0 owned₁ none)
      (horelse : Region env P index loops orelse f 0 owned₂ none)
      (hkind : ∀ x ∈ [t, f], x.base ≠ .forLoop) :
      Region env P index loops (.ite test body orelse .nil) b j (t :: owned₁ ++ f :: owned₂) none
  | loop {loops : List (BlockName × BlockName)} {s : Body} {l : LoopParts}
      {b h d a : BlockName} {j : ℕ} {owned₁ owned₂ : List BlockName}
      {fall₁ fall : Option (BlockName × ℕ)} (hs : s.loopParts = some l)
      (hbase : h.base = l.header)
      (hcheck : l.target = none → Builder.canReachBackedge env true l.body = false)
      (henter : EndsWith P b j (.jump h))
      (hheader : EndsWith P h 0 (.branch l.condition d a))
      (hbody : Region env P index ((h, a) :: loops) l.body d 0 owned₁ fall₁)
      (hback : FallsTo P fall₁ h)
      (hafter : Region env P index loops (l.orelse.append l.rest) a 0 owned₂ fall)
      (hbefore : index b < index h) (hinside : ∀ x ∈ d :: owned₁, index h < index x)
      (hkind : ∀ x ∈ [d, a], x.base ≠ .forLoop) (hda : d ≠ a) :
      Region env P index loops s b j (h :: d :: owned₁ ++ a :: owned₂) fall
  | ret {loops : List (BlockName × BlockName)} {value : Option Expr} {b : BlockName} {j : ℕ}
      (hend : EndsWith P b j .ret) : Region env P index loops (.ret value .nil) b j [] none
  | brk {loops : List (BlockName × BlockName)} {h a b : BlockName} {j : ℕ}
      (hend : EndsWith P b j (.jump a)) :
      Region env P index ((h, a) :: loops) (.brk .nil) b j [] none
  | cont {loops : List (BlockName × BlockName)} {h a b : BlockName} {j : ℕ}
      (hend : EndsWith P b j (.jump h)) :
      Region env P index ((h, a) :: loops) (.cont .nil) b j [] none

section append

variable {env : Environment} {P : Layout} {index : BlockName → ℕ}

theorem loopParts_append {s : Body} {l : LoopParts} (h : s.loopParts = some l) (more : Body) :
    (s.append more).loopParts = some { l with rest := l.rest.append more } := by
  cases s with
  | whileLoop test body orelse rest =>
    cases h
    rfl
  | forLoop target iter body orelse rest =>
    cases target with
    | name x =>
      cases h
      rfl
    | pair | other => cases h
  | nil | simple | ite | ret | brk | cont => cases h

theorem Body.append_assoc (a b c : Body) : (a.append b).append c = a.append (b.append c) := by
  induction a with
  | nil => rfl
  | simple _ _ ih | ite _ _ _ _ _ _ ih | whileLoop _ _ _ _ _ _ ih | forLoop _ _ _ _ _ _ _ ih
  | ret _ _ ih | brk _ ih | cont _ ih => simp only [append, ih]

/-- Two regions in a row. -/
theorem Region.append {loops : List (BlockName × BlockName)} {s more : Body} {b x : BlockName}
    {j k : ℕ} {owned owned' : List BlockName} {fall' : Option (BlockName × ℕ)}
    (h : Region env P index loops s b j owned (some (x, k)))
    (h' : Region env P index loops more x k owned' fall') :
    Region env P index loops (s.append more) b j (owned ++ owned') fall' := by
  generalize hfall : some (x, k) = fall at h
  induction h with
  | nil =>
    cases hfall
    exact h'
  | skip hs _ ih => exact .skip hs (ih h' hfall)
  | action hs ha _ ih => exact .action hs ha (ih h' hfall)
  | suspend hs hend _ ih => exact .suspend hs hend (ih h' hfall)
  | ite hend hbody horelse hjoin₁ hjoin₂ hopen hkind _ _ _ ih =>
    rw [List.append_assoc]
    exact .ite hend hbody horelse hjoin₁ hjoin₂ hopen hkind (ih h' hfall)
  | loop hs hbase hcheck henter hheader hbody hback hafter hbefore hinside hkind hda _ ih =>
    rw [List.append_assoc]
    refine .loop (loopParts_append hs more) hbase hcheck henter hheader hbody hback ?_ hbefore
      hinside hkind hda
    rw [← Body.append_assoc]
    exact ih h' hfall
  | restart | iteClosed | ret | brk | cont => cases hfall

end append

/-! ### Edges of a region -/

section edges

variable {env : Environment} {P : Layout} {index : BlockName → ℕ}
  {loops : List (BlockName × BlockName)} {body : Body} {b : BlockName} {j : ℕ}
  {owned : List BlockName} {fall : Option (BlockName × ℕ)}

theorem Region.fall_mem (h : Region env P index loops body b j owned fall) {x : BlockName} {k : ℕ}
    (hfall : fall = some (x, k)) : x ∈ b :: owned := by
  induction h with
  | nil =>
    cases hfall
    exact mem_cons_self
  | skip _ _ ih | action _ _ _ ih => exact ih hfall
  | suspend _ _ _ ih => exact mem_cons_of_mem _ (ih hfall)
  | ite _ _ _ _ _ _ _ _ _ _ ih | loop _ _ _ _ _ _ _ _ _ _ _ _ _ ih =>
    exact mem_cons_of_mem _ (mem_append_right _ (ih hfall))
  | restart | iteClosed | ret | brk | cont => cases hfall

/-- A target of the innermost loop. -/
def Leaves (loops : List (BlockName × BlockName)) (y : BlockName) : Prop :=
  ∃ header after rest, loops = (header, after) :: rest ∧ (y = header ∨ y = after)

/-- Every edge of a region leads to a block of the region, to the innermost loop, or back to the
entry block; the edge of the block where control falls through belongs to what follows. -/
theorem Region.edges (h : Region env P index loops body b j owned fall) {x y : BlockName}
    (hx : x ∈ b :: owned) (hfall : ∀ k, fall ≠ some (x, k)) {acts : List ProcessAction}
    {e : ProcessEdge} (he : P x = some (acts, some e)) (hy : y ∈ e.targets) :
    y ∈ b :: owned ∨ Leaves loops y ∨ e.isSuspend = true := by
  have hedge : ∀ {k : ℕ} {e' : ProcessEdge}, EndsWith P x k e' → e = e' := by
    rintro k e' ⟨acts', hx', -⟩
    rw [he] at hx'
    cases hx'
    rfl
  have hpart : ∀ {outer : List (BlockName × BlockName)} {part : List BlockName}
      {fall : Option (BlockName × ℕ)} {m : BlockName}, FallsTo P fall m →
      ((∀ k, fall ≠ some (x, k)) → y ∈ part ∨ Leaves outer y ∨ e.isSuspend = true) →
      y = m ∨ y ∈ part ∨ Leaves outer y ∨ e.isSuspend = true := by
    intro outer part fall m hjoin h
    by_cases hx : ∃ k, fall = some (x, k)
    · obtain ⟨k, hx⟩ := hx
      rw [hedge (hjoin x k hx), targets, mem_singleton] at hy
      exact .inl hy
    · exact .inr (h (by simpa using hx))
  induction h with
  | @nil _ b j =>
    rw [mem_singleton] at hx
    subst hx
    exact absurd rfl (hfall j)
  | skip _ _ ih | action _ _ _ ih => exact ih hx hfall
  | suspend _ hend _ ih =>
    obtain rfl | hx := mem_cons.mp hx
    · rw [hedge hend]
      exact .inr (.inr rfl)
    · exact (ih hx hfall).imp_left (mem_cons_of_mem _)
  | restart _ hend =>
    rw [mem_singleton] at hx
    subst hx
    rw [hedge hend]
    exact .inr (.inr rfl)
  | ite hend _ _ hjoin₁ hjoin₂ _ _ _ ihbody ihorelse ihrest =>
    obtain rfl | hx := mem_cons.mp hx
    · rw [hedge hend, targets] at hy
      grind
    rw [mem_append, mem_append] at hx
    obtain (hx | hx) | hx := hx
    · have hstep := hpart hjoin₁ (ihbody hx)
      grind
    · have hstep := hpart hjoin₂ (ihorelse hx)
      grind
    · have hstep := ihrest hx hfall
      grind
  | iteClosed hend _ _ _ ihbody ihorelse =>
    obtain rfl | hx := mem_cons.mp hx
    · rw [hedge hend, targets] at hy
      grind
    obtain hx | hx := mem_append.mp hx
    · have hstep := ihbody hx hfall
      grind
    · have hstep := ihorelse hx hfall
      grind
  | loop _ _ _ henter hheader _ hback _ _ _ _ _ ihbody ihafter =>
    obtain rfl | hx := mem_cons.mp hx
    · rw [hedge henter, targets] at hy
      grind
    obtain hx | hx := mem_append.mp hx
    · obtain rfl | hx := mem_cons.mp hx
      · rw [hedge hheader, targets] at hy
        grind
      obtain hy | hy | ⟨header, after, more, hloops, hy⟩ | hs := hpart hback (ihbody hx)
      · grind
      · grind
      · cases hloops
        grind
      · exact .inr (.inr hs)
    · have hstep := ihafter hx hfall
      grind
  | ret hend =>
    rw [mem_singleton] at hx
    subst hx
    rw [hedge hend] at hy
    cases hy
  | brk hend =>
    rw [mem_singleton] at hx
    subst hx
    rw [hedge hend, targets, mem_singleton] at hy
    exact .inr (.inl ⟨_, _, _, rfl, .inr hy⟩)
  | cont hend =>
    rw [mem_singleton] at hx
    subst hx
    rw [hedge hend, targets, mem_singleton] at hy
    exact .inr (.inl ⟨_, _, _, rfl, .inl hy⟩)

end edges

end AgenticCircuit.Frontend
