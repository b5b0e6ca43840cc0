import AgenticCircuit.Lib.Graph
import AgenticCircuit.Frontend.Lowering

/-! # Progress of runtime loops

`construct_process` refuses a `while` loop whose body may end without a suspension, so that a
process cannot run forever inside one activation.  This module says when that is achieved.

* **Quiet edges** are the edges that are no suspension and no back edge of a `for` loop.
  `Progress` says that they form no cycle.
* **`falls` and `continues`** follow the quiet edges of a statement list exactly: whether control
  can reach its end, and whether it can reach a `continue` of the loop around it.
* The check bounds `falls` from above, but it stops at a statement after which control cannot fall
  through and does not look into loops: a `continue` in a branch before the suspension is missed.
  `progress_iff_no_quiet_continue` is the exact condition. -/

namespace AgenticCircuit.Frontend

open List Environment Builder Body ProcessEdge
open Bool (and_eq_true or_eq_true and_eq_false_iff)
open Relation (TransGen ReflTransGen)
open AgenticCircuit.Graph (Acyclic On acyclic_of_no_step acyclic_on_layers acyclic_on_singleton
  acyclic_on_union)

/-! ### Quiet edges -/

/-- The back edge of a `for` loop: it leads to a `for` header created before its own block. -/
def ForBackedge (index : BlockName → ℕ) (x y : BlockName) : Prop :=
  y.base = .forLoop ∧ index y < index x

/-- An edge that neither suspends nor is the back edge of a `for` loop. -/
def QuietEdge (P : Layout) (index : BlockName → ℕ) (x y : BlockName) : Prop :=
  ∃ acts e, P x = some (acts, some e) ∧ e.isSuspend = false ∧ y ∈ e.targets ∧
    ¬ ForBackedge index x y

/-- Every cycle of the graph without the back edges of `for` loops has a suspending block. -/
def Progress (P : ProcessProgram) : Prop := Acyclic (QuietEdge P.layout P.index)

/-! ### The quiet paths of a statement list -/

namespace Environment

variable (env : Environment)

/-- Control goes on behind the statement without a suspension. -/
def goesOn (s : Simple) : Bool :=
  match env.meaning s with
  | some .skip => true
  | some (.action _) => true
  | _ => false

/-- Control can reach the end of the list without a suspension. -/
def falls : Body → Bool
  | .nil => true
  | .simple s rest => env.goesOn s && falls rest
  | .ite _ body orelse rest => (falls body || falls orelse) && falls rest
  | .whileLoop _ _ orelse rest => falls orelse && falls rest
  | .forLoop _ _ _ orelse rest => falls orelse && falls rest
  | .ret _ _ => false
  | .brk _ => false
  | .cont _ => false

/-- Control can reach a `continue` of the enclosing loop without a suspension. -/
def continues : Body → Bool
  | .nil => false
  | .simple s rest => env.goesOn s && continues rest
  | .ite _ body orelse rest => continues body || continues orelse ||
      ((env.falls body || env.falls orelse) && continues rest)
  | .whileLoop _ _ orelse rest => continues orelse || (env.falls orelse && continues rest)
  | .forLoop _ _ _ orelse rest => continues orelse || (env.falls orelse && continues rest)
  | .ret _ _ => false
  | .brk _ => false
  | .cont _ => true

/-- In no `while` loop of the list can a `continue` be reached from the start of the loop body
without a suspension. -/
def noQuietContinue : Body → Bool
  | .nil => true
  | .simple _ rest => noQuietContinue rest
  | .ite _ body orelse rest =>
    noQuietContinue body && noQuietContinue orelse && noQuietContinue rest
  | .whileLoop _ body orelse rest => !env.continues body && noQuietContinue body &&
      noQuietContinue orelse && noQuietContinue rest
  | .forLoop _ _ body orelse rest =>
    noQuietContinue body && noQuietContinue orelse && noQuietContinue rest
  | .ret _ rest => noQuietContinue rest
  | .brk rest => noQuietContinue rest
  | .cont rest => noQuietContinue rest

variable {env}

variable {s : Body} {l : LoopParts}

theorem falls_append (s more : Body) :
    env.falls (s.append more) = (env.falls s && env.falls more) := by
  induction s with
  | nil => simp [append, falls]
  | simple s rest ih | ite test body orelse rest _ _ ih
  | whileLoop test body orelse rest _ _ ih | forLoop target iter body orelse rest _ _ ih =>
    simp [append, falls, ih, Bool.and_assoc]
  | ret | brk | cont => rfl

theorem continues_append (s more : Body) :
    env.continues (s.append more) = (env.continues s || (env.falls s && env.continues more)) := by
  induction s with
  | nil => simp [append, continues, falls]
  | simple s rest ih =>
    cases hs : env.goesOn s <;> simp [append, continues, falls, ih, hs]
  | ite test body orelse rest _ _ ih =>
    simp only [append, continues, falls, ih]
    cases env.falls body || env.falls orelse <;> simp [Bool.or_assoc]
  | whileLoop test body orelse rest _ _ ih | forLoop target iter body orelse rest _ _ ih =>
    simp only [append, continues, falls, ih]
    cases env.falls orelse <;> simp [Bool.or_assoc]
  | ret | brk | cont => rfl

theorem noQuietContinue_append (s more : Body) :
    env.noQuietContinue (s.append more) = (env.noQuietContinue s && env.noQuietContinue more) := by
  induction s with
  | nil => simp [append, noQuietContinue]
  | simple s rest ih | ret value rest ih | brk rest ih | cont rest ih =>
    simp [append, noQuietContinue, ih]
  | ite test body orelse rest _ _ ih | whileLoop test body orelse rest _ _ ih
  | forLoop target iter body orelse rest _ _ ih =>
    simp [append, noQuietContinue, ih, Bool.and_assoc]

/-! The three predicates on a loop, by its parts. -/

theorem falls_loop (h : s.loopParts = some l) :
    env.falls s = env.falls (l.orelse.append l.rest) := by
  rw [falls_append]
  match s, h with
  | .whileLoop _ _ _ _, h | .forLoop (.name _) _ _ _ _, h => cases h; rfl

theorem continues_loop (h : s.loopParts = some l) :
    env.continues s = env.continues (l.orelse.append l.rest) := by
  rw [continues_append]
  match s, h with
  | .whileLoop _ _ _ _, h | .forLoop (.name _) _ _ _ _, h => cases h; rfl

theorem noQuietContinue_loop (h : s.loopParts = some l) :
    env.noQuietContinue s = ((l.target.isSome || !env.continues l.body) &&
      env.noQuietContinue l.body && env.noQuietContinue (l.orelse.append l.rest)) := by
  rw [noQuietContinue_append]
  match s, h with
  | .whileLoop _ _ _ _, h | .forLoop (.name _) _ _ _ _, h =>
    cases h; simp [noQuietContinue, Bool.and_assoc]

theorem canReachBackedge_call {c : Call} (h : env.goesOn (.expr (.call c)) = true) (rest : Body) :
    canReachBackedge env true (.simple (.expr (.call c)) rest)
      = canReachBackedge env true rest := by
  cases hfunc : c.func with
  | other text => simp only [canReachBackedge, hfunc]
  | name id =>
    simp only [goesOn, meaning, callMeaning, hfunc] at h
    simp only [canReachBackedge, hfunc]
    cases hfind : env.effects.find id with
    | none => rfl
    | some d =>
      simp only [hfind] at h
      have hd : d.suspension = false := by
        by_contra hd
        rw [Bool.not_eq_false] at hd
        by_cases hk : (c.keywords.any fun k => k.1.isNone) = true
        · simp [hk] at h
        · by_cases hy : id = "yield_sim" <;> simp [hd, hy] at h
      rw [Option.any_some, hd]
      rfl

theorem canReachBackedge_of_falls {body : Body} (h : env.falls body = true) :
    canReachBackedge env true body = true := by
  induction body with
  | nil => rfl
  | simple s rest ih =>
    rw [falls, and_eq_true] at h
    match s with
    | .expr (.call c) =>
      rw [canReachBackedge_call h.1]
      exact ih h.2
    | .expr (.operand _) | .assign _ _ | .pass | .other _ => exact ih h.2
  | ite test body orelse rest ihbody ihorelse ihrest =>
    rw [falls, and_eq_true, or_eq_true] at h
    unfold canReachBackedge
    have hor : (canReachBackedge env true body ||
        canReachBackedge env true orelse) = true := by
      rw [or_eq_true]
      exact h.1.imp ihbody ihorelse
    rw [hor]
    exact ihrest h.2
  | whileLoop test body orelse rest _ _ ih | forLoop target iter body orelse rest _ _ ih =>
    rw [falls, and_eq_true] at h
    exact ih h.2
  | ret | brk | cont => cases h

end Environment

/-! ### Quiet paths in a region -/

section regions

variable {env : Environment} {P : Layout} {index : BlockName → ℕ}
  {loops : List (BlockName × BlockName)} {body : Body} {b : BlockName} {j : ℕ}
  {owned : List BlockName} {fall : Option (BlockName × ℕ)}
variable {N₁ N₂ N₃ : List BlockName} {condition : Condition} {fall₁ : Option (BlockName × ℕ)}
  {k : ℕ} {t x y : BlockName}

theorem EndsWith.quiet {e : ProcessEdge} (h : EndsWith P x k e) :
    QuietEdge P index x y ↔ e.isSuspend = false ∧ y ∈ e.targets ∧ ¬ ForBackedge index x y := by
  obtain ⟨acts, hx, -⟩ := h
  constructor
  · rintro ⟨acts', e', hx', hquiet⟩
    rw [hx] at hx'
    cases hx'
    exact hquiet
  · intro hquiet
    exact ⟨acts, e, hx, hquiet⟩

theorem EndsWith.quiet_jump {z : BlockName} (h : EndsWith P x k (.jump z)) :
    QuietEdge P index x y ↔ y = z ∧ ¬ ForBackedge index x y := by
  rw [h.quiet]
  simp [isSuspend, targets]

variable {f : BlockName} {N : List BlockName} {falls back : Bool}

theorem EndsWith.quiet_branch (h : EndsWith P x k (.branch condition t f)) :
    QuietEdge P index x y ↔ (y = t ∨ y = f) ∧ ¬ ForBackedge index x y := by
  rw [h.quiet]
  simp [isSuspend, targets]

theorem not_forBackedge_of_base (h : y.base ≠ .forLoop) :
    ¬ ForBackedge index x y := fun hback => h hback.1

theorem not_forBackedge_of_lt (h : index x < index y) :
    ¬ ForBackedge index x y := fun hback => absurd hback.2 (Nat.lt_asymm h)

theorem goesOn_eq_false {s : Simple} {m : Meaning} (hs : env.meaning s = some m)
    (hskip : m ≠ .skip) (haction : ∀ a, m ≠ .action a) : env.goesOn s = false := by
  unfold goesOn
  rw [hs]
  cases m with
  | skip => exact absurd rfl hskip
  | action a => exact absurd rfl (haction a)
  | suspend | restart => rfl

/-- A block that satisfies `goal` can be reached without a suspension. -/
def Reaches (P : Layout) (index : BlockName → ℕ) (goal : BlockName → Prop) (b : BlockName) : Prop :=
  ∃ x, goal x ∧ ReflTransGen (QuietEdge P index) b x

theorem Reaches.of_path {goal : BlockName → Prop} (h : Reaches P index goal y)
    (hpath : ReflTransGen (QuietEdge P index) x y) : Reaches P index goal x := by
  obtain ⟨z, hz, hyz⟩ := h
  exact ⟨z, hz, hpath.trans hyz⟩

/-- The block ends with a `continue` of the innermost loop. -/
def Repeats (P : Layout) (loops : List (BlockName × BlockName)) (x : BlockName) : Prop :=
  ∃ header after rest k, loops = (header, after) :: rest ∧ EndsWith P x k (.jump header)

variable (index) in
theorem EndsWith.quiet_arms (hend : EndsWith P b j (.branch condition t f)) (ht : t.base ≠ .forLoop)
    (hf : f.base ≠ .forLoop) : ReflTransGen (QuietEdge P index) b t ∧
      ReflTransGen (QuietEdge P index) b f :=
  ⟨.single (hend.quiet_branch.mpr ⟨.inl rfl, not_forBackedge_of_base ht⟩),
    .single (hend.quiet_branch.mpr ⟨.inr rfl, not_forBackedge_of_base hf⟩)⟩

/-- What `falls` and `continues` promise is there. -/
theorem Region.quiet_paths (h : Region env P index loops body b j owned fall) :
    (env.falls body = true → Reaches P index (fun x => ∃ k, fall = some (x, k)) b) ∧
    (env.continues body = true → Reaches P index (Repeats P loops) b) := by
  induction h with
  | nil =>
    refine ⟨fun _ => ⟨_, ⟨_, rfl⟩, .refl⟩, fun h => ?_⟩
    cases h
  | skip hs _ ih | action hs _ _ ih =>
    simp only [falls, continues, and_eq_true]
    exact ⟨fun h => ih.1 h.2, fun h => ih.2 h.2⟩
  | suspend hs | restart hs =>
    have hgoes := goesOn_eq_false hs (by simp) (by simp)
    simp [falls, continues, hgoes]
  | @ite loops test body orelse rest b t f m j _ _ _ fall₁ fall₂ _ hend _ _ hjoin₁ hjoin₂ _ hkind _
      ihbody ihorelse ihrest =>
    obtain ⟨ht, hf⟩ := hend.quiet_arms index (hkind t (by simp)) (hkind f (by simp))
    have hm : ∀ x, ¬ ForBackedge index x m :=
      fun x => not_forBackedge_of_base (hkind m (by simp))
    have hjoin : (env.falls body || env.falls orelse) = true →
        ReflTransGen (QuietEdge P index) b m := by
      intro h
      obtain h | h := Bool.or_eq_true_iff.mp h
      · obtain ⟨x, ⟨k, hfall⟩, hpath⟩ := ihbody.1 h
        exact (ht.trans hpath).tail ((hjoin₁ x k hfall).quiet_jump.mpr ⟨rfl, hm x⟩)
      · obtain ⟨x, ⟨k, hfall⟩, hpath⟩ := ihorelse.1 h
        exact (hf.trans hpath).tail ((hjoin₂ x k hfall).quiet_jump.mpr ⟨rfl, hm x⟩)
    simp only [falls, continues, or_eq_true, and_eq_true] at hjoin ⊢
    refine ⟨fun h => (ihrest.1 h.2).of_path (hjoin h.1), ?_⟩
    rintro ((h | h) | h)
    · exact (ihbody.2 h).of_path ht
    · exact (ihorelse.2 h).of_path hf
    · exact (ihrest.2 h.2).of_path (hjoin h.1)
  | @iteClosed loops test body orelse b t f j _ _ hend _ _ hkind ihbody ihorelse =>
    obtain ⟨ht, hf⟩ := hend.quiet_arms index (hkind t (by simp)) (hkind f (by simp))
    simp only [falls, continues, or_eq_true, and_eq_true, Bool.false_eq_true, and_false, or_false]
    constructor
    · rintro ⟨h | h, -⟩
      · obtain ⟨x, ⟨k, hfall⟩, -⟩ := ihbody.1 h
        cases hfall
      · obtain ⟨x, ⟨k, hfall⟩, -⟩ := ihorelse.1 h
        cases hfall
    · rintro (h | h)
      · exact (ihbody.2 h).of_path ht
      · exact (ihorelse.2 h).of_path hf
  | @loop loops s l b h d a j _ _ _ _ hs _ _ henter hheader _ _ _ hbefore _ hkind _ _ ihafter =>
    have hh : QuietEdge P index b h := henter.quiet_jump.mpr ⟨rfl, not_forBackedge_of_lt hbefore⟩
    have ha := (hheader.quiet_arms index (hkind d (by simp)) (hkind a (by simp))).2.head hh
    rw [falls_loop hs, continues_loop hs]
    exact ⟨fun h => (ihafter.1 h).of_path ha, fun h => (ihafter.2 h).of_path ha⟩
  | ret | brk => simp [falls, continues]
  | cont hend =>
    refine ⟨fun h => ?_, fun _ => ⟨_, ⟨_, _, _, _, rfl, hend⟩, .refl⟩⟩
    cases h

theorem Region.quiet_cycle (h : Region env P index loops body b j owned fall)
    (hbody : env.noQuietContinue body = false) : ∃ x, TransGen (QuietEdge P index) x x := by
  induction h with
  | nil | restart => cases hbody
  | skip _ _ ih | action _ _ _ ih | suspend _ _ _ ih => exact ih hbody
  | ite _ _ _ _ _ _ _ _ ihbody ihorelse ihrest =>
    rw [noQuietContinue, and_eq_false_iff, and_eq_false_iff] at hbody
    obtain (hbody | hbody) | hbody := hbody
    · exact ihbody hbody
    · exact ihorelse hbody
    · exact ihrest hbody
  | iteClosed _ _ _ _ ihbody ihorelse =>
    rw [noQuietContinue, and_eq_false_iff, and_eq_false_iff] at hbody
    obtain (hbody | hbody) | hbody := hbody
    · exact ihbody hbody
    · exact ihorelse hbody
    · cases hbody
  | @loop loops s l b h d a _ _ _ _ _ hs hbase _ _ hheader hregion _ _ _ _ hkind _ ihbody
      ihafter =>
    rw [noQuietContinue_loop hs, and_eq_false_iff, and_eq_false_iff, Bool.or_eq_false_iff] at hbody
    obtain (⟨htarget, hcont⟩ | hbody) | hbody := hbody
    · obtain ⟨x, ⟨header, after, rest, k, hloops, hx⟩, hpath⟩ :=
        hregion.quiet_paths.2 (by simpa using hcont)
      cases hloops
      have hloop : h.base ≠ .forLoop := by
        rw [hbase, LoopParts.header, htarget]
        simp
      have hd : QuietEdge P index h d :=
        hheader.quiet_branch.mpr ⟨.inl rfl, not_forBackedge_of_base (hkind d (by simp))⟩
      exact ⟨h, .tail' (hpath.head hd) (hx.quiet_jump.mpr ⟨rfl, not_forBackedge_of_base hloop⟩)⟩
    · exact ihbody hbody
    · exact ihafter hbody
  | ret | brk | cont => cases hbody

/-! ### Quiet edges stay inside, and come back to a header only quietly -/

/-- A set of blocks of a region from which quiet edges lead out only where control falls through,
to the exit of the innermost loop and, if `back`, to its header. -/
structure Near (P : Layout) (index : BlockName → ℕ) (loops : List (BlockName × BlockName))
    (N : List BlockName) (fall : Option (BlockName × ℕ)) (falls back : Bool) (S : BlockName → Prop) :
    Prop where
  sub : ∀ x, S x → x ∈ N
  closed : ∀ x y, S x → (∀ k, fall ≠ some (x, k)) → QuietEdge P index x y →
    S y ∨ ∃ header after rest, loops = (header, after) :: rest ∧
      (y = after ∨ y = header ∧ back = true)
  falls : ∀ x k, fall = some (x, k) → S x → falls = true

theorem Near.empty : Near P index loops N fall falls back fun _ => False :=
  ⟨fun _ h => h.elim, fun _ _ h => h.elim, fun _ _ _ h => h.elim⟩

variable {fall₂ : Option (BlockName × ℕ)} {m : BlockName} {S : BlockName → Prop}

/-- An edge of the set is the one where control falls through, or stays in it or leaves the loop. -/
theorem Near.step (h : Near P index loops N fall falls back S) (hjoin : FallsTo P fall m) (hx : S x)
    (hq : QuietEdge P index x y) : (y = m ∧ falls = true) ∨ S y ∨ ∃ header after rest,
      loops = (header, after) :: rest ∧ (y = after ∨ y = header ∧ back = true) := by
  by_cases hfall : ∃ k, fall = some (x, k)
  · obtain ⟨k, hfall⟩ := hfall
    exact .inl ⟨((hjoin x k hfall).quiet_jump.mp hq).1, h.falls x k hfall hx⟩
  · exact .inr (h.closed x y hx (by simpa using hfall) hq)

/-- Two branches and what follows them. -/
theorem Near.ite {f₁ f₂ f₃ c₁ c₂ c₃ : Bool} {S₁ S₂ S₃ : BlockName → Prop}
    (hend : EndsWith P b j (.branch condition t f)) (h₁ : Near P index loops N₁ fall₁ f₁ c₁ S₁)
    (h₂ : Near P index loops N₂ fall₂ f₂ c₂ S₂) (h₃ : Near P index loops N₃ fall f₃ c₃ S₃)
    (hjoin₁ : FallsTo P fall₁ m) (hjoin₂ : FallsTo P fall₂ m) (ht : S₁ t) (hf : S₂ f)
    (hm : f₁ = true ∨ f₂ = true → S₃ m) (hfall : ∀ x k, fall = some (x, k) → x ∈ N₃)
    (hnodup : (b :: (N₁ ++ N₂ ++ N₃)).Nodup) :
    Near P index loops (b :: (N₁ ++ N₂ ++ N₃)) fall f₃ (c₁ || c₂ || c₃)
      fun x => x = b ∨ S₁ x ∨ S₂ x ∨ S₃ x := by
  refine ⟨?_, ?_, ?_⟩
  · rintro x (rfl | hx | hx | hx)
    · exact mem_cons_self
    · simp [h₁.sub x hx]
    · simp [h₂.sub x hx]
    · simp [h₃.sub x hx]
  · -- the end of a branch leads to the join, every other edge stays in its part
    rintro x y (rfl | hx | hx | hx) hnf hq
    · have hstep := (hend.quiet_branch.mp hq).1
      grind
    · obtain ⟨hy, hfalls⟩ | hy := h₁.step hjoin₁ hx hq
      · exact .inl (.inr (.inr (.inr (hy ▸ hm (.inl hfalls)))))
      · grind
    · obtain ⟨hy, hfalls⟩ | hy := h₂.step hjoin₂ hx hq
      · exact .inl (.inr (.inr (.inr (hy ▸ hm (.inr hfalls)))))
      · grind
    · have hy := h₃.closed x y hx hnf hq
      grind
  · intro x k hx hS
    have hx₃ := hfall x k hx
    simp only [nodup_cons, mem_append, not_or, nodup_append] at hnodup
    obtain rfl | hS | hS | hS := hS
    · exact absurd hx₃ hnodup.1.2
    · exact absurd rfl (hnodup.2.2.2 x (.inl (h₁.sub x hS)) x hx₃)
    · exact absurd rfl (hnodup.2.2.2 x (.inr (h₂.sub x hS)) x hx₃)
    · exact h₃.falls x k hx hS

/-- A loop and what follows it. -/
theorem Near.loop {h d a : BlockName} {f₁ f₂ c₁ c₂ : Bool} {S₁ S₂ : BlockName → Prop}
    (henter : EndsWith P b j (.jump h)) (hheader : EndsWith P h k (.branch condition d a))
    (h₁ : Near P index ((h, a) :: loops) N₁ fall₁ f₁ c₁ S₁)
    (h₂ : Near P index loops N₂ fall f₂ c₂ S₂) (hback : FallsTo P fall₁ h) (hd : S₁ d) (ha : S₂ a)
    (hfall : ∀ x k, fall = some (x, k) → x ∈ N₂) (hnodup : (b :: h :: (N₁ ++ N₂)).Nodup) :
    Near P index loops (b :: h :: (N₁ ++ N₂)) fall f₂ c₂
      fun x => x = b ∨ x = h ∨ S₁ x ∨ S₂ x := by
  refine ⟨?_, ?_, ?_⟩
  · rintro x (rfl | rfl | hx | hx)
    · exact mem_cons_self
    · simp
    · simp [h₁.sub x hx]
    · simp [h₂.sub x hx]
  · rintro x y (rfl | rfl | hx | hx) hnf hq
    · obtain ⟨rfl, -⟩ := henter.quiet_jump.mp hq
      exact .inl (.inr (.inl rfl))
    · obtain ⟨rfl | rfl, -⟩ := hheader.quiet_branch.mp hq
      · exact .inl (.inr (.inr (.inl hd)))
      · exact .inl (.inr (.inr (.inr ha)))
    · obtain ⟨rfl, -⟩ | hy := h₁.step hback hx hq
      · exact .inl (.inr (.inl rfl))
      · grind
    · obtain hy | hy := h₂.closed x y hx hnf hq
      · exact .inl (.inr (.inr (.inr hy)))
      · exact .inr hy
  · intro x k hx hS
    have hx₂ := hfall x k hx
    simp only [nodup_cons, mem_cons, mem_append, not_or, nodup_append] at hnodup
    obtain rfl | rfl | hS | hS := hS
    · exact absurd hx₂ hnodup.1.2.2
    · exact absurd hx₂ hnodup.2.1.2
    · exact absurd rfl (hnodup.2.2.2.2 x (h₁.sub x hS) x hx₂)
    · exact h₂.falls x k hx hS

theorem not_quiet_of_suspend {operation : String}
    {arguments : List String} (h : EndsWith P x k (.suspend operation arguments t)) :
    ¬ QuietEdge P index x y := by
  rw [h.quiet]
  simp [isSuspend]

/-- The parts of a list of blocks without repetition. -/
theorem nodup_parts (h : (b :: (N₁ ++ N₂ ++ N₃)).Nodup) : N₁.Nodup ∧ N₂.Nodup ∧ N₃.Nodup := by
  simp only [nodup_cons, nodup_append] at h
  exact ⟨h.2.1.1, h.2.1.2.1, h.2.2.1⟩

section

variable (h : Region env P index loops body b j owned fall)

include h

theorem Region.near (hnodup : (b :: owned).Nodup) :
    ∃ S, S b ∧ Near P index loops (b :: owned) fall (env.falls body) (env.continues body) S := by
  induction h with
  | @nil loops b j =>
    refine ⟨(· = b), rfl, fun x hx => by simp [hx], ?_, fun _ _ _ _ => rfl⟩
    rintro x y rfl hnf
    exact absurd rfl (hnf j)
  | @skip loops s rest _ _ _ _ hs _ ih | @action loops s rest _ _ _ _ a hs _ _ ih =>
    have hgoes : env.goesOn s = true := by rw [goesOn, hs]
    obtain ⟨S, hb, hS⟩ := ih hnodup
    refine ⟨S, hb, ?_⟩
    simpa only [falls, continues, hgoes, Bool.true_and] using hS
  | @suspend loops s rest b t _ _ _ _ _ hs hend hrest ih =>
    refine ⟨(· = b), rfl, fun x hx => by simp [hx], ?_, ?_⟩
    · rintro x y rfl _ hq
      exact absurd hq (not_quiet_of_suspend hend)
    · rintro x k hfall rfl
      exact absurd (hrest.fall_mem hfall) (nodup_cons.mp hnodup).1
  | @restart loops s b j arguments hs hend =>
    refine ⟨(· = b), rfl, fun x hx => by simp [hx], ?_, ?_⟩
    · rintro x y rfl _ hq
      exact absurd hq (not_quiet_of_suspend hend)
    · rintro x k hfall
      cases hfall
  | @ite loops test body orelse rest b t f m j owned₁ owned₂ owned _ _ fall hend _ _ hjoin₁ hjoin₂
      _ _ hrest ihbody ihorelse ihrest =>
    obtain ⟨hn₁, hn₂, hn₃⟩ := nodup_parts hnodup
    obtain ⟨S₁, ht, h₁⟩ := ihbody hn₁
    obtain ⟨S₂, hf, h₂⟩ := ihorelse hn₂
    have hfall : ∀ x k, fall = some (x, k) → x ∈ m :: owned := fun x k hx => hrest.fall_mem hx
    simp only [falls, continues]
    cases hor : (env.falls body || env.falls orelse) with
    | false =>
      rw [Bool.or_eq_false_iff] at hor
      refine ⟨_, .inl rfl, Near.ite hend h₁ h₂ .empty hjoin₁ hjoin₂ ht hf ?_ hfall hnodup⟩
      simp [hor.1, hor.2]
    | true =>
      obtain ⟨S₃, hm, h₃⟩ := ihrest hn₃
      exact ⟨_, .inl rfl, Near.ite hend h₁ h₂ h₃ hjoin₁ hjoin₂ ht hf (fun _ => hm) hfall hnodup⟩
  | @iteClosed loops test body orelse b t f j owned₁ owned₂ hend _ _ _ ihbody ihorelse =>
    rw [← List.append_nil (t :: owned₁ ++ f :: owned₂)] at hnodup ⊢
    obtain ⟨hn₁, hn₂, -⟩ := nodup_parts hnodup
    obtain ⟨S₁, ht, h₁⟩ := ihbody hn₁
    obtain ⟨S₂, hf, h₂⟩ := ihorelse hn₂
    have hfalls : ∀ {N : List BlockName} {f c : Bool} {S : BlockName → Prop},
        Near P index loops N none f c S → Near P index loops N none false c S :=
      fun h => ⟨h.sub, h.closed, fun _ _ hx => by cases hx⟩
    have hempty : Near P index loops [] none (env.falls (.ite test body orelse .nil)) false
      fun _ => False := .empty
    have hnone : ∀ (x : BlockName) (k : ℕ), (none : Option (BlockName × ℕ)) ≠ some (x, k) := by
      simp
    have hnear := Near.ite (m := b) hend (hfalls h₁) (hfalls h₂) hempty
      (fun x k hx => absurd hx (hnone x k)) (fun x k hx => absurd hx (hnone x k)) ht hf (by simp)
      (fun x k hx => absurd hx (hnone x k)) hnodup
    refine ⟨_, ?_, by simpa only [continues, Bool.and_false] using hnear⟩
    exact .inl rfl
  | @loop loops s l b h d a j owned₁ owned₂ _ fall hs _ _ henter hheader _ hback hafter _ _ _ _ ihbody
      ihafter =>
    have hparts := @nodup_parts _ [] (d :: owned₁) _ (nodup_cons.mp hnodup).2
    obtain ⟨S₁, hd, h₁⟩ := ihbody hparts.2.1
    obtain ⟨S₂, ha, h₂⟩ := ihafter hparts.2.2
    rw [falls_loop hs, continues_loop hs]
    exact ⟨_, .inl rfl, Near.loop henter hheader h₁ h₂ hback hd ha
      (fun x k hx => hafter.fall_mem hx) hnodup⟩
  | @ret loops value b j hend =>
    refine ⟨(· = b), rfl, fun x hx => by simp [hx], ?_, fun x k hx => by cases hx⟩
    rintro x y rfl _ hq
    have := (hend.quiet.mp hq).2.1
    cases this
  | @brk loops h a b j hend =>
    refine ⟨(· = b), rfl, fun x hx => by simp [hx], ?_, fun x k hx => by cases hx⟩
    rintro x y rfl _ hq
    exact .inr ⟨h, a, loops, rfl, .inl (hend.quiet_jump.mp hq).1⟩
  | @cont loops h a b j hend =>
    refine ⟨(· = b), rfl, fun x hx => by simp [hx], ?_, fun x k hx => by cases hx⟩
    rintro x y rfl _ hq
    exact .inr ⟨h, a, loops, rfl, .inr ⟨(hend.quiet_jump.mp hq).1, rfl⟩⟩

/-! ### No quiet cycle -/

/-- The quiet edges of a region: those of the block where control falls through are not its own. -/
def Own (P : Layout) (index : BlockName → ℕ) (fall : Option (BlockName × ℕ)) (x y : BlockName) :
    Prop :=
  QuietEdge P index x y ∧ ∀ k, fall ≠ some (x, k)

theorem Region.own (hx : x ∈ b :: owned) (hxy : Own P index fall x y) :
    y ∈ b :: owned ∨ Leaves loops y := by
  obtain ⟨⟨acts, e, he, hsuspend, hy, -⟩, hfall⟩ := hxy
  obtain hy | hy | hs := h.edges hx hfall he hy
  · exact .inl hy
  · exact .inr hy
  · rw [hsuspend] at hs
    cases hs

theorem Region.leads (hm : FallsTo P fall m) (hx : x ∈ b :: owned) (hxy : QuietEdge P index x y) :
    (y ∈ b :: owned ∧ Own P index fall x y) ∨ y = m ∨ Leaves loops y := by
  by_cases hfall : ∃ k, fall = some (x, k)
  · obtain ⟨k, hfall⟩ := hfall
    exact .inr (.inl ((hm x k hfall).quiet_jump.mp hxy).1)
  · have hown : Own P index fall x y := ⟨hxy, by simpa using hfall⟩
    obtain hy | hy := h.own hx hown
    · exact .inl ⟨hy, hown⟩
    · exact .inr (.inr hy)

end

/-- The disjoint parts of a list of blocks without repetition. -/
theorem nodup_disjoint (h : (b :: (N₁ ++ N₂ ++ N₃)).Nodup) :
    (b ∉ N₁ ∧ b ∉ N₂ ∧ b ∉ N₃) ∧ (∀ x ∈ N₂, x ∉ N₁) ∧ (∀ x ∈ N₃, x ∉ N₁) ∧ ∀ x ∈ N₃, x ∉ N₂ := by
  simp only [nodup_cons, mem_append, not_or, nodup_append] at h
  refine ⟨⟨h.1.1.1, h.1.1.2, h.1.2⟩, ?_, ?_, ?_⟩
  · intro x hx hx'
    exact h.2.1.2.2 x hx' x hx rfl
  · intro x hx hx'
    exact h.2.2.2 x (.inl hx') x hx rfl
  · intro x hx hx'
    exact h.2.2.2 x (.inr hx') x hx rfl

theorem acyclic_of_block (hstep : ∀ y, QuietEdge P index b y → y ≠ b) :
    Acyclic (On (Own P index fall) {x | x ∈ [b]}) := by
  apply acyclic_of_no_step
  rintro x y ⟨⟨hq, -⟩, hx, hy⟩
  simp only [mem_singleton] at hx hy
  subst hx
  exact hstep y hq hy

/-- A branch: the block that branches, the two branches and the rest, in this order. -/
theorem acyclic_ite (hend : EndsWith P b j (.branch condition t f))
    (h₁ : ∀ x ∈ N₁, ∀ y, QuietEdge P index x y →
      (y ∈ N₁ ∧ Own P index fall₁ x y) ∨ y ∈ N₃ ∨ Leaves loops y)
    (h₂ : ∀ x ∈ N₂, ∀ y, QuietEdge P index x y →
      (y ∈ N₂ ∧ Own P index fall₂ x y) ∨ y ∈ N₃ ∨ Leaves loops y)
    (h₃ : ∀ x ∈ N₃, ∀ y, Own P index fall x y → y ∈ N₃ ∨ Leaves loops y) (ht : t ∈ N₁) (hf : f ∈ N₂)
    (hnodup : (b :: (N₁ ++ N₂ ++ N₃)).Nodup)
    (hout : ∀ y, Leaves loops y → y ∉ b :: (N₁ ++ N₂ ++ N₃))
    (ih₁ : Acyclic (On (Own P index fall₁) {x | x ∈ N₁}))
    (ih₂ : Acyclic (On (Own P index fall₂) {x | x ∈ N₂}))
    (ih₃ : Acyclic (On (Own P index fall) {x | x ∈ N₃})) :
    Acyclic (On (Own P index fall) {x | x ∈ b :: (N₁ ++ N₂ ++ N₃)}) := by
  classical
  obtain ⟨⟨hb₁, hb₂, hb₃⟩, h₂₁, h₃₁, h₃₂⟩ := nodup_disjoint hnodup
  have hbranch : ∀ y, Own P index fall b y → y ∈ N₁ ∨ y ∈ N₂ := by
    rintro y ⟨hq, -⟩
    obtain ⟨rfl | rfl, -⟩ := hend.quiet_branch.mp hq
    · exact .inl ht
    · exact .inr hf
  simp only [mem_cons, mem_append] at hout ⊢
  refine acyclic_on_layers
    (fun x => if x = b then 0 else if x ∈ N₁ then 1 else if x ∈ N₂ then 2 else 3)
    (fun x hx y hy hxy => ?_) fun n => ?_
  · have hquiet := hxy.1
    grind
  -- every layer is one of the parts
  match n with
  | 0 =>
    have hb : ¬ Own P index fall b b := by grind
    exact (acyclic_on_singleton hb).on_mono (fun x hx => by grind) fun _ _ _ _ h => h
  | 1 =>
    refine ih₁.on_mono (fun x hx => by grind) fun x hx y hy hxy => ?_
    have hstep := h₁ x (by grind) y hxy.1
    grind
  | 2 =>
    refine ih₂.on_mono (fun x hx => by grind) fun x hx y hy hxy => ?_
    have hstep := h₂ x (by grind) y hxy.1
    grind
  | n + 3 => exact ih₃.on_mono (fun x hx => by grind) fun _ _ _ _ h => h

/-- A loop: the block before it, the part of the body that no iteration starts with, the header,
what an iteration starts with, and the blocks after the loop, in this order. -/
theorem acyclic_loop {h d a : BlockName} (henter : EndsWith P b j (.jump h))
    (hheader : EndsWith P h k (.branch condition d a))
    (h₁ : ∀ x ∈ N₁, ∀ y, QuietEdge P index x y → (y ∈ N₁ ∧ Own P index fall₁ x y) ∨ y = h ∨ y = a)
    (h₂ : ∀ x ∈ N₂, ∀ y, Own P index fall x y → y ∈ N₂ ∨ Leaves loops y)
    (hS : ∀ x, S x → x ∈ N₁) (hd : S d) (ha : a ∈ N₂)
    (hclosed : ∀ x y, S x → QuietEdge P index x y → S y ∨ y = a)
    (hnodup : (b :: h :: (N₁ ++ N₂)).Nodup) (hout : ∀ y, Leaves loops y → y ∉ b :: h :: (N₁ ++ N₂))
    (ih₁ : Acyclic (On (Own P index fall₁) {x | x ∈ N₁}))
    (ih₂ : Acyclic (On (Own P index fall) {x | x ∈ N₂})) :
    Acyclic (On (Own P index fall) {x | x ∈ b :: h :: (N₁ ++ N₂)}) := by
  classical
  obtain ⟨⟨-, hh₁, hh₂⟩, -, -, h₂₁⟩ := @nodup_disjoint _ [] N₁ N₂ (nodup_cons.mp hnodup).2
  have hb := (nodup_cons.mp hnodup).1
  have hb_step : ∀ y, Own P index fall b y → y = h := fun y hy => (henter.quiet_jump.mp hy.1).1
  have hh_step : ∀ y, Own P index fall h y → S y ∨ y = a := by
    intro y hy
    obtain ⟨rfl | rfl, -⟩ := hheader.quiet_branch.mp hy.1
    · exact .inl hd
    · exact .inr rfl
  simp only [mem_cons, mem_append, not_or] at hb hout ⊢
  have hinner : ∀ x ∈ N₁, ∀ y ∈ N₁, Own P index fall x y → Own P index fall₁ x y := by
    intro x hx y hy hxy
    have hstep := h₁ x hx y hxy.1
    grind
  refine acyclic_on_layers (fun x => if x = b then 0 else if x ∈ N₁ ∧ ¬ S x then 1 else
    if x = h then 2 else if S x then 3 else 4) (fun x hx y hy hxy => ?_) fun n => ?_
  · have hquiet := hxy.1
    grind
  match n with
  | 0 =>
    have hloop : ¬ Own P index fall b b := by grind
    exact (acyclic_on_singleton hloop).on_mono (fun x hx => by grind) fun _ _ _ _ h => h
  | 1 | 3 =>
    exact ih₁.on_mono (fun x hx => by grind) fun x hx y hy => hinner x (by grind) y (by grind)
  | 2 =>
    have hloop : ¬ Own P index fall h h := by grind
    exact (acyclic_on_singleton hloop).on_mono (fun x hx => by grind) fun _ _ _ _ h => h
  | n + 4 => exact ih₂.on_mono (fun x hx => by grind) fun _ _ _ _ h => h

/-- What an iteration of an accepted loop starts with does not lead back to the header: a `while`
loop passed the check and continues nowhere quietly, and the edges back to a `for` header do not
count. -/
theorem iteration_start {s : Body} {l : LoopParts} {h d a : BlockName} {owned₁ : List BlockName}
    (hs : s.loopParts = some l) (hbase : h.base = l.header)
    (hcheck : l.target = none → canReachBackedge env true l.body = false)
    (hbody : Region env P index ((h, a) :: loops) l.body d 0 owned₁ fall₁)
    (hback : FallsTo P fall₁ h) (hinside : ∀ x ∈ d :: owned₁, index h < index x)
    (hnodup : (d :: owned₁).Nodup) (hquiet : env.noQuietContinue s = true) :
    ∃ S : BlockName → Prop, S d ∧ (∀ x, S x → x ∈ d :: owned₁) ∧
      ∀ x y, S x → QuietEdge P index x y → S y ∨ y = a := by
  rw [noQuietContinue_loop hs, and_eq_true, and_eq_true, or_eq_true] at hquiet
  cases htarget : l.target with
  | none =>
    have hcont : env.continues l.body = false := by simpa [htarget] using hquiet.1.1
    have hfalls : env.falls l.body = false := by
      by_contra hne
      rw [Bool.not_eq_false] at hne
      rw [canReachBackedge_of_falls hne] at hcheck
      exact absurd (hcheck htarget) (by simp)
    obtain ⟨S, hd, hS⟩ := hbody.near hnodup
    refine ⟨S, hd, hS.sub, fun x y hx hxy => ?_⟩
    obtain ⟨-, hy⟩ | hy | ⟨header, after, rest, hloops, hy⟩ := hS.step hback hx hxy
    · rw [hfalls] at hy
      cases hy
    · exact .inl hy
    · cases hloops
      exact .inr (by simpa [hcont] using hy)
  | some x =>
    refine ⟨(· ∈ d :: owned₁), mem_cons_self, fun _ hx => hx, fun x y hx hxy => ?_⟩
    have hh : y ≠ h := by
      rintro rfl
      obtain ⟨_, _, _, _, _, hnot⟩ := hxy
      apply hnot
      refine ⟨?_, hinside x hx⟩
      rw [hbase, LoopParts.header, htarget]
      rfl
    obtain hy | rfl | ⟨header, after, rest, hloops, hy⟩ := hbody.leads hback hx hxy
    · exact .inl hy.1
    · exact absurd rfl hh
    · cases hloops
      obtain rfl | rfl := hy
      · exact absurd rfl hh
      · exact .inr rfl

theorem Region.acyclic (h : Region env P index loops body b j owned fall)
    (hnodup : (b :: owned).Nodup) (hout : ∀ y, Leaves loops y → y ∉ b :: owned)
    (hquiet : env.noQuietContinue body = true) :
    Acyclic (On (Own P index fall) {x | x ∈ b :: owned}) := by
  induction h with
  | @nil loops b j =>
    apply acyclic_of_no_step
    rintro x y ⟨⟨-, hfall⟩, hx, -⟩
    simp only [mem_singleton] at hx
    subst hx
    exact hfall j rfl
  | skip _ _ ih | action _ _ _ ih => exact ih hnodup hout hquiet
  | @suspend loops s rest b t j owned fall _ _ _ hend hrest ih =>
    have hout' : ∀ y, Leaves loops y → y ∉ t :: owned :=
      fun y hy hmem => hout y hy (mem_cons_of_mem b hmem)
    have hquiet : env.noQuietContinue rest = true := hquiet
    have ih := ih (nodup_cons.mp hnodup).2 hout' hquiet
    have hb : ¬ Own P index fall b b := fun hloop => not_quiet_of_suspend hend hloop.1
    refine (acyclic_on_union (acyclic_on_singleton hb) ih fun x hx y hy hxy => ?_).on_mono ?_
      fun _ _ _ _ h => h
    · subst hy
      obtain hy | hy := hrest.own hx hxy
      · exact (nodup_cons.mp hnodup).1 hy
      · exact hout y hy mem_cons_self
    · intro x hx
      simpa using hx
  | restart _ hend => exact acyclic_of_block fun y hy => absurd hy (not_quiet_of_suspend hend)
  | @ite loops test body orelse rest b t f m j owned₁ owned₂ owned _ _ fall hend hbody horelse
      hjoin₁ hjoin₂ _ _ hrest ihbody ihorelse ihrest =>
    rw [noQuietContinue, and_eq_true, and_eq_true] at hquiet
    obtain ⟨hn₁, hn₂, hn₃⟩ := nodup_parts hnodup
    have hout' : ∀ y, Leaves loops y → y ∉ t :: owned₁ ∧ y ∉ f :: owned₂ ∧ y ∉ m :: owned := by
      intro y hy
      have hy := hout y hy
      rw [mem_cons, mem_append, mem_append, not_or, not_or, not_or] at hy
      exact ⟨hy.2.1.1, hy.2.1.2, hy.2.2⟩
    refine acyclic_ite hend (fun x hx y hxy => ?_) (fun x hx y hxy => ?_)
      (fun x hx y hxy => hrest.own hx hxy) mem_cons_self mem_cons_self hnodup hout
      (ihbody hn₁ (fun y hy => (hout' y hy).1) hquiet.1.1)
      (ihorelse hn₂ (fun y hy => (hout' y hy).2.1) hquiet.1.2)
      (ihrest hn₃ (fun y hy => (hout' y hy).2.2) hquiet.2)
    · obtain hy | rfl | hy := hbody.leads hjoin₁ hx hxy
      · exact .inl hy
      · exact .inr (.inl mem_cons_self)
      · exact .inr (.inr hy)
    · obtain hy | rfl | hy := horelse.leads hjoin₂ hx hxy
      · exact .inl hy
      · exact .inr (.inl mem_cons_self)
      · exact .inr (.inr hy)
  | @iteClosed loops test body orelse b t f j owned₁ owned₂ hend hbody horelse _ ihbody ihorelse =>
    rw [noQuietContinue, and_eq_true, and_eq_true] at hquiet
    rw [← List.append_nil (t :: owned₁ ++ f :: owned₂)] at hnodup hout ⊢
    obtain ⟨hn₁, hn₂, -⟩ := nodup_parts hnodup
    have hout' : ∀ y, Leaves loops y → y ∉ t :: owned₁ ∧ y ∉ f :: owned₂ := by
      intro y hy
      have hy := hout y hy
      rw [mem_cons, mem_append, mem_append, not_or, not_or, not_or] at hy
      exact hy.2.1
    refine acyclic_ite hend (fun x hx y hxy => ?_) (fun x hx y hxy => ?_)
      (fun x hx => by cases hx) mem_cons_self mem_cons_self hnodup hout
      (ihbody hn₁ (fun y hy => (hout' y hy).1) hquiet.1.1)
      (ihorelse hn₂ (fun y hy => (hout' y hy).2) hquiet.1.2)
      (acyclic_of_no_step fun x y hxy => by cases hxy.2.1)
    · have hown : Own P index none x y := ⟨hxy, by simp⟩
      exact (hbody.own hx hown).imp (fun hy => ⟨hy, hown⟩) .inr
    · have hown : Own P index none x y := ⟨hxy, by simp⟩
      exact (horelse.own hx hown).imp (fun hy => ⟨hy, hown⟩) .inr
  | @loop loops s l b h d a j owned₁ owned₂ fall₁ fall hs hbase hcheck henter hheader hbody hback
      hafter _ hinside _ _ ihbody ihafter =>
    have hparts := @nodup_parts _ [] (d :: owned₁) _ (nodup_cons.mp hnodup).2
    have hdisjoint := @nodup_disjoint _ [] (d :: owned₁) _ (nodup_cons.mp hnodup).2
    obtain ⟨S, hd, hS, hclosed⟩ := iteration_start hs hbase hcheck hbody hback hinside hparts.2.1
      hquiet
    rw [noQuietContinue_loop hs, and_eq_true, and_eq_true] at hquiet
    have hout₁ : ∀ y, Leaves ((h, a) :: loops) y → y ∉ d :: owned₁ := by
      rintro y ⟨header, after, rest, hloops, hy⟩
      cases hloops
      obtain rfl | rfl := hy
      · exact hdisjoint.1.2.1
      · exact hdisjoint.2.2.2 y mem_cons_self
    have hout₂ : ∀ y, Leaves loops y → y ∉ a :: owned₂ :=
      fun y hy hmem => hout y hy (mem_cons_of_mem b (mem_append_right _ hmem))
    refine acyclic_loop henter hheader (fun x hx y hxy => ?_) (fun x hx y hxy => hafter.own hx hxy)
      hS hd mem_cons_self hclosed hnodup hout (ihbody hparts.2.1 hout₁ hquiet.1.2)
      (ihafter hparts.2.2 hout₂ hquiet.2)
    obtain hy | hy | ⟨header, after, rest, hloops, hy⟩ := hbody.leads hback hx hxy
    · exact .inl hy
    · exact .inr (.inl hy)
    · cases hloops
      exact .inr hy
  | @ret loops value b j hend =>
    apply acyclic_of_block
    intro y hy
    cases (hend.quiet.mp hy).2.1
  | @brk loops h a b j hend =>
    apply acyclic_of_block
    rintro y hy rfl
    exact hout y ⟨h, a, loops, rfl, .inr (hend.quiet_jump.mp hy).1⟩ mem_cons_self
  | @cont loops h a b j hend =>
    apply acyclic_of_block
    rintro y hy rfl
    exact hout y ⟨h, a, loops, rfl, .inl (hend.quiet_jump.mp hy).1⟩ mem_cons_self

end regions

/-! ### Programs -/

/-- **Progress of accepted processes.**  The graph of an accepted process makes progress exactly
if no `while` loop of its body can reach a `continue` from the start of an iteration without a
suspension. -/
theorem progress_iff_no_quiet_continue (env : Environment) (parameters : List String) (body : Body)
    (P : ProcessProgram) (h : constructProcess env parameters body = .ok P) :
    Progress P ↔ env.noQuietContinue body = true := by
  obtain ⟨owned, fall, hlow⟩ := constructProcess_lowered h
  constructor
  · intro hprogress
    by_contra hquiet
    rw [Bool.not_eq_true] at hquiet
    obtain ⟨x, hx⟩ := hlow.region.quiet_cycle hquiet
    exact hprogress x hx
  · intro hquiet
    have hout : ∀ y, Leaves [] y → y ∉ entryName :: owned := by
      rintro y ⟨_, _, _, hloops, _⟩
      cases hloops
    refine (hlow.region.acyclic hlow.nodup hout hquiet).mono fun x y hxy => ?_
    have hown : Own P.layout P.index fall x y := by
      refine ⟨hxy, fun k hk => ?_⟩
      cases ((hlow.returns x k hk).quiet.mp hxy).2.1
    obtain ⟨acts, e, hx, -⟩ := hxy
    have hmem : x ∈ entryName :: owned :=
      hlow.names.mem_iff.mp (P.mem_names_of_layout hx)
    obtain hy | hy := hlow.region.own hmem hown
    · exact ⟨hown, hmem, hy⟩
    · exact absurd hy fun ⟨_, _, _, hloops, _⟩ => by cases hloops

/-- `while a: wait_for(r)`. -/
def waitLoop : Body :=
  .whileLoop (.operand (.name "a")) (.simple (callStatement "wait_for" "r") .nil) .nil .nil

theorem waitLoop_progress :
    (∃ P, constructProcess frontendEnvironment ["a", "r"] waitLoop = .ok P ∧
      Progress P) ∧ noQuietContinue frontendEnvironment waitLoop = true :=
  ⟨⟨_, rfl, (progress_iff_no_quiet_continue frontendEnvironment ["a", "r"] waitLoop _ rfl).mpr (by decide)⟩,
    by decide⟩

/-- `while a: (if c: continue); wait_for(r)`: the check sees that the body ends in a suspension
and misses the `continue` before it. -/
def quietContinueLoop : Body :=
  .whileLoop (.operand (.name "a"))
    (.ite (.operand (.name "c")) (.cont .nil) .nil
      (.simple (callStatement "wait_for" "r") .nil)) .nil .nil

theorem quietContinueLoop_stalls :
    ∃ P, constructProcess frontendEnvironment ["a", "c", "r"] quietContinueLoop
      = .ok P ∧ ¬ Progress P := by
  refine ⟨_, rfl, fun h => h ⟨.loop, 1⟩ ?_⟩
  apply TransGen.head (b := ⟨.loopBody, 1⟩)
  · exact ⟨_, _, rfl, rfl, mem_cons_self, not_forBackedge_of_base (by decide)⟩
  apply TransGen.head (b := ⟨.thenBlock, 1⟩)
  · exact ⟨_, _, rfl, rfl, mem_cons_self, not_forBackedge_of_base (by decide)⟩
  apply TransGen.single
  exact ⟨_, _, rfl, rfl, mem_cons_self, not_forBackedge_of_base (by decide)⟩

end AgenticCircuit.Frontend
