import Mathlib.Logic.Relation
import Mathlib.Tactic.Common

/-! # Stateful computations with early return

`Exit σ α` is the shape of an imperative function over a state `σ` that may return early from any
point: a run ends with a value (control reaches the next statement) or without one (the function has
returned), and with a state.

* **Programs.**  `Exit σ` is a monad; `get`, `modify`, `stop` and `forEach` are the primitives, and
  a loop is a recursion over its list or over a bound on its rounds.
* **Inversion.**  `bind_eq_some` and `bind_eq_none` take a finished run of `x >>= f` apart.
* **Outcomes.**  `Ends x s Φ` relates the outcome of a run to its start.
* **Paths.**  `Follows R H x s Q` says that the run of `x` from `s` is a path of the relation `R`
  whose end satisfies `Q`, and that an early return leaves the path through `H`.  The rules
  `follows_bind`, `follows_forEach` and the others compose paths along the program.
* **Invariants.**  `Carries P Q J x` leads from `P` to `Q` when control goes on, and to `J` when the
  run returns early; a loop keeps one assertion. -/

namespace AgenticCircuit

/-- A computation over the state `σ`: `none` means that it has returned early. -/
def Exit (σ α : Type) : Type := σ → Option α × σ

namespace Exit

variable {σ α β : Type}
variable {Q : α → σ → Prop} {a : α} {f : α → Exit σ β} {s t : σ} {x : Exit σ α}
  {Φ : Option α → σ → Prop}

/-! ### Programs -/

instance : Monad (Exit σ) where
  pure a := fun s => (some a, s)
  bind x f := fun s =>
    match x s with
    | (some a, t) => f a t
    | (none, t) => (none, t)

/-- The current state. -/
def get : Exit σ σ := fun s => (some s, s)

/-- Change the state and go on. -/
def modify (f : σ → σ) : Exit σ Unit := fun s => (some (), f s)

/-- Change the state and return. -/
def stop (f : σ → σ) : Exit σ α := fun s => (none, f s)

/-- Run `f` on the elements of a list in order; an early return leaves the loop. -/
def forEach {ι : Type} : List ι → (ι → Exit σ Unit) → Exit σ Unit
  | [], _ => pure ()
  | i :: is, f => do
      f i
      forEach is f

/-! ### Inversion -/

theorem pure_apply (a : α) (s : σ) : (pure a : Exit σ α) s = (some a, s) := rfl

theorem bind_apply (x : Exit σ α) (f : α → Exit σ β) (s : σ) : (x >>= f) s = match x s with
      | (some a, t) => f a t
      | (none, t) => (none, t) := rfl

theorem bind_assoc {γ : Type} (x : Exit σ α) (f : α → Exit σ β) (g : β → Exit σ γ) :
    (x >>= f) >>= g = x >>= fun a => f a >>= g := by
  funext s
  simp only [bind_apply]
  rcases x s with ⟨_ | a, t⟩
  · rfl
  · rfl

theorem bind_eq_some {b : β} :
    (x >>= f) s = (some b, t) ↔ ∃ a r, x s = (some a, r) ∧ f a r = (some b, t) := by
  rw [bind_apply]
  rcases hx : x s with ⟨_ | a, r⟩
  · simp
  · simp

theorem bind_eq_none : (x >>= f) s = (none, t) ↔
      x s = (none, t) ∨ ∃ a r, x s = (some a, r) ∧ f a r = (none, t) := by
  rw [bind_apply]
  rcases hx : x s with ⟨_ | a, r⟩
  · simp
  · simp

theorem bind_of_eq_some {r : σ}
    (h : x s = (some a, r)) : (x >>= f) s = f a r := by rw [bind_apply, h]

theorem bind_of_eq_none {r : σ}
    (h : x s = (none, r)) : (x >>= f) s = (none, r) := by rw [bind_apply, h]

theorem get_bind (f : σ → Exit σ α) (s : σ) : (get >>= f) s = f s s := rfl

/-! ### Outcomes -/

/-- The outcome of the run of `x` from `s` satisfies `Φ`. -/
def Ends (x : Exit σ α) (s : σ) (Φ : Option α → σ → Prop) : Prop := Φ (x s).1 (x s).2

theorem ends_pure (h : Φ (some a) s) : Ends (pure a : Exit σ α) s Φ := h

theorem ends_modify {f : σ → σ} {Φ : Option Unit → σ → Prop} (h : Φ (some ()) (f s)) :
    Ends (modify f) s Φ := h

theorem ends_stop {f : σ → σ} (h : Φ none (f s)) : Ends (stop f : Exit σ α) s Φ := h

theorem ends_get_bind {f : σ → Exit σ α} (h : Ends (f s) s Φ) : Ends (get >>= f) s Φ := h

theorem ends_bind {Φ : Option β → σ → Prop}
    (h : Ends x s fun o t => match o with
      | some a => Ends (f a) t Φ
      | none => Φ none t) : Ends (x >>= f) s Φ := by
  unfold Ends at h ⊢
  rw [bind_apply]
  rcases hx : x s with ⟨_ | a, t⟩
  · rw [hx] at h
    exact h
  · rw [hx] at h
    exact h

theorem Ends.mono {Ψ : Option α → σ → Prop} (h : Ends x s Φ)
    (himp : ∀ o t, Φ o t → Ψ o t) : Ends x s Ψ := himp _ _ h

theorem ends_congr {y : Exit σ α} (h : x s = y s) (hy : Ends y s Φ) : Ends x s Φ := by
  unfold Ends
  rw [h]
  exact hy

theorem Ends.of_eq {o : Option α} (h : Ends x s Φ) (hx : x s = (o, t)) : Φ o t := by
  unfold Ends at h
  rwa [hx] at h

/-! ### Paths -/

/-- The run of `x` from `s` is a path of `R`.  When control goes on, the result satisfies `Q`;
an early return leaves the path with a step of `H`. -/
structure Follows (R H : σ → σ → Prop) (x : Exit σ α) (s : σ) (Q : α → σ → Prop) : Prop where
  next : ∀ a t, x s = (some a, t) → Relation.ReflTransGen R s t ∧ Q a t
  ret : ∀ t, x s = (none, t) → ∃ r, Relation.ReflTransGen R s r ∧ H r t

variable {R H : σ → σ → Prop} {P : α → σ → Prop}

theorem follows_pure (h : Q a s) : Follows R H (pure a : Exit σ α) s Q := by
  constructor
  · intro b t hb
    rw [pure_apply] at hb
    cases hb
    exact ⟨.refl, h⟩
  · intro t ht
    rw [pure_apply] at ht
    cases ht

theorem follows_bind {Q : β → σ → Prop} (hx : Follows R H x s P)
    (hf : ∀ a t, Relation.ReflTransGen R s t → P a t → Follows R H (f a) t Q) :
    Follows R H (x >>= f) s Q := by
  constructor
  · intro b t h
    obtain ⟨a, r, hxr, hfr⟩ := bind_eq_some.mp h
    obtain ⟨hsr, hP⟩ := hx.next a r hxr
    obtain ⟨hrt, hQ⟩ := (hf a r hsr hP).next b t hfr
    exact ⟨hsr.trans hrt, hQ⟩
  · intro t h
    rcases bind_eq_none.mp h with h | ⟨a, r, hxr, hfr⟩
    · exact hx.ret t h
    · obtain ⟨hsr, hP⟩ := hx.next a r hxr
      obtain ⟨q, hq, hH⟩ := (hf a r hsr hP).ret t hfr
      exact ⟨q, hsr.trans hq, hH⟩

theorem follows_get_bind {f : σ → Exit σ α}
    (h : Follows R H (f s) s Q) : Follows R H (get >>= f) s Q := ⟨h.next, h.ret⟩

theorem follows_modify {f : σ → σ} {Q : Unit → σ → Prop}
    (h : Relation.ReflTransGen R s (f s)) (hQ : Q () (f s)) : Follows R H (modify f) s Q := by
  constructor
  · intro a t ht
    cases ht
    exact ⟨h, hQ⟩
  · intro t ht
    cases ht

theorem follows_stop {f : σ → σ} (h : H s (f s)) : Follows R H (stop f : Exit σ α) s Q := by
  constructor
  · intro a t ht
    cases ht
  · intro t ht
    cases ht
    exact ⟨s, .refl, h⟩

theorem Follows.mono (hx : Follows R H x s P)
    (h : ∀ a t, Relation.ReflTransGen R s t → P a t → Q a t) : Follows R H x s Q := by
  refine ⟨fun a t ht => ?_, hx.ret⟩
  obtain ⟨hst, hP⟩ := hx.next a t ht
  exact ⟨hst, h a t hst hP⟩

variable {ι : Type}

/-- The rule for loops: `P` is the assertion of the loop and speaks about the elements still
to be visited. -/
theorem follows_forEach {f : ι → Exit σ Unit} (P : List ι → σ → Prop)
    (hround : ∀ i is s, P (i :: is) s → Follows R H (f i) s (fun _ t => P is t)) :
    ∀ (l : List ι) (s : σ), P l s → Follows R H (forEach l f) s (fun _ t => P [] t)
  | [], _, hs => follows_pure hs
  | i :: is, s, hs =>
    follows_bind (hround i is s hs) (fun _ t _ ht => follows_forEach P hround is t ht)

/-! ### Invariants -/

theorem preserves_of_path {I : σ → Prop} (hR : ∀ s t, R s t → I s → I t)
    (h : Relation.ReflTransGen R s t) (hs : I s) : I t := by
  induction h with
  | refl => exact hs
  | tail _ hstep ih => exact hR _ _ hstep ih

/-- From a state in `P` the run of `x` goes on in `Q` or returns in `J`. -/
def Carries (P Q J : σ → Prop) (x : Exit σ α) : Prop :=
  ∀ s, P s → Ends x s fun o t => match o with
    | some _ => Q t
    | none => J t

section carries

variable {P Q R J : σ → Prop}

theorem carries_pure : Carries P P J (pure a : Exit σ α) := fun _ hs => hs

theorem carries_modify {f : σ → σ} (h : ∀ s, P s → Q (f s)) : Carries P Q J (modify f) := h

theorem carries_stop {f : σ → σ} (h : ∀ s, P s → J (f s)) :
    Carries P Q J (stop f : Exit σ α) := h

theorem carries_bind (hx : Carries P Q J x) (hf : ∀ a, Carries Q R J (f a)) :
    Carries P R J (x >>= f) := by
  intro s hs
  refine ends_bind (Ends.mono (hx s hs) fun o t ht => ?_)
  cases o with
  | none => exact ht
  | some a => exact hf a t ht

theorem carries_get_bind {f : σ → Exit σ α} (h : ∀ r, P r → Carries P Q J (f r)) :
    Carries P Q J (get >>= f) := fun s hs => h s hs s hs

theorem carries_ite {c : Prop} [Decidable c] {y : Exit σ α} (hx : Carries P Q J x)
    (hy : Carries P Q J y) : Carries P Q J (if c then x else y) := by
  split
  · exact hx
  · exact hy

theorem carries_forEach {f : ι → Exit σ Unit} (h : ∀ i, Carries P P J (f i)) :
    ∀ l : List ι, Carries P P J (forEach l f)
  | [] => carries_pure
  | i :: is => carries_bind (h i) fun _ => carries_forEach h is

/-- What both kinds of end keep holds of the state the run leaves. -/
theorem Carries.always {I : σ → Prop} (h : Carries I I I x) {s : σ} (hs : I s) : I (x s).2 := by
  have ht := h s hs
  rcases hx : x s with ⟨_ | a, t⟩
  · exact ht.of_eq hx
  · exact ht.of_eq hx

end carries

end Exit
end AgenticCircuit
