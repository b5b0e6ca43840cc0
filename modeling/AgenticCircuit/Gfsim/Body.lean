import AgenticCircuit.Gfsim.System

/-! # Methods

The methods of an object call the system, so they are values of `Body`.  Here `Body` becomes a
monad, in which the methods of the repository's components are written; `Leaf` collects the
results a method can have under arbitrary answers of the system. -/

namespace AgenticCircuit.Gfsim

namespace Body

variable {X Y : Type}

/-- Continue with the result of a method. -/
def bind : Body X → (X → Body Y) → Body Y
  | .done x, f => f x
  | .scheduleWork id epoch next, f => .scheduleWork id epoch fun ok => (next ok).bind f
  | .scheduleEvent event next, f => .scheduleEvent event fun ok => (next ok).bind f
  | .registerCommitParticipant id next, f =>
    .registerCommitParticipant id fun ok => (next ok).bind f
  | .proposeObservation proposal next, f =>
    .proposeObservation proposal fun ok => (next ok).bind f
  | .view next, f => .view fun v => (next v).bind f

instance : Monad Body where
  pure := .done
  bind := bind

/-- `y` is the result of the method for some answers of the system. -/
def Leaf : Body X → X → Prop
  | .done x, y => x = y
  | .scheduleWork _ _ next, y => ∃ ok, (next ok).Leaf y
  | .scheduleEvent _ next, y => ∃ ok, (next ok).Leaf y
  | .registerCommitParticipant _ next, y => ∃ ok, (next ok).Leaf y
  | .proposeObservation _ next, y => ∃ ok, (next ok).Leaf y
  | .view next, y => ∃ v, (next v).Leaf y

theorem leaf_done {x y : X} : (done x).Leaf y ↔ x = y := Iff.rfl

theorem leaf_pure {x y : X} : (pure x : Body X).Leaf y ↔ x = y := Iff.rfl

theorem leaf_bind (b : Body X) {f : X → Body Y} {y : Y} :
    (b >>= f).Leaf y ↔ ∃ x, b.Leaf x ∧ (f x).Leaf y := by
  have hswap {A : Type} {P : A → X → Prop} {Q : X → Prop} :
      (∃ a x, P a x ∧ Q x) ↔ ∃ x, (∃ a, P a x) ∧ Q x :=
    ⟨fun ⟨a, x, hP, hQ⟩ => ⟨x, ⟨a, hP⟩, hQ⟩, fun ⟨x, ⟨a, hP⟩, hQ⟩ => ⟨a, x, hP, hQ⟩⟩
  change (b.bind f).Leaf y ↔ _
  induction b with
  | done x => simp [bind, Leaf]
  | scheduleWork _ _ next ih | scheduleEvent _ next ih | registerCommitParticipant _ next ih
  | proposeObservation _ next ih | view next ih => simp only [bind, Leaf, ih, hswap]

/-- Running a method gives one of its results. -/
theorem exec_leaf (c : Config) (b : Body X) : ∀ s : SimSystem, b.Leaf (b.exec c s).2 := by
  induction b with
  | done x => exact fun _ => rfl
  | scheduleWork _ _ next ih | scheduleEvent _ next ih | registerCommitParticipant _ next ih
  | proposeObservation _ next ih | view next ih => exact fun s => ⟨_, ih _ _⟩

theorem exec_done (c : Config) (x : X) (s : SimSystem) : (done x).exec c s = (s, x) := rfl

theorem exec_bind (c : Config) (b : Body X) (f : X → Body Y) : ∀ s : SimSystem,
    (b >>= f).exec c s = (f (b.exec c s).2).exec c (b.exec c s).1 := by
  change ∀ s, (b.bind f).exec c s = _
  induction b with
  | done x => exact fun _ => rfl
  | scheduleWork _ _ next ih | scheduleEvent _ next ih | registerCommitParticipant _ next ih
  | proposeObservation _ next ih | view next ih => exact fun s => ih _ _

end Body

end AgenticCircuit.Gfsim
