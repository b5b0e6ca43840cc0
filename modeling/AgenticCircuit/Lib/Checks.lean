import Mathlib.Tactic.Common

/-! # Checks that end at the first error

A verifier is a sequence of checks in `Except`; it accepts when each of them does. -/

namespace AgenticCircuit.Checks

variable {ε α β : Type}

/-- The error of the operation that was found, if any. -/
def refuse (found : Option α) (message : α → ε) : Except ε Unit :=
  match found with
  | some operation => .error (message operation)
  | none => .ok ()

@[simp] theorem refuse_ok {found : Option α} {message : α → ε} :
    refuse found message = .ok () ↔ found = none := by
  cases found <;> simp [refuse]

theorem bind_ok {x : Except ε α} {f : α → Except ε β} {r : β} :
    (x >>= f) = .ok r ↔ ∃ a, x = .ok a ∧ f a = .ok r := by
  cases x with
  | error e | ok a => simp [bind, Except.bind]

/-- Two checks in sequence. -/
@[simp] theorem seq_ok {x y : Except ε Unit} :
    (x >>= fun _ => y) = .ok () ↔ x = .ok () ∧ y = .ok () := by
  rw [bind_ok]
  constructor
  · rintro ⟨⟨⟩, hx, hy⟩
    exact ⟨hx, hy⟩
  · rintro ⟨hx, hy⟩
    exact ⟨(), hx, hy⟩

@[simp] theorem forM_ok {l : List α} {f : α → Except ε Unit} :
    forM l f = .ok () ↔ ∀ a ∈ l, f a = .ok () := by
  induction l with
  | nil => simp [pure, Except.pure]
  | cons a l ih => rw [List.forM_cons, seq_ok, ih, List.forall_mem_cons]

end AgenticCircuit.Checks
