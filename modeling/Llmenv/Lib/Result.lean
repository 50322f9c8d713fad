/-
# `Llmenv.Lib.Result` — computations that can fail

How a chain of fallible steps succeeds, and how it fails: these two rules take
a `do` block apart step by step.
-/
import Mathlib.Logic.Basic

namespace Llmenv.Lib

theorem bind_eq_ok {ε α β : Type} {x : Except ε α} {f : α → Except ε β} {b : β} :
    (x >>= f) = .ok b ↔ ∃ a, x = .ok a ∧ f a = .ok b := by
  cases x with
  | error e => simp [bind, Except.bind]
  | ok a => simp [bind, Except.bind]

theorem bind_eq_error {ε α β : Type} {x : Except ε α} {f : α → Except ε β} {e : ε} :
    (x >>= f) = .error e ↔ x = .error e ∨ ∃ a, x = .ok a ∧ f a = .error e := by
  cases x with
  | error e' => simp [bind, Except.bind]
  | ok a => simp [bind, Except.bind]

/-- A step that succeeds, before a rest that always does. -/
theorem exists_bind_ok {ε α β : Type} {x : Except ε α} {f : α → Except ε β}
    (hx : ∃ a, x = .ok a) (hf : ∀ a, ∃ b, f a = .ok b) : ∃ b, (x >>= f) = .ok b := by
  obtain ⟨a, rfl⟩ := hx
  exact hf a

/-- A step without a result succeeds, and the rest does. -/
theorem bind_unit_eq_ok {ε α : Type} {x : Except ε Unit} {f : Unit → Except ε α} {a : α}
    (h : (x >>= f) = .ok a) : x = .ok () ∧ f () = .ok a := by
  obtain ⟨u, hx, hf⟩ := bind_eq_ok.mp h
  exact ⟨hx, hf⟩

theorem map_eq_ok {ε α β : Type} {x : Except ε α} {f : α → β} {b : β} :
    x.map f = .ok b ↔ ∃ a, x = .ok a ∧ f a = b := by
  cases x with
  | error e => simp [Except.map]
  | ok a => simp [Except.map]

end Llmenv.Lib
