/-
  Steps that may fail.

  * `bind_eq_ok`, `map_eq_ok`: what comes of a step that goes on from another is taken apart into
    what comes of both.
-/

namespace Reasoning

variable {ε α β : Type} {x : Except ε α} {b : β}

theorem bind_eq_ok {f : α → Except ε β} : (x >>= f) = .ok b ↔ ∃ a, x = .ok a ∧ f a = .ok b := by
  cases x <;> simp [bind, Except.bind]

theorem map_eq_ok {f : α → β} : x.map f = .ok b ↔ ∃ a, x = .ok a ∧ f a = b := by
  cases x <;> simp [Except.map]

end Reasoning
