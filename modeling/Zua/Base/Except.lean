import Mathlib.Tactic

/-!
# Computations that may fail

A sequence returns when its parts do.
-/

namespace Zua

variable {ε α β : Type}

theorem bind_ok {first : Except ε α} {rest : α → Except ε β} {b : β} :
    (first >>= rest) = .ok b ↔ ∃ a, first = .ok a ∧ rest a = .ok b := by
  cases first <;> simp [bind, Except.bind]

theorem bind_error {first : Except ε α} {rest : α → Except ε β} {e : ε} :
    (first >>= rest) = .error e ↔ first = .error e ∨ ∃ a, first = .ok a ∧ rest a = .error e := by
  cases first <;> simp [bind, Except.bind]

theorem seq_ok {first : Except ε Unit} {rest : Except ε α} {a : α} :
    (do first; rest) = .ok a ↔ first = .ok () ∧ rest = .ok a := by
  cases first <;> simp [bind, Except.bind]

theorem pure_ok {a b : α} : (pure a : Except ε α) = .ok b ↔ a = b := by
  simp [pure, Except.pure]

@[simp]
theorem ok_bind {a : α} {rest : α → Except ε β} : ((Except.ok a : Except ε α) >>= rest) = rest a := rfl

@[simp]
theorem error_bind {e : ε} {rest : α → Except ε β} :
    ((Except.error e : Except ε α) >>= rest) = .error e := rfl

end Zua
