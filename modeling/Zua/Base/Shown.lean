import Mathlib.Tactic

/-!
# Two levels of a computation that may fail

`Shown see kept x y` says that `y` is what can be seen of `x`, errors included, and that `kept` holds of the result.
-/

namespace Zua

structure Shown {ε α β : Type} (see : α → β) (kept : α → Prop) (x : Except ε α) (y : Except ε β) : Prop where
  same : x.map see = y
  holds : ∀ a, x = .ok a → kept a

namespace Shown

variable {ε α β γ δ : Type} {see : α → β} {kept : α → Prop} {x : Except ε α} {y : Except ε β}

theorem ok {a : α} (holds : kept a) : Shown see kept (Except.ok a : Except ε α) (.ok (see a)) := by
  refine ⟨rfl, ?_⟩
  rintro _ ⟨⟩
  exact holds

theorem error (e : ε) : Shown see kept (.error e) (.error e) := ⟨rfl, fun a wrong => by cases wrong⟩

theorem read (x : Except ε α) : Shown id (fun _ => True) x x := by
  refine ⟨?_, fun _ _ => trivial⟩
  cases x <;> rfl

theorem bind {see' : γ → δ} {kept' : γ → Prop} {f : α → Except ε γ} {g : β → Except ε δ} (first : Shown see kept x y)
    (rest : ∀ a, kept a → Shown see' kept' (f a) (g (see a))) : Shown see' kept' (x >>= f) (y >>= g) := by
  obtain ⟨rfl, holds⟩ := first
  cases x with
  | error e => exact error e
  | ok a => exact rest a (holds a rfl)

theorem map {see' : γ → δ} {kept' : γ → Prop} {f : α → γ} {g : β → δ} (first : Shown see kept x y)
    (same : ∀ a, see' (f a) = g (see a)) (next : ∀ a, kept a → kept' (f a)) : Shown see' kept' (x.map f) (y.map g) := by
  obtain ⟨rfl, holds⟩ := first
  cases x with
  | error e => exact error e
  | ok a =>
      have shown : Shown see' kept' (Except.ok (f a) : Except ε γ) (.ok (see' (f a))) := ok (next a (holds a rfl))
      rw [same a] at shown
      exact shown

end Shown

end Zua
