import Zua.Base.Hoare

/-!
# Two computations with one state

`Both ok x y s Q` says that `x` and `y`, started in `s`, return the same result and the same state, for which
`Q` holds, or stop with errors that `ok` relates.
-/

namespace Zua

variable {ε σ α β : Type} {ok : ε → ε → Prop} {s : σ} {Q : α → σ → Prop}

def Both (ok : ε → ε → Prop) (x y : StateT σ (Except ε) α) (s : σ) (Q : α → σ → Prop) : Prop :=
  match x s with
  | .ok (a, s') => y s = .ok (a, s') ∧ Q a s'
  | .error e => ∃ e', y s = .error e' ∧ ok e e'

namespace Both

variable {x y : StateT σ (Except ε) α}

-- one computation
theorem self (h : Sat (fun e => ok e e) x s Q) : Both ok x x s Q := by
  unfold Sat at h
  unfold Both
  cases run : x s with
  | ok result =>
      rw [run] at h
      exact ⟨rfl, h⟩
  | error e =>
      rw [run] at h
      exact ⟨e, rfl, h⟩

theorem stops {e e' : ε} (first : x s = .error e) (second : y s = .error e') (related : ok e e') : Both ok x y s Q := by
  unfold Both
  rw [first]
  exact ⟨e', second, related⟩

theorem bind {f g : α → StateT σ (Except ε) β} {R : β → σ → Prop}
    (h : Both ok x y s fun a t => Both ok (f a) (g a) t R) : Both ok (x >>= f) (y >>= g) s R := by
  unfold Both at h ⊢
  have first : (x >>= f) s = (x s).bind fun result => f result.1 result.2 := rfl
  have second : (y >>= g) s = (y s).bind fun result => g result.1 result.2 := rfl
  rw [first, second]
  cases run : x s with
  | error e =>
      simp only [run] at h
      obtain ⟨e', stopped, related⟩ := h
      rw [stopped]
      exact ⟨e', rfl, related⟩
  | ok result =>
      simp only [run] at h
      obtain ⟨same, rest⟩ := h
      rw [same]
      exact rest

theorem mono {R : α → σ → Prop} (h : Both ok x y s Q) (weaker : ∀ a t, Q a t → R a t) : Both ok x y s R := by
  unfold Both at h ⊢
  split at h
  · exact ⟨h.1, weaker _ _ h.2⟩
  · exact h

end Both

end Zua
