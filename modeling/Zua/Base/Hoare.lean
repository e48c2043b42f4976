import Zua.Base.Except

/-!
# Computations with a state

`Sat ok x s Q` says that `x`, started in `s`, either returns a result and a state for which `Q` holds or
stops with an error that `ok` allows.
-/

namespace Zua

variable {ε σ α β : Type} {ok : ε → Prop} {s : σ} {Q : α → σ → Prop}

def Sat (ok : ε → Prop) (x : StateT σ (Except ε) α) (s : σ) (Q : α → σ → Prop) : Prop :=
  match x s with
  | .ok (a, s') => Q a s'
  | .error e => ok e

namespace Sat

theorem pure {a : α} (h : Q a s) : Sat ok (Pure.pure a) s Q := h

theorem bind {x : StateT σ (Except ε) α} {f : α → StateT σ (Except ε) β} {R : β → σ → Prop}
    (h : Sat ok x s fun a s' => Sat ok (f a) s' R) : Sat ok (x >>= f) s R := by
  unfold Sat at h ⊢
  have step : (x >>= f) s = (x s).bind fun result => f result.1 result.2 := rfl
  rw [step]
  cases run : x s with
  | error e => simpa [run, Except.bind] using h
  | ok result => simpa [run, Except.bind] using h

theorem mono {x : StateT σ (Except ε) α} {R : α → σ → Prop} (h : Sat ok x s Q)
    (weaker : ∀ a s', Q a s' → R a s') : Sat ok x s R := by
  unfold Sat at h ⊢
  split at h
  · exact weaker _ _ h
  · exact h

theorem stops {ok' : ε → Prop} {x : StateT σ (Except ε) α} (h : Sat ok x s Q) (weaker : ∀ e, ok e → ok' e) :
    Sat ok' x s Q := by
  unfold Sat at h ⊢
  split at h
  · exact h
  · exact weaker _ h

theorem always {x : StateT σ (Except ε) α} (h : ∀ a s', Q a s') : Sat (fun _ => True) x s Q := by
  unfold Sat
  split
  · exact h _ _
  · trivial

-- only the last computation matters
theorem last {x : StateT σ (Except ε) α} {f : α → StateT σ (Except ε) β} {R : β → σ → Prop} {s : σ}
    (h : ∀ a s', Sat (fun _ => True) (f a) s' R) : Sat (fun _ => True) (x >>= f) s R :=
  Sat.bind (Sat.always h)

theorem and {R : α → σ → Prop} {x : StateT σ (Except ε) α} (first : Sat ok x s Q) (second : Sat ok x s R) :
    Sat ok x s fun a s' => Q a s' ∧ R a s' := by
  unfold Sat at first second ⊢
  split
  · rename_i run
    rw [run] at first second
    exact ⟨first, second⟩
  · rename_i run
    rw [run] at first
    exact first

theorem get {Q : σ → σ → Prop} (h : Q s s) : Sat ok MonadState.get s Q := h

theorem set {s' : σ} {Q : Unit → σ → Prop} (h : Q () s') :
    Sat ok (MonadStateOf.set s' : StateT σ (Except ε) Unit) s Q := h

theorem modify {f : σ → σ} {Q : Unit → σ → Prop} (h : Q () (f s)) :
    Sat ok (modifyGet fun s => ((), f s) : StateT σ (Except ε) Unit) s Q := h

theorem throw {e : ε} (h : ok e) : Sat ok (MonadExcept.throw e : StateT σ (Except ε) α) s Q := h

end Sat

theorem bind_returns {x : StateT σ (Except ε) α} {f : α → StateT σ (Except ε) β} {s u : σ} {b : β} :
    (x >>= f) s = .ok (b, u) ↔ ∃ a t, x s = .ok (a, t) ∧ f a t = .ok (b, u) := by
  have step : (x >>= f) s = (x s).bind fun result => f result.1 result.2 := rfl
  rw [step]
  cases x s with
  | error e => simp [Except.bind]
  | ok result => simp [Except.bind, Prod.ext_iff]

theorem bind_runs {x : StateT σ (Except ε) α} {f : α → StateT σ (Except ε) β} {s t : σ} {a : α} (h : x s = .ok (a, t)) :
    (x >>= f) s = f a t := by
  have step : (x >>= f) s = (x s).bind fun result => f result.1 result.2 := rfl
  rw [step, h]
  rfl

theorem bind_throws {x : StateT σ (Except ε) α} {f : α → StateT σ (Except ε) β} {s : σ} {e : ε} (h : x s = .error e) :
    (x >>= f) s = .error e := by
  have step : (x >>= f) s = (x s).bind fun result => f result.1 result.2 := rfl
  rw [step, h]
  rfl

/-! ## What is returned -/

-- from every state the result has the property, or there is an error that `ok` allows
def Yields (ok : ε → Prop) (P : α → Prop) (x : StateT σ (Except ε) α) : Prop := ∀ s, Sat ok x s fun a _ => P a

namespace Yields

variable {P : α → Prop} {R : β → Prop}

theorem pure {a : α} (h : P a) : Yields ok P (Pure.pure a : StateT σ (Except ε) α) := fun _ => h

theorem throw {e : ε} (h : ok e) : Yields ok P (MonadExcept.throw e : StateT σ (Except ε) α) := fun _ => h

theorem get : Yields ok (fun _ => True) (MonadState.get : StateT σ (Except ε) σ) := fun _ => trivial

theorem set (s : σ) : Yields ok (fun _ => True) (MonadStateOf.set s : StateT σ (Except ε) Unit) := fun _ => trivial

theorem modify (f : σ → σ) : Yields ok (fun _ => True) (modifyGet fun s => ((), f s) : StateT σ (Except ε) Unit) :=
  fun _ => trivial

theorem bind {x : StateT σ (Except ε) α} {f : α → StateT σ (Except ε) β} (first : Yields ok P x)
    (rest : ∀ a, P a → Yields ok R (f a)) : Yields ok R (x >>= f) := by
  intro s
  exact Sat.bind ((first s).mono fun a t h => rest a h t)

-- what the first computation returns does not matter
theorem after {x : StateT σ (Except ε) α} {f : α → StateT σ (Except ε) β}
    (rest : ∀ a, Yields (fun _ => True) R (f a)) : Yields (fun _ => True) R (x >>= f) := by
  intro s
  exact Sat.last fun a t => rest a t

theorem mono {x : StateT σ (Except ε) α} {Q : α → Prop} (h : Yields ok P x) (weaker : ∀ a, P a → Q a) :
    Yields ok Q x := fun s => (h s).mono fun a _ => weaker a

end Yields

/-! ## What every step keeps -/

-- `R` relates the state before to the state after, when there is one
def Keeps (R : σ → σ → Prop) (x : StateT σ (Except ε) α) : Prop :=
  ∀ s, Sat (fun _ => True) x s fun _ s' => R s s'

structure Reflexive (R : σ → σ → Prop) : Prop where
  refl : ∀ s, R s s
  trans : ∀ {s t u}, R s t → R t u → R s u

namespace Keeps

variable {R : σ → σ → Prop}

theorem pure (steps : Reflexive R) (a : α) : Keeps R (Pure.pure a : StateT σ (Except ε) α) := fun s => steps.refl s

theorem throw (e : ε) : Keeps R (MonadExcept.throw e : StateT σ (Except ε) α) := fun _ => trivial

theorem get (steps : Reflexive R) : Keeps R (MonadState.get : StateT σ (Except ε) σ) := fun s => steps.refl s

theorem bind (steps : Reflexive R) {x : StateT σ (Except ε) α} {f : α → StateT σ (Except ε) β} (first : Keeps R x)
    (rest : ∀ a, Keeps R (f a)) : Keeps R (x >>= f) := by
  intro s
  refine Sat.bind ((first s).mono ?_)
  intro a t before
  exact (rest a t).mono fun _ _ after => steps.trans before after

theorem modify {f : σ → σ} (h : ∀ s, R s (f s)) :
    Keeps R (modifyGet fun s => ((), f s) : StateT σ (Except ε) Unit) := h

-- the state is read first, and what follows may depend on it
theorem getBind {f : σ → StateT σ (Except ε) α} (h : ∀ s, Sat (fun _ => True) (f s) s fun _ s' => R s s') :
    Keeps R (MonadState.get >>= f) := h

end Keeps

end Zua
