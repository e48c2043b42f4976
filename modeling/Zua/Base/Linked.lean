import Mathlib.Tactic

/-!
# Linked lists in memory

`Linked next p q l` says that following `next` from the pointer `p` passes the nodes `l` and stops at
the pointer `q`. `next a` is the pointer stored in the node `a`, if there is a node at `a`.
-/

namespace Zua

inductive Linked {α : Type} (next : α → Option (Option α)) : Option α → Option α → List α → Prop
  | nil {p : Option α} : Linked next p p []
  | cons {a : α} {p q : Option α} {l : List α} : next a = some p → Linked next p q l →
      Linked next (some a) q (a :: l)

namespace Linked

variable {α : Type} {next next' : α → Option (Option α)} {p q r : Option α} {a : α} {l l' : List α}

theorem head (h : Linked next (some a) none l) : ∃ p rest, l = a :: rest ∧ next a = some p ∧
    Linked next p none rest := by
  cases h with
  | cons step rest => exact ⟨_, _, rfl, step, rest⟩

theorem of_none (h : Linked next none q l) : q = none ∧ l = [] := by
  cases h with
  | nil => exact ⟨rfl, rfl⟩

theorem append (h : Linked next p q l) (h' : Linked next q r l') : Linked next p r (l ++ l') := by
  induction h with
  | nil => exact h'
  | cons step _ ih => exact .cons step (ih h')

theorem snoc (h : Linked next p (some a) l) (step : next a = some q) : Linked next p q (l ++ [a]) :=
  h.append (.cons step .nil)

theorem unique (h : Linked next p none l) (h' : Linked next p none l') : l = l' := by
  induction l generalizing p l' with
  | nil =>
      cases h with
      | nil => exact (of_none h').2.symm
  | cons a l ih =>
      cases h with
      | cons step linked =>
          obtain ⟨p', rest, rfl, step', linked'⟩ := head h'
          obtain rfl := Option.some.inj (step.symm.trans step')
          rw [ih linked linked']

theorem suffix (h : Linked next p none l) (member : a ∈ l) : ∃ rest, Linked next (some a) none (a :: rest) ∧
    rest.length < l.length := by
  induction l generalizing p with
  | nil => cases member
  | cons b l ih =>
      cases h with
      | cons step linked =>
          rcases List.mem_cons.mp member with rfl | member
          · exact ⟨l, .cons step linked, Nat.lt_succ_self _⟩
          · obtain ⟨rest, found, short⟩ := ih linked member
            exact ⟨rest, found, Nat.lt_succ_of_lt short⟩

-- a list that ends passes no node twice
theorem nodup (h : Linked next p none l) : l.Nodup := by
  induction l generalizing p with
  | nil => exact List.nodup_nil
  | cons a l ih =>
      cases h with
      | cons step linked =>
          refine List.nodup_cons.mpr ⟨?_, ih linked⟩
          intro member
          obtain ⟨rest, found, short⟩ := suffix linked member
          have same := unique found (.cons step linked)
          rw [(List.cons.inj same).2] at short
          exact absurd short (Nat.lt_irrefl _)

theorem live (h : Linked next p q l) (member : a ∈ l) : ∃ p, next a = some p := by
  induction h with
  | nil => cases member
  | cons step _ ih =>
      rcases List.mem_cons.mp member with rfl | member
      · exact ⟨_, step⟩
      · exact ih member

theorem congr (h : Linked next p q l) (same : ∀ a ∈ l, next' a = next a) : Linked next' p q l := by
  induction h with
  | nil => exact .nil
  | cons step _ ih =>
      refine .cons ((same _ List.mem_cons_self).trans step) (ih ?_)
      intro b member
      exact same b (List.mem_cons_of_mem _ member)

theorem split (h : Linked next p q (l ++ l')) : ∃ r, Linked next p r l ∧ Linked next r q l' := by
  induction l generalizing p with
  | nil => exact ⟨p, .nil, h⟩
  | cons b l ih =>
      cases h with
      | cons step rest =>
          obtain ⟨r, front, back⟩ := ih rest
          exact ⟨r, .cons step front, back⟩

theorem split_snoc (h : Linked next p q (l ++ [a])) : Linked next p (some a) l ∧ next a = some q := by
  obtain ⟨r, front, back⟩ := h.split
  cases back with
  | cons step rest =>
      cases rest with
      | nil => exact ⟨front, step⟩

-- storing a pointer in the last node moves the end
theorem redirect (h : Linked next p q (l ++ [a])) (fresh : a ∉ l) (last : next' a = some r)
    (same : ∀ b, b ≠ a → next' b = next b) : Linked next' p r (l ++ [a]) := by
  obtain ⟨front, -⟩ := split_snoc h
  refine snoc (front.congr ?_) last
  intro b member
  exact same b (fun equal => fresh (equal ▸ member))

end Linked

end Zua
