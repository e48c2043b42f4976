import Mathlib.Tactic

/-!
# Depth-first marking

What a recursive marker does to the set of marked nodes of a graph, in the order in which it can do it:
skip a marked node, mark a node and then everything it points to, or mark one set and then another.
`Marks edge R M M'` says that marking `R` takes the marked set from `M` to `M'`. Nodes on the recursion
stack are marked but not finished, so only the nodes that are new in `M'` are known to be closed.
-/

namespace Zua

variable {α : Type} {edge : α → α → Prop} {R S M M' M'' : Set α} {x : α}

def Reaches (edge : α → α → Prop) (R : Set α) (x : α) : Prop := ∃ r ∈ R, Relation.ReflTransGen edge r x

theorem Reaches.root (h : x ∈ R) : Reaches edge R x := ⟨x, h, .refl⟩

theorem Reaches.step {y : α} (h : Reaches edge R x) (e : edge x y) : Reaches edge R y := by
  obtain ⟨r, member, path⟩ := h
  exact ⟨r, member, path.tail e⟩

theorem Reaches.mono (h : Reaches edge R x) (sub : R ⊆ S) : Reaches edge S x := by
  obtain ⟨r, member, path⟩ := h
  exact ⟨r, sub member, path⟩

-- a set that holds the roots and is closed under edges holds all that is reached
theorem Reaches.induct {P : α → Prop} (h : Reaches edge R x) (root : ∀ r ∈ R, P r)
    (step : ∀ a b, Reaches edge R a → P a → edge a b → P b) : P x := by
  obtain ⟨r, member, path⟩ := h
  induction path with
  | refl => exact root r member
  | tail path e ih => exact step _ _ ⟨r, member, path⟩ ih e

structure Marks (edge : α → α → Prop) (R M M' : Set α) : Prop where
  mono : M ⊆ M'
  roots : R ⊆ M'
  sound : ∀ x ∈ M', x ∈ M ∨ Reaches edge R x
  closed : ∀ x ∈ M', x ∉ M → ∀ y, edge x y → y ∈ M'

namespace Marks

theorem none : Marks edge ∅ M M where
  mono := subset_rfl
  roots := Set.empty_subset M
  sound _ h := .inl h
  closed _ h new := absurd h new

theorem skip (h : x ∈ M) : Marks edge {x} M M where
  mono := subset_rfl
  roots := Set.singleton_subset_iff.mpr h
  sound _ h := .inl h
  closed _ h new := absurd h new

theorem node (h : Marks edge {y | edge x y} (insert x M) M') : Marks edge {x} M M' where
  mono := (Set.subset_insert x M).trans h.mono
  roots := Set.singleton_subset_iff.mpr (h.mono (Set.mem_insert x M))
  sound z hz := by
    rcases h.sound z hz with (rfl | old) | ⟨y, e, path⟩
    · exact .inr (.root rfl)
    · exact .inl old
    · exact .inr ⟨x, rfl, path.head e⟩
  closed z hz new y e := by
    by_cases same : z = x
    · subst same
      exact h.roots e
    · apply h.closed z hz _ y e
      rintro (equal | old)
      · exact same equal
      · exact new old

theorem both (h : Marks edge R M M') (h' : Marks edge S M' M'') : Marks edge (R ∪ S) M M'' where
  mono := h.mono.trans h'.mono
  roots := Set.union_subset (h.roots.trans h'.mono) h'.roots
  sound x hx := by
    rcases h'.sound x hx with middle | path
    · rcases h.sound x middle with old | path
      · exact .inl old
      · exact .inr (path.mono Set.subset_union_left)
    · exact .inr (path.mono Set.subset_union_right)
  closed x hx new y e := by
    by_cases middle : x ∈ M'
    · exact h'.mono (h.closed x middle new y e)
    · exact h'.closed x hx middle y e

-- marking again what is reached anyway
theorem absorb (h : Marks edge S M M') (sub : R ⊆ S) (reached : ∀ x ∈ S, Reaches edge R x) :
    Marks edge R M M' where
  mono := h.mono
  roots := sub.trans h.roots
  sound x hx := by
    rcases h.sound x hx with old | path
    · exact .inl old
    · exact .inr (path.induct reached (fun a b _ ih e => ih.step e))
  closed := h.closed

-- what is reached along nodes that were not marked
theorem reached (h : Marks edge R M M') (path : Reaches (fun x y => x ∉ M ∧ edge x y) R x) : x ∈ M' := by
  refine path.induct (fun r member => h.roots member) ?_
  rintro a b - marked ⟨new, e⟩
  exact h.closed a marked new b e

-- a marker marks what is reached in `L` if `L` starts unmarked and no path returns to it
theorem exact {L : Set α} (h : Marks edge R M M') (fresh : ∀ x ∈ L, x ∉ M)
    (outward : ∀ x y, Reaches edge R x → x ∉ L → edge x y → y ∈ L → y ∈ R) :
    ∀ x ∈ L, x ∈ M' ↔ Reaches edge R x := by
  intro x hx
  constructor
  · intro marked
    exact (h.sound x marked).resolve_left (fresh x hx)
  · intro path
    refine path.induct (P := fun x => x ∈ L → x ∈ M') (fun r member _ => h.roots member) ?_ hx
    intro a b reached ih e hb
    by_cases ha : a ∈ L
    · exact h.closed a (ih ha) (fresh a ha) b e
    · exact h.roots (outward a b reached ha e hb)

end Marks

end Zua
