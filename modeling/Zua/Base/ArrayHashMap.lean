import Zua.Base.HashMap

/-!
# Hash maps with an array of entries

An `ArrayHashMap` keeps its entries in the order of insertion. A lookup always finds a key that is equal and has the
same hash; of equal keys with different hashes nothing is promised, except that what is found is equal.
-/

namespace Zua

structure ArrayHashMap (κ ν : Type) (ctx : KeyContext κ) where
  Map : Type
  entries : Map → List (κ × ν)
  getIndex : Map → κ → Option Nat
  getOrPutValue : Map → κ → ν → Map × Nat
  unique : ∀ m, (entries m).Pairwise fun a b => ¬ (ctx.eql a.1 b.1 = true ∧ ctx.hash a.1 = ctx.hash b.1)
  sound : ∀ m k i, getIndex m k = some i → ∃ entry, (entries m)[i]? = some entry ∧ ctx.eql entry.1 k = true
  complete : ∀ m k, ∀ entry ∈ entries m, ctx.eql entry.1 k = true → ctx.hash entry.1 = ctx.hash k →
    getIndex m k ≠ none
  -- an entry is at most added at the end
  kept : ∀ m k v, entries (getOrPutValue m k v).1 = entries m ∨ entries (getOrPutValue m k v).1 = entries m ++ [(k, v)]
  put : ∀ m k v, ctx.eql k k = true → getIndex (getOrPutValue m k v).1 k = some (getOrPutValue m k v).2

namespace ArrayHashMap

variable {κ ν : Type} {ctx : KeyContext κ} (H : ArrayHashMap κ ν ctx) {m m' : H.Map} {k q : κ}

def Distinct (m : H.Map) : Prop := (H.entries m).Pairwise fun a b => ctx.eql a.1 b.1 = false

-- the keys equal to `k` have its hash
def Hashed (m : H.Map) (k : κ) : Prop := ∀ entry ∈ H.entries m, ctx.eql entry.1 k = true → ctx.hash entry.1 = ctx.hash k

-- at most one entry has a key equal to `k`
def Single (m : H.Map) (k : κ) : Prop := ∀ (i j : Nat) (a b : κ × ν), (H.entries m)[i]? = some a → (H.entries m)[j]? = some b →
  ctx.eql a.1 k = true → ctx.eql b.1 k = true → i = j

section Equality

variable (symm : ∀ a b, ctx.eql a b = true → ctx.eql b a = true)
  (trans : ∀ a b c, ctx.eql a b = true → ctx.eql b c = true → ctx.eql a c = true)

include symm trans in
theorem single_of_pairwise {related : κ × ν → κ × ν → Prop}
    (pairs : (H.entries m).Pairwise related)
    (apart : ∀ a ∈ H.entries m, ∀ b ∈ H.entries m, ctx.eql a.1 k = true → ctx.eql b.1 k = true →
      ctx.eql a.1 b.1 = true → ¬ related a b) : H.Single m k := by
  intro i j a b first second hk hk'
  have ha := List.mem_of_getElem? first
  have hb := List.mem_of_getElem? second
  obtain ⟨inside, rfl⟩ := List.getElem?_eq_some_iff.mp first
  obtain ⟨inside', rfl⟩ := List.getElem?_eq_some_iff.mp second
  have pairs := List.pairwise_iff_getElem.mp pairs
  have equal := trans _ _ _ hk (symm _ _ hk')
  rcases lt_trichotomy i j with less | same | more
  · exact absurd (pairs i j inside inside' less) (apart _ ha _ hb hk hk' equal)
  · exact same
  · exact absurd (pairs j i inside' inside more) (apart _ hb _ ha hk' hk (symm _ _ equal))

include symm trans in
theorem single_of_hashed (hashed : H.Hashed m k) : H.Single m k := by
  refine H.single_of_pairwise symm trans (H.unique m) ?_
  intro a ha b hb hk hk' equal apart
  exact apart ⟨equal, (hashed a ha hk).trans (hashed b hb hk').symm⟩

include symm trans in
theorem single_of_distinct (distinct : H.Distinct m) : H.Single m k := by
  refine H.single_of_pairwise symm trans distinct ?_
  intro a _ b _ _ _ equal apart
  rw [equal] at apart
  cases apart

end Equality

-- a lookup of a key that is hashed as the map has it depends on the entries only
theorem getIndex_eq (single : H.Single m k) (hashed : H.Hashed m k) :
    H.getIndex m k = (H.entries m).findIdx? fun entry => ctx.eql entry.1 k := by
  cases found : H.getIndex m k with
  | none =>
      refine (List.findIdx?_eq_none_iff.mpr ?_).symm
      intro entry member
      by_contra same
      have same := Bool.eq_true_of_not_eq_false same
      exact H.complete m k entry member same (hashed entry member same) found
  | some i =>
      obtain ⟨entry, located, same⟩ := H.sound m k i found
      obtain ⟨inside, rfl⟩ := List.getElem?_eq_some_iff.mp located
      refine (List.findIdx?_eq_some_iff_getElem.mpr ⟨inside, same, ?_⟩).symm
      intro j less hit
      have before : (H.entries m)[j]? = some (H.entries m)[j] := List.getElem?_eq_getElem (by omega)
      have same := single j i _ _ before located hit same
      omega

theorem getIndex_of_entry {i : Nat} {entry : κ × ν} (single : H.Single m entry.1) (same : ctx.eql entry.1 entry.1 = true)
    (located : (H.entries m)[i]? = some entry) : H.getIndex m entry.1 = some i := by
  cases found : H.getIndex m entry.1 with
  | none => exact absurd found (H.complete m _ entry (List.mem_of_getElem? located) same rfl)
  | some j =>
      obtain ⟨other, located', same'⟩ := H.sound m _ j found
      rw [single j i other entry located' located same' same]

theorem getIndex_getOrPutValue {v : ν} (single : H.Single m q) (hashed : H.Hashed m q) (other : ctx.eql k q = false) :
    H.getIndex (H.getOrPutValue m k v).1 q = H.getIndex m q := by
  rcases H.kept m k v with entries | entries
  · rw [H.getIndex_eq single hashed, H.getIndex_eq, entries]
    · rwa [Single, entries]
    · rwa [Hashed, entries]
  · have before {i : Nat} {a : κ × ν} (located : (H.entries m ++ [(k, v)])[i]? = some a) (same : ctx.eql a.1 q = true) :
        (H.entries m)[i]? = some a := by
      rw [List.getElem?_append] at located
      split at located
      · exact located
      · obtain rfl := List.mem_singleton.mp (List.mem_of_getElem? located)
        rw [other] at same
        cases same
    rw [H.getIndex_eq single hashed, H.getIndex_eq, entries, List.findIdx?_append, List.findIdx?_singleton, other]
    · simp
    · rw [Single, entries]
      intro i j a b first second hk hk'
      exact single i j a b (before first hk) (before second hk') hk hk'
    · rw [Hashed, entries]
      intro entry member same
      obtain ⟨i, located⟩ := List.mem_iff_getElem?.mp member
      exact hashed entry (List.mem_of_getElem? (before located same)) same

/-! ## A map that is always searched from the start -/

namespace Linear

variable (ctx)

def getIndex (m : List (κ × ν)) (k : κ) : Option Nat := m.findIdx? fun entry => ctx.eql entry.1 k

-- a new key is put at the end
def getOrPutValue (m : List (κ × ν)) (k : κ) (v : ν) : List (κ × ν) × Nat :=
  match getIndex ctx m k with
  | some i => (m, i)
  | none => (m ++ [(k, v)], m.length)

def Unique (m : List (κ × ν)) : Prop :=
  m.Pairwise fun a b => ¬ (ctx.eql a.1 b.1 = true ∧ ctx.hash a.1 = ctx.hash b.1)

variable {ctx}

theorem unique_getOrPutValue {m : List (κ × ν)} (unique : Unique ctx m) (k : κ) (v : ν) :
    Unique ctx (getOrPutValue ctx m k v).1 := by
  unfold getOrPutValue
  split
  · exact unique
  · rename_i missing
    refine List.pairwise_append.mpr ⟨unique, List.pairwise_singleton _ _, ?_⟩
    rintro entry member _ last ⟨same, -⟩
    obtain rfl := List.mem_singleton.mp last
    rw [List.findIdx?_eq_none_iff.mp missing entry member] at same
    cases same

theorem getOrPutValue_kept (m : List (κ × ν)) (k : κ) (v : ν) :
    (getOrPutValue ctx m k v).1 = m ∨ (getOrPutValue ctx m k v).1 = m ++ [(k, v)] := by
  unfold getOrPutValue
  split
  · exact .inl rfl
  · exact .inr rfl

theorem getIndex_getOrPutValue (m : List (κ × ν)) (k : κ) (v : ν) (same : ctx.eql k k = true) :
    getIndex ctx (getOrPutValue ctx m k v).1 k = some (getOrPutValue ctx m k v).2 := by
  unfold getOrPutValue
  split
  · assumption
  · rename_i missing
    show List.findIdx? _ (m ++ [(k, v)]) = _
    rw [List.findIdx?_append, show List.findIdx? _ m = none from missing, List.findIdx?_singleton, same]
    simp

end Linear

def linear (κ ν : Type) (ctx : KeyContext κ) : ArrayHashMap κ ν ctx where
  Map := { m : List (κ × ν) // Linear.Unique ctx m }
  entries m := m.1
  getIndex m := Linear.getIndex ctx m.1
  getOrPutValue m k v :=
    (⟨(Linear.getOrPutValue ctx m.1 k v).1, Linear.unique_getOrPutValue m.2 k v⟩, (Linear.getOrPutValue ctx m.1 k v).2)
  unique m := m.2
  sound m k i found := by
    obtain ⟨inside, same, -⟩ := List.findIdx?_eq_some_iff_getElem.mp found
    exact ⟨m.1[i], List.getElem?_eq_getElem inside, same⟩
  complete m k entry member same _ none := by
    have missing := List.findIdx?_eq_none_iff.mp none entry member
    rw [same] at missing
    cases missing
  kept m k v := Linear.getOrPutValue_kept m.1 k v
  put m k v := Linear.getIndex_getOrPutValue m.1 k v

end ArrayHashMap

end Zua
