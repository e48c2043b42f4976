import Zua.Stdlib.Table
import Mathlib.Data.List.Sort

/-!
# `table.sort`

The loop walks down from `elements[j - 1]` past the smaller values. It stops at `elements[0]`, which it never
replaces, so that the values behind the first one end up in descending order.
-/

namespace Zua.Stdlib
open Object Vm
open Value (keyContext)

/-! ## The loops -/

def less : Value → Value → Bool
  | .number n₁, .number n₂ => n₁.lt n₂
  | .number _, .string _ => true
  | .string s₁, .string s₂ => s₁.data < s₂.data
  | _, _ => false

-- the inner loop; the result also has the last `k`
def shiftGreater (key : Value) (elements : List Value) : Nat → List Value × Nat
  | 0 =>
      let a := elements.getD 0 .nil
      if less a key then (elements.set 1 a, 0) else (elements, 0)
  | k + 1 =>
      let a := elements.getD (k + 1) .nil
      if less a key then shiftGreater key (elements.set (k + 2) a) k else (elements, k + 1)

-- the outer loop, `n` more times from `j` on
def sortElements (elements : List Value) (j : Nat) : Nat → List Value
  | 0 => elements
  | n + 1 =>
      let key := elements.getD j .nil
      let shifted := shiftGreater key elements (j - 1)
      sortElements (shifted.1.set (shifted.2 + 1) key) (j + 1) n

section Loops

variable {H : HashMap Value Value keyContext} {t : Table H} {f : Nat → Value} {v : Value}
  {us vs : List Value} {i n : Nat}

-- the values of `n` keys behind `i`
def collect (t : Table H) (i : Nat) : Nat → Except Stop (List Value)
  | 0 => .ok []
  | n + 1 => do
      let v ← getKey t (i + 1)
      let rest ← collect t (i + 1) n
      return v :: rest

-- stores the values behind `i`
def store (t : Table H) (i : Nat) : List Value → Except Stop (Table H)
  | [] => .ok t
  | v :: elements => do
      let t ← setKey t (i + 1) v
      store t (i + 1) elements

def tableSort {P : Platform} (s : Machine P) : Except Stop (Machine P × Int) :=
  match toTable s 1 with
  | none => .ok (s, 0)
  | some a => do
      let t ← tableAt s a
      if t.length ≤ 1 then return (s, 0)
      else
        let elements ← collect t 0 t.length
        let t' ← store t 0 (sortElements elements 1 (t.length - 1))
        return ({ s with tables := s.tables.set a t' }, 0)

/-! ## Insertion into a list -/

-- `b` may stand before `a`
def NotLess (a b : Value) : Prop := less b a = false

instance (a b : Value) : Decidable (NotLess a b) := inferInstanceAs (Decidable (_ = _))

theorem getD_reverse (first : Value) (reversed post : List Value) :
    (first :: (reversed.reverse ++ v :: post)).getD (reversed.length + 1) .nil = v := by
  rw [List.getD_cons_succ, List.getD_eq_getElem?_getD, List.getElem?_append_right (by simp)]
  simp

theorem set_reverse (first a : Value) (reversed post : List Value) :
    (first :: (reversed.reverse ++ v :: post)).set (reversed.length + 1) a = first :: (reversed.reverse ++ a :: post) := by
  rw [List.set_cons_succ, List.set_append_right _ _ (by simp)]
  simp

theorem reverse_cons_append (a : Value) (reversed post : List Value) :
    (a :: reversed).reverse ++ post = reversed.reverse ++ a :: post := by
  rw [List.reverse_cons, List.append_assoc]
  rfl

-- `reversed` holds the values from `k` down to 1; the value behind them is free
theorem shiftGreater_insert (key first v : Value) (reversed post : List Value) :
    let shifted := shiftGreater key (first :: (reversed.reverse ++ v :: post)) reversed.length
    shifted.1.set (shifted.2 + 1) key = first :: ((reversed.orderedInsert NotLess key).reverse ++ post) := by
  induction reversed generalizing v post with
  | nil =>
      dsimp only [List.length_nil, List.reverse_nil, List.nil_append, shiftGreater]
      split <;> rfl
  | cons a reversed ih =>
      have last : (first :: ((a :: reversed).reverse ++ v :: post)).getD (reversed.length + 1) .nil = a := by
        rw [reverse_cons_append]
        exact getD_reverse first reversed (v :: post)
      have set (w : Value) : (first :: ((a :: reversed).reverse ++ v :: post)).set (reversed.length + 2) w =
          first :: (reversed.reverse ++ a :: w :: post) := by
        rw [← reverse_cons_append a reversed (w :: post)]
        exact set_reverse first w (a :: reversed) post
      dsimp only [List.length_cons]
      rw [shiftGreater, last, List.orderedInsert_cons]
      by_cases smaller : less a key = true
      · rw [if_pos smaller, set, if_neg (by simp [NotLess, smaller]), reverse_cons_append]
        exact ih a (a :: post)
      · rw [if_neg smaller, if_pos (by simpa [NotLess] using smaller), reverse_cons_append key,
          reverse_cons_append a reversed (key :: post)]
        exact set key

theorem sortElements_insert (first : Value) (reversed rest : List Value) :
    sortElements (first :: (reversed.reverse ++ rest)) (reversed.length + 1) rest.length =
      first :: (rest.foldl (fun sorted v => sorted.orderedInsert NotLess v) reversed).reverse := by
  induction rest generalizing reversed with
  | nil =>
      rw [List.append_nil]
      rfl
  | cons v rest ih =>
      have inserted := shiftGreater_insert v first v reversed rest
      have next := ih (reversed.orderedInsert NotLess v)
      rw [List.orderedInsert_length] at next
      rw [List.length_cons, sortElements, getD_reverse, Nat.add_sub_cancel, inserted, next, List.foldl_cons]

theorem sortElements_eq (first : Value) (rest : List Value) :
    sortElements (first :: rest) 1 rest.length = first :: (rest.reverse.insertionSort NotLess).reverse := by
  rw [List.insertionSort, List.foldr_reverse]
  exact sortElements_insert first [] rest

/-! ## Order -/

-- what the elements become
def arranged : List Value → List Value
  | [] => []
  | first :: rest => first :: (rest.reverse.insertionSort NotLess).reverse

theorem sortElements_arranged (vs : List Value) : sortElements vs 1 (vs.length - 1) = arranged vs := by
  cases vs with
  | nil => rfl
  | cons first rest => exact sortElements_eq first rest

theorem arranged_perm (vs : List Value) : (arranged vs).Perm vs := by
  cases vs with
  | nil => exact .refl []
  | cons first rest =>
      have sorted := List.perm_insertionSort NotLess rest.reverse
      exact .cons first ((List.reverse_perm _).trans (sorted.trans (List.reverse_perm rest)))

def Equivalent (a b : Value) : Prop := NotLess a b ∧ NotLess b a

instance (a b : Value) : Decidable (Equivalent a b) := inferInstanceAs (Decidable (_ ∧ _))

-- numbers that are not NaN, or strings
def Sortable (vs : List Value) : Prop :=
  (∀ v ∈ vs, ∃ n, v = .number n ∧ n.isNan = false) ∨ ∀ v ∈ vs, ∃ str, v = .string str

theorem number_notLess {m n : F64} (number : m.isNan = false) (number' : n.isNan = false) :
    NotLess (.number m) (.number n) ↔ m.rank ≤ n.rank := by
  unfold NotLess
  show n.lt m = false ↔ _
  rw [F64.lt, number, number']
  simp

theorem string_notLess {str str' : Str} : NotLess (.string str) (.string str') ↔ str.data ≤ str'.data := by
  unfold NotLess
  show decide (str'.data < str.data) = false ↔ _
  rw [decide_eq_false_iff_not]
  exact List.not_lt

theorem pairwise_insertionSort_of {α β : Type} (r : α → α → Prop) [DecidableRel r] (le : β → β → Prop)
    [DecidableRel le] [Std.Total le] [IsTrans β le] (f : α → β) {l : List α}
    (h : ∀ a ∈ l, ∀ b ∈ l, r a b ↔ le (f a) (f b)) : (l.insertionSort r).Pairwise r := by
  have sorted := List.pairwise_insertionSort le (l.map f)
  rw [← List.map_insertionSort r le f l h, List.pairwise_map] at sorted
  refine sorted.imp_of_mem ?_
  intro a b first second below
  exact (h a ((List.mem_insertionSort r).mp first) b ((List.mem_insertionSort r).mp second)).mpr below

def rankOf : Value → Int
  | .number n => n.rank
  | _ => 0

def dataOf : Value → List UInt8
  | .string str => str.data
  | _ => []

theorem sorted_pairwise (sortable : Sortable vs) : (vs.insertionSort NotLess).Pairwise NotLess := by
  rcases sortable with numbers | strings
  · refine pairwise_insertionSort_of NotLess (· ≤ ·) rankOf ?_
    intro a first b second
    obtain ⟨m, rfl, number⟩ := numbers a first
    obtain ⟨n, rfl, number'⟩ := numbers b second
    exact number_notLess number number'
  · have transitive : IsTrans (List UInt8) (· ≤ ·) := ⟨fun _ _ _ => List.le_trans⟩
    refine pairwise_insertionSort_of NotLess (· ≤ ·) dataOf ?_
    intro a first b second
    obtain ⟨str, rfl⟩ := strings a first
    obtain ⟨str', rfl⟩ := strings b second
    exact string_notLess

theorem arranged_eq (flat : (vs.drop 1).Pairwise Equivalent) : arranged vs = vs := by
  cases vs with
  | nil => rfl
  | cons first rest =>
      have ascending : rest.reverse.Pairwise NotLess := List.pairwise_reverse.mpr (flat.imp And.right)
      rw [arranged, ascending.insertionSort_eq, List.reverse_reverse]

-- the rest is in descending order, and so all equivalent if it is also in ascending order
theorem flat_of_ordered (sortable : Sortable vs) (ordered : (arranged vs).Pairwise NotLess) :
    (vs.drop 1).Pairwise Equivalent := by
  cases vs with
  | nil => exact .nil
  | cons first rest =>
      have sortable' : Sortable rest.reverse := by
        refine sortable.imp (fun all v member => all v ?_) (fun all v member => all v ?_) <;>
          exact List.mem_cons_of_mem _ (List.mem_reverse.mp member)
      have descending := List.pairwise_reverse.mpr (sorted_pairwise sortable')
      have perm := (arranged_perm (first :: rest)).cons_inv
      have symmetric {a b : Value} (both : Equivalent a b) : Equivalent b a := ⟨both.2, both.1⟩
      exact (List.Perm.pairwise_iff symmetric perm).mp (ordered.of_cons.and descending)

/-! ## The table -/

theorem Stores.collect (stores : Stores t f) (small : i + n < 2 ^ 53) :
    collect t i n = .ok ((List.range' (i + 1) n).map f) := by
  induction n generalizing i with
  | zero => rfl
  | succ n ih =>
      rw [Stdlib.collect, stores.getKey (Nat.succ_pos i) (by omega), ok_bind, ih (by omega)]
      rfl

theorem Stores.store {elements : List Value} (stores : Stores t f) (small : i + elements.length < 2 ^ 53) :
    ∃ t', store t i elements = .ok t' ∧
      Stores t' fun n => if i < n ∧ n ≤ i + elements.length then elements.getD (n - i - 1) .nil else f n := by
  induction elements generalizing t f i with
  | nil =>
      refine ⟨t, rfl, stores.congr ?_⟩
      intro n _ _
      rw [List.length_nil, if_neg (by omega)]
  | cons v elements ih =>
      rw [List.length_cons] at small
      obtain ⟨t₁, set, stores₁⟩ := stores.setKey v (Nat.succ_pos i) (by omega)
      obtain ⟨t', rest, stores'⟩ := ih stores₁ (show i + 1 + elements.length < 2 ^ 53 by omega)
      refine ⟨t', ?_, stores'.congr ?_⟩
      · rw [Stdlib.store, set]
        exact rest
      · intro n _ _
        rw [List.length_cons]
        rcases Nat.lt_trichotomy n (i + 1) with less | rfl | more
        · rw [if_neg (by omega), if_neg (by omega), Function.update_of_ne less.ne]
        · rw [if_neg (by omega), if_pos (by omega), Function.update_self, show i + 1 - i - 1 = 0 by omega]
          rfl
        · rw [Function.update_of_ne more.ne']
          refine if_congr (by omega) ?_ rfl
          rw [show n - i - 1 = n - (i + 1) - 1 + 1 by omega, List.getD_cons_succ]

theorem map_content (vs : List Value) (below : n ≤ vs.length) : (List.range' 1 n).map (content vs) = vs.take n := by
  refine List.ext_getElem (by simp [below]) ?_
  intro k inside inside'
  rw [List.length_map, List.length_range'] at inside
  rw [List.getElem_map, List.getElem_range', List.getElem_take, content, List.getD_eq_getElem?_getD,
    show 1 + 1 * k - 1 = k by omega, List.getElem?_eq_getElem (by omega)]
  rfl

theorem Sequence.unique {us : List Value} (sequence : Sequence t us) (sequence' : Sequence t vs)
    (length : us.length = vs.length) (small : vs.length < 2 ^ 53) : us = vs := by
  refine List.ext_getElem length ?_
  intro k inside inside'
  have same := sequence.stores.unique sequence'.stores (Nat.succ_pos k) (by omega)
  rwa [content, content, Nat.succ_sub_one, List.getD_eq_getElem?_getD, List.getD_eq_getElem?_getD,
    List.getElem?_eq_getElem inside, List.getElem?_eq_getElem inside'] at same

-- what a call leaves in a table
def sorted (vs : List Value) : List Value := arranged (vs.take 50) ++ vs.drop 50

theorem sorted_perm (vs : List Value) : (sorted vs).Perm vs := by
  have perm := (arranged_perm (vs.take 50)).append_right (vs.drop 50)
  rwa [List.take_append_drop] at perm

theorem sorted_iff (sortable : Sortable vs) :
    (sorted vs).Pairwise NotLess ↔ vs.Pairwise NotLess ∧ ((vs.take 50).drop 1).Pairwise Equivalent := by
  have unchanged (flat : ((vs.take 50).drop 1).Pairwise Equivalent) : sorted vs = vs := by
    rw [sorted, arranged_eq flat, List.take_append_drop]
  constructor
  · intro ordered
    have front : Sortable (vs.take 50) :=
      sortable.imp (fun all v member => all v (List.mem_of_mem_take member))
        (fun all v member => all v (List.mem_of_mem_take member))
    have flat := flat_of_ordered front (List.pairwise_append.mp ordered).1
    rw [unchanged flat] at ordered
    exact ⟨ordered, flat⟩
  · rintro ⟨ordered, flat⟩
    rwa [unchanged flat]

theorem sorted_sequence (sequence : Sequence t vs) :
    ∃ t', store t 0 (arranged (vs.take 50)) = .ok t' ∧ Sequence t' (sorted vs) := by
  have length := sequence.length
  have size : (arranged (vs.take 50)).length = t.length := by
    rw [(arranged_perm _).length_eq, List.length_take, Nat.min_comm, length]
  have all : ∀ v ∈ sorted vs, v ≠ .nil := fun v member => sequence.some v ((sorted_perm vs).mem_iff.mp member)
  obtain ⟨t', run, stores⟩ := sequence.stores.store (i := 0) (show 0 + (arranged (vs.take 50)).length < 2 ^ 53 by omega)
  refine ⟨t', run, (stores.sequence_iff all).mpr ?_⟩
  intro n positive _
  simp only [content, List.getD_eq_getElem?_getD, sorted]
  by_cases inside : n ≤ t.length
  · rw [if_pos (by omega), List.getElem?_append_left (by omega), Nat.sub_zero]
  · rw [if_neg (by omega), List.getElem?_append_right (by omega), List.getElem?_drop, size, length]
    by_cases few : vs.length ≤ 50
    · rw [List.getElem?_eq_none (by omega), List.getElem?_eq_none (by omega)]
    · rw [show 50 + (n - 1 - min vs.length 50) = n - 1 by omega]

end Loops

section Calls

variable {P : Platform} {s : Machine P} {a : Addr} {vs : List Value}

theorem sort_run (holds : Holds s a vs) (called : Called s [.table a]) :
    ∃ s', tableSort s = .ok (s', 0) ∧ Holds s' a (sorted vs) := by
  obtain ⟨t, located, sequence⟩ := holds
  have length := sequence.length
  unfold tableSort
  rw [called.table]
  simp only [tableAt, located, ok_bind]
  by_cases short : t.length ≤ 1
  · refine ⟨s, if_pos short, t, located, ?_⟩
    have flat : ((vs.take 50).drop 1).Pairwise Equivalent := by
      rw [List.drop_of_length_le (by rw [List.length_take]; omega)]
      exact .nil
    rwa [sorted, arranged_eq flat, List.take_append_drop]
  · rw [if_neg short]
    obtain ⟨t', run, sequence'⟩ := sorted_sequence sequence
    have front : vs.take t.length = vs.take 50 := by
      rw [List.take_eq_take_iff]
      omega
    have elements : sortElements (vs.take 50) 1 (t.length - 1) = arranged (vs.take 50) := by
      rw [← sortElements_arranged, List.length_take, Nat.min_comm, length]
    have collected : collect t 0 t.length = .ok (vs.take 50) := by
      rw [sequence.stores.collect (by omega), map_content vs (by omega), front]
    refine ⟨{ s with tables := s.tables.set a t' }, ?_, (holds_set located).mpr sequence'⟩
    rw [collected, ok_bind, elements, run]
    rfl

theorem sort_determined (small : vs.length < 2 ^ 53) (holds : Holds s a vs) (called : Called s [.table a]) :
    (∃ s' us, tableSort s = .ok (s', 0) ∧ Holds s' a us ∧ us.Perm vs ∧ us.Pairwise NotLess) ↔
      (sorted vs).Pairwise NotLess := by
  obtain ⟨s', run, t, located, sequence⟩ := sort_run holds called
  have perm := sorted_perm vs
  constructor
  · rintro ⟨s'', us, run', ⟨t', located', sequence'⟩, perm', ordered⟩
    rw [run] at run'
    cases run'
    rw [located] at located'
    cases located'
    rwa [sequence'.unique sequence (perm'.length_eq.trans perm.length_eq.symm) (by rw [perm.length_eq]; exact small)]
      at ordered
  · intro ordered
    exact ⟨s', sorted vs, run, ⟨t, located, sequence⟩, perm, ordered⟩

theorem sort_iff (s : Machine P) (a : Addr) (vs : List Value) (sortable : Sortable vs) (small : vs.length < 2 ^ 53)
    (holds : Holds s a vs) (called : Called s [.table a]) :
    (∃ s' us, tableSort s = .ok (s', 0) ∧ Holds s' a us ∧ us.Perm vs ∧ us.Pairwise NotLess) ↔
      vs.Pairwise NotLess ∧ ((vs.take 50).drop 1).Pairwise Equivalent :=
  (sort_determined small holds called).trans (sorted_iff sortable)

theorem sort_equal : ∃ t, Sequence t [key 1, key 2, key 2] ∧
    ∃ s' us, tableSort (calling (P := Platform.plain) t [.table 0]) = .ok (s', 0) ∧ Holds s' 0 us ∧
      us.Perm [key 1, key 2, key 2] ∧ us.Pairwise NotLess := by
  have number (n : Nat) (small : n < 2 ^ 64) : ∃ x, key n = .number x ∧ x.isNan = false :=
    ⟨F64.floatFromInt n, rfl, F64.floatFromInt_finite small⟩
  have numbers : ∀ v ∈ [key 1, key 2, key 2], ∃ x, v = .number x ∧ x.isNan = false := by
    simp only [List.forall_mem_cons, List.not_mem_nil, false_imp_iff, implies_true, and_true]
    exact ⟨number 1 (by decide), number 2 (by decide), number 2 (by decide)⟩
  obtain ⟨t, sequence⟩ := exists_sequence Platform.plain.hashMap [key 1, key 2, key 2] (by simp [key]) (by decide)
  exact ⟨t, sequence, (sort_iff _ 0 [key 1, key 2, key 2] (.inl numbers) (by decide) ⟨t, rfl, sequence⟩
    (called_calling _ _)).mpr (by decide)⟩

-- two values behind the first one change places
theorem sort_descending : ∃ t, Sequence t [key 1, key 2, key 3] ∧
    ¬∃ s' us, tableSort (calling (P := Platform.plain) t [.table 0]) = .ok (s', 0) ∧ Holds s' 0 us ∧
      us.Perm [key 1, key 2, key 3] ∧ us.Pairwise NotLess := by
  obtain ⟨t, sequence⟩ := exists_sequence Platform.plain.hashMap [key 1, key 2, key 3] (by simp [key]) (by decide)
  refine ⟨t, sequence, ?_⟩
  rw [sort_determined (by decide) ⟨t, rfl, sequence⟩ (called_calling _ _)]
  decide

end Calls

end Zua.Stdlib
