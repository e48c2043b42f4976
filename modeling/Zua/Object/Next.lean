import Zua.Object.Border

/-!
# Iterating over a table

`next` continues after a key, which is all it knows about the position: first in the array part, then in the
order of the hash map.
-/

namespace Zua.Object
open Value (keyContext NotNan)

namespace Table

variable {M : IteratedMap Value Value keyContext} {t t' : Table M.toHashMap} {k q v : Value}

-- the search in the array part starts behind an integer key that lies in it, and else at its start
def startIndex (self : Table M.toHashMap) : Value → Except Fault Nat
  | .number n =>
      match arrayIndex n with
      | .error fault => .error fault
      | .ok none => .ok 0
      | .ok (some idx) => .ok (if 0 < idx ∧ idx ≤ self.array.length then idx else 0)
  | _ => .ok 0

def scan : Nat → List Value → Option (Value × Value)
  | _, [] => none
  | i, v :: rest => if v ≠ .nil then some (key (i + 1), v) else scan (i + 1) rest

-- the entry that the iterator of the map yields after the one of the key
def after (k : Value) : List (Value × Value) → Option (Value × Value)
  | [] => none
  | entry :: rest => if entry.1.eql k then rest.head? else after k rest

def next (self : Table M.toHashMap) (k : Value) : Except Fault (Option (Value × Value)) :=
  match self.startIndex k with
  | .error fault => .error fault
  | .ok start =>
      match scan start (self.array.drop start) with
      | some entry => .ok (some entry)
      | none => .ok (if k = .nil then (M.items self.map).head? else after k (M.items self.map))

-- what repeated calls return, each with the key that was returned last
inductive Visits (t : Table M.toHashMap) : Value → List (Value × Value) → Prop
  | done {k : Value} : t.next k = .ok none → Visits t k []
  | step {k q v : Value} {rest : List (Value × Value)} :
      t.next k = .ok (some (q, v)) → Visits t q rest → Visits t k ((q, v) :: rest)

-- every pair once, and nothing else
structure Complete (t : Table M.toHashMap) (visited : List (Value × Value)) : Prop where
  distinct : visited.Pairwise fun a b => a.1.eql b.1 = false
  present : ∀ entry ∈ visited, t.get entry.1 = .ok entry.2 ∧ entry.2 ≠ .nil
  all : ∀ q v, q.Usable → t.get q = .ok v → v ≠ .nil → ∃ entry ∈ visited, entry.1.eql q = true ∧ entry.2 = v

theorem Visits.unique {visited visited' : List (Value × Value)} (h : Visits t k visited) (h' : Visits t k visited') :
    visited = visited' := by
  induction h generalizing visited' with
  | done last =>
      cases h' with
      | done => rfl
      | step more =>
          rw [last] at more
          cases more
  | step more _ ih =>
      cases h' with
      | done last =>
          rw [more] at last
          cases last
      | step more' rest =>
          rw [more] at more'
          cases more'
          rw [ih rest]

/-! ## The entries of the two parts -/

def arrayEntries : Nat → List Value → List (Value × Value)
  | _, [] => []
  | i, v :: rest => if v ≠ .nil then (key (i + 1), v) :: arrayEntries (i + 1) rest else arrayEntries (i + 1) rest

theorem scan_eq (i : Nat) (array : List Value) : scan i array = (arrayEntries i array).head? := by
  induction array generalizing i with
  | nil => rfl
  | cons v rest ih =>
      unfold scan arrayEntries
      split
      · rfl
      · exact ih (i + 1)

theorem mem_arrayEntries {i : Nat} {array : List Value} {entry : Value × Value} :
    entry ∈ arrayEntries i array ↔ ∃ j, array[j]? = some entry.2 ∧ entry.2 ≠ .nil ∧ entry.1 = key (i + j + 1) := by
  induction array generalizing i with
  | nil => simp [arrayEntries]
  | cons v rest ih =>
      have later : (∃ j, (v :: rest)[j]? = some entry.2 ∧ entry.2 ≠ .nil ∧ entry.1 = key (i + j + 1)) ↔
          (v = entry.2 ∧ entry.2 ≠ .nil ∧ entry.1 = key (i + 1)) ∨ entry ∈ arrayEntries (i + 1) rest := by
        rw [ih]
        constructor
        · rintro ⟨j, located, some, name⟩
          cases j with
          | zero => exact .inl ⟨Option.some.inj located, some, name⟩
          | succ j => exact .inr ⟨j, located, some, by rw [name]; congr 1; omega⟩
        · rintro (⟨rfl, some, name⟩ | ⟨j, located, some, name⟩)
          · exact ⟨0, rfl, some, name⟩
          · exact ⟨j + 1, located, some, by rw [name]; congr 1; omega⟩
      rw [later, arrayEntries]
      obtain ⟨q, w⟩ := entry
      split
      · rename_i some
        rw [List.mem_cons, Prod.mk.injEq]
        constructor
        · rintro (⟨rfl, rfl⟩ | member)
          · exact .inl ⟨rfl, some, rfl⟩
          · exact .inr member
        · rintro (⟨rfl, -, name⟩ | member)
          · exact .inl ⟨name, rfl⟩
          · exact .inr member
      · rename_i empty
        constructor
        · exact .inr
        · rintro (⟨rfl, some, -⟩ | member)
          · exact absurd some empty
          · exact member

-- what sets with usable keys have built
structure Settled (t : Table M.toHashMap) : Prop where
  inv : Inv t
  built : M.ops.Built Value.Usable t.map
  values : ∀ q, q.Usable → M.ops.get t.map q ≠ some .nil

theorem usable_lawful : keyContext.LawfulOn Value.Usable where
  refl _ usable := Value.eql_refl usable.notNan
  symm _ _ _ _ := Value.eql_symm
  trans _ _ _ _ _ _ := Value.eql_trans
  hash_eq _ _ _ _ := Value.keyHash_eq

theorem settled_init : Settled (init M.toHashMap) where
  inv := inv_init
  built := .empty
  values q usable := by
    rw [show M.ops.get (init M.toHashMap).map q = none from
      (M.coherent _ usable_lawful.coherent).get_empty q usable]
    simp

theorem Settled.set (settled : Settled t) (usable : k.Usable) (h : t.set k v = .ok t') : Settled t' := by
  have laws := M.coherent _ usable_lawful.coherent
  obtain ⟨other, run, inv, -⟩ := set_lookup (v := v) settled.inv usable
  rw [h] at run
  cases run
  rcases set_ok h with ⟨idx, -, rfl⟩ | ⟨-, rfl⟩
  · exact ⟨inv, settled.built, settled.values⟩
  · refine ⟨inv, ?_, ?_⟩
    · unfold mapSet
      split
      · exact .remove settled.built usable
      · exact .put v settled.built usable
    · intro q usable'
      unfold mapSet
      split
      · rw [laws.get_remove _ _ _ settled.built usable usable']
        split
        · simp
        · exact settled.values q usable'
      · rename_i some
        rw [laws.get_put _ _ _ _ settled.built usable usable']
        split
        · intro same
          exact some (Option.some.inj same)
        · exact settled.values q usable'

theorem settled_setAll (sets : List (Value × Value)) (usable : ∀ entry ∈ sets, entry.1.Usable)
    (settled : Settled t) (h : t.setAll sets = .ok t') : Settled t' := by
  induction sets generalizing t with
  | nil =>
      cases h
      exact settled
  | cons entry sets ih =>
      unfold setAll at h
      split at h
      · cases h
      · rename_i step
        have first := usable entry List.mem_cons_self
        exact ih (fun other member => usable other (List.mem_cons_of_mem _ member)) (settled.set first step) h

theorem Settled.items (settled : Settled t) :
    M.ops.Iterates keyContext.eql Value.Usable t.map (M.items t.map) :=
  M.iterates _ usable_lawful _ settled.built

-- a key of the map is none of the first 50 integers, and its value is the one of the map
theorem Settled.item (settled : Settled t) {entry : Value × Value} (member : entry ∈ M.items t.map) :
    slot entry.1 = none ∧ t.get entry.1 = .ok entry.2 ∧ entry.2 ≠ .nil := by
  have items := settled.items
  have usable := items.keys entry member
  have value := items.values entry member
  have none : slot entry.1 = none := by
    cases found : slot entry.1 with
    | none => rfl
    | some idx =>
        have absent := settled.inv.absent entry.1 idx found
        rw [value] at absent
        cases absent
  refine ⟨none, ?_, ?_⟩
  · rw [get_eq settled.inv usable, lookup, none]
    show Except.ok (t.mapGet entry.1) = _
    rw [mapGet, value]
    rfl
  · intro empty
    exact settled.values entry.1 usable (by rw [value, empty])

/-! ## Going on -/

theorem after_split {before rest : List (Value × Value)} {entry : Value × Value}
    (distinct : (before ++ entry :: rest).Pairwise fun a b => a.1.eql b.1 = false)
    (self : entry.1.eql entry.1 = true) : after entry.1 (before ++ entry :: rest) = rest.head? := by
  induction before with
  | nil => exact if_pos self
  | cons head before ih =>
      obtain ⟨first, distinct⟩ := List.pairwise_cons.mp distinct
      have other : head.1.eql entry.1 = false := first entry (List.mem_append_right _ List.mem_cons_self)
      rw [List.cons_append, after, other, if_neg Bool.false_ne_true]
      exact ih distinct

theorem after_none {items : List (Value × Value)} (missing : ∀ entry ∈ items, entry.1.eql k = false) :
    after k items = none := by
  induction items with
  | nil => rfl
  | cons head items ih =>
      rw [after, missing head List.mem_cons_self, if_neg Bool.false_ne_true]
      exact ih fun entry member => missing entry (List.mem_cons_of_mem _ member)

theorem startIndex_key {n : Nat} (positive : 0 < n) (inside : n ≤ t.array.length) (short : t.array.length ≤ 50) :
    t.startIndex (key n) = .ok n := by
  have index := arrayIndex_key positive (show n < 2 ^ 53 by omega)
  unfold key
  simp only [startIndex, index, if_pos (And.intro positive inside)]

-- other keys start over
theorem startIndex_other (inv : Inv t) (usable : k.Usable) (none : slot k = none) : t.startIndex k = .ok 0 := by
  have short := inv.short
  cases k with
  | number n =>
      obtain ⟨index, found⟩ := arrayIndex_ok (usable.small n rfl)
      cases index with
      | none => simp only [startIndex, found]
      | some idx =>
          have large : ¬ (0 < idx ∧ idx ≤ 50) := by
            intro small
            simp only [slot, found, if_pos small] at none
            cases none
          simp only [startIndex, found]
          rw [if_neg (by omega)]
  | _ => rfl

theorem after_key {n : Nat} (settled : Settled t) (positive : 0 < n) (small : n ≤ 50) :
    after (key n) (M.items t.map) = none := by
  have found : slot (key n) = some n := by rw [slot_key positive (by omega), if_pos small]
  refine after_none ?_
  intro entry member
  by_contra same
  have equal := slot_eql (Value.eql_symm (Bool.eq_true_of_not_eq_false same)) found
  have none := (settled.item member).1
  rw [← equal, found] at none
  cases none

-- the rest of the array part, once the search is at `i`; nothing of the map follows
theorem visits_array (settled : Settled t) (array : List Value) (i : Nat) (k : Value) (start : Nat)
    (rest : t.array.drop i = array) (begins : t.startIndex k = .ok start)
    (same : scan start (t.array.drop start) = scan i array)
    (last : scan i array = none → k ≠ .nil ∧ after k (M.items t.map) = none) :
    Visits t k (arrayEntries i array) := by
  induction array generalizing i k start with
  | nil =>
      obtain ⟨some, none⟩ := last rfl
      refine .done ?_
      simp only [next, begins, same, scan, if_neg some, none]
  | cons v array ih =>
      have rest' : t.array.drop (i + 1) = array := by rw [← List.drop_drop, rest, List.drop_one, List.tail_cons]
      rw [arrayEntries]
      split
      · rename_i some
        have found : scan i (v :: array) = .some (key (i + 1), v) := by rw [scan, if_pos some]
        have inside : i + 1 ≤ t.array.length := by
          have length := congrArg List.length rest
          rw [List.length_drop, List.length_cons] at length
          omega
        refine .step ?_ ?_
        · simp only [next, begins, same, found]
        · have short := settled.inv.short
          refine ih (i + 1) (key (i + 1)) (i + 1) rest' (startIndex_key (Nat.succ_pos i) inside short) (by rw [rest']) ?_
          intro _
          exact ⟨by simp [key], after_key settled (Nat.succ_pos i) (by omega)⟩
      · rename_i empty
        have skip : scan i (v :: array) = scan (i + 1) array := by rw [scan, if_neg empty]
        exact ih (i + 1) k start rest' begins (same.trans skip) fun none => last (skip.trans none)

-- with a value in the array part, its entries are all that is visited
theorem visits_of_array (settled : Settled t) (some : arrayEntries 0 t.array ≠ []) :
    Visits t .nil (arrayEntries 0 t.array) := by
  refine visits_array settled t.array 0 .nil 0 rfl rfl rfl ?_
  intro none
  rw [scan_eq, List.head?_eq_none_iff] at none
  exact absurd none some

-- the array part is searched again in vain
theorem next_item (settled : Settled t) (none : arrayEntries 0 t.array = []) {before rest : List (Value × Value)}
    {entry : Value × Value} (split : M.items t.map = before ++ entry :: rest) : t.next entry.1 = .ok rest.head? := by
  have items := settled.items
  have member : entry ∈ M.items t.map := by simp [split]
  have usable := items.keys entry member
  have begins := startIndex_other settled.inv usable (settled.item member).1
  have distinct := items.distinct
  rw [split] at distinct
  have self : entry.1.eql entry.1 = true := Value.eql_refl usable.notNan
  simp only [next, begins, List.drop_zero, scan_eq, none, List.head?_nil, if_neg usable.notNil, split]
  rw [after_split distinct self]

theorem visits_items (settled : Settled t) (none : arrayEntries 0 t.array = []) (rest : List (Value × Value)) :
    ∀ before entry, M.items t.map = before ++ entry :: rest → Visits t entry.1 rest := by
  induction rest with
  | nil =>
      intro before entry split
      exact .done (next_item settled none split)
  | cons second rest ih =>
      intro before entry split
      refine .step (next_item settled none split) ?_
      exact ih (before ++ [entry]) second (by rw [split, List.append_assoc]; rfl)

-- without a value in the array part, the map is visited in its order
theorem visits_of_map (settled : Settled t) (none : arrayEntries 0 t.array = []) :
    Visits t .nil (M.items t.map) := by
  have first : t.next .nil = .ok (M.items t.map).head? := by
    simp only [next, startIndex, List.drop_zero, scan_eq, none, List.head?_nil, if_true]
  cases items : M.items t.map with
  | nil =>
      rw [items] at first
      exact .done first
  | cons entry rest =>
      rw [items] at first
      exact .step first (visits_items settled none rest [] entry items)

/-! ## Complete iterations -/

theorem get_first {n : Nat} (settled : Settled t) (positive : 0 < n) (small : n ≤ 50) :
    t.get (key n) = .ok (t.array.getD (n - 1) .nil) := by
  have large : n < 2 ^ 53 := by omega
  simp only [get_eq settled.inv (key_usable positive large), lookup, slot_key positive large, if_pos small]

theorem arrayEntries_nil_iff (settled : Settled t) :
    arrayEntries 0 t.array = [] ↔ ∀ i, 0 < i → i ≤ 50 → t.get (key i) = .ok .nil := by
  have short := settled.inv.short
  constructor
  · intro none i positive small
    rw [get_first settled positive small, List.getD_eq_getElem?_getD]
    cases located : t.array[i - 1]? with
    | none => rfl
    | some v =>
        by_contra some
        have member : (key i, v) ∈ arrayEntries 0 t.array :=
          mem_arrayEntries.mpr ⟨i - 1, located, fun empty => some (congrArg Except.ok empty), by
            show key i = key _
            congr 1
            omega⟩
        rw [none] at member
        cases member
  · intro all
    refine List.eq_nil_iff_forall_not_mem.mpr ?_
    intro entry member
    obtain ⟨j, located, some, -⟩ := mem_arrayEntries.mp member
    have inside := (List.getElem?_eq_some_iff.mp located).1
    have empty := all (j + 1) (Nat.succ_pos j) (by omega)
    rw [get_first settled (Nat.succ_pos j) (by omega), Nat.succ_sub_one, List.getD_eq_getElem?_getD, located] at empty
    exact some (Except.ok.inj empty)

-- a key that is none of the first 50 integers
def Outside (q : Value) : Prop := ∀ i, 0 < i → i ≤ 50 → q.eql (key i) = false

theorem outside_iff (usable : q.Usable) : Outside q ↔ slot q = none := by
  constructor
  · intro outside
    cases found : slot q with
    | none => rfl
    | some idx =>
        obtain ⟨-, -, -, positive, small⟩ := slot_some found
        have same := slot_inj found (show slot (key idx) = some idx by rw [slot_key positive (by omega), if_pos small])
        have equal := Value.eql_refl usable.notNan
        have other := outside idx positive small
        rw [← same, equal] at other
        cases other
  · intro none i positive small
    by_contra same
    have found : slot (key i) = some i := by rw [slot_key positive (by omega), if_pos small]
    have equal := slot_eql (Value.eql_symm (Bool.eq_true_of_not_eq_false same)) found
    rw [← equal, found] at none
    cases none

-- an integer key with a value has it in the array part
theorem get_slot {idx : Nat} (found : slot q = some idx) :
    q = key idx ∧ 0 < idx ∧ idx ≤ 50 := by
  obtain ⟨-, -, -, positive, small⟩ := slot_some found
  exact ⟨slot_inj found (by rw [slot_key positive (by omega), if_pos small]), positive, small⟩

theorem items_complete (settled : Settled t) (none : arrayEntries 0 t.array = []) : Complete t (M.items t.map) where
  distinct := settled.items.distinct
  present entry member := (settled.item member).2
  all := by
    intro q v usable value some
    cases found : slot q with
    | some idx =>
        obtain ⟨rfl, positive, small⟩ := get_slot found
        rw [(arrayEntries_nil_iff settled).mp none idx positive small] at value
        exact absurd (Except.ok.inj value).symm some
    | none =>
        rw [get_eq settled.inv usable, lookup, found] at value
        have value : t.mapGet q = v := Except.ok.inj value
        cases stored : M.ops.get t.map q with
        | none => exact absurd ((mapGet_of_absent stored).symm.trans value).symm some
        | some w =>
            rw [mapGet, stored] at value
            obtain ⟨entry, member, same, rfl⟩ := settled.items.all q w usable stored
            exact ⟨entry, member, same, value⟩

theorem arrayEntries_ascending (array : List Value) (i : Nat) :
    (arrayEntries i array).Pairwise fun a b =>
      ∃ m n, 0 < m ∧ m < n ∧ n ≤ i + array.length ∧ a.1 = key m ∧ b.1 = key n := by
  induction array generalizing i with
  | nil => exact .nil
  | cons v array ih =>
      have rest := ih (i + 1)
      rw [List.length_cons, show i + (array.length + 1) = i + 1 + array.length by omega, arrayEntries]
      split
      · refine .cons ?_ rest
        intro entry member
        obtain ⟨j, located, -, name⟩ := mem_arrayEntries.mp member
        have inside := (List.getElem?_eq_some_iff.mp located).1
        exact ⟨i + 1, i + 1 + j + 1, by omega, by omega, by omega, rfl, name⟩
      · exact rest

theorem arrayEntries_distinct (array : List Value) (i : Nat) (short : i + array.length ≤ 50) :
    (arrayEntries i array).Pairwise fun a b => a.1.eql b.1 = false := by
  refine (arrayEntries_ascending array i).imp ?_
  rintro a b ⟨m, n, positive, less, below, first, second⟩
  by_contra same
  rw [first, second] at same
  have equal := (key_eql positive (by omega) (by omega) (by omega)).mp (Bool.eq_true_of_not_eq_false same)
  omega

theorem array_complete (settled : Settled t) (none : ∀ q, q.Usable → Outside q → t.get q = .ok .nil) :
    Complete t (arrayEntries 0 t.array) where
  distinct := arrayEntries_distinct t.array 0 (by have short := settled.inv.short; omega)
  present := by
    intro entry member
    have short := settled.inv.short
    obtain ⟨j, located, some, name⟩ := mem_arrayEntries.mp member
    have inside := (List.getElem?_eq_some_iff.mp located).1
    rw [name, get_first settled (Nat.succ_pos _) (by omega), Nat.succ_sub_one, Nat.zero_add,
      List.getD_eq_getElem?_getD, located]
    exact ⟨rfl, some⟩
  all := by
    intro q v usable value some
    cases found : slot q with
    | none =>
        rw [none q usable ((outside_iff usable).mpr found)] at value
        exact absurd (Except.ok.inj value).symm some
    | some idx =>
        obtain ⟨rfl, positive, small⟩ := get_slot found
        rw [get_first settled positive small] at value
        have value := Except.ok.inj value
        have located : t.array[idx - 1]? = .some v := by
          rw [List.getD_eq_getElem?_getD] at value
          cases here : t.array[idx - 1]? with
          | none =>
              rw [here] at value
              exact absurd value.symm some
          | some w =>
              rw [here] at value
              exact congrArg Option.some value
        refine ⟨(key idx, v), mem_arrayEntries.mpr ⟨idx - 1, located, some, ?_⟩, Value.eql_refl usable.notNan, rfl⟩
        show key idx = key _
        congr 1
        omega

theorem complete_iff (settled : Settled t) : (∃ visited, Visits t .nil visited ∧ Complete t visited) ↔
    (∀ i, 0 < i → i ≤ 50 → t.get (key i) = .ok .nil) ∨ ∀ q, q.Usable → Outside q → t.get q = .ok .nil := by
  rw [← arrayEntries_nil_iff settled]
  by_cases none : arrayEntries 0 t.array = []
  · exact iff_of_true ⟨_, visits_of_map settled none, items_complete settled none⟩ (.inl none)
  · have visits := visits_of_array settled none
    constructor
    · rintro ⟨visited, run, complete⟩
      obtain rfl := run.unique visits
      right
      intro q usable outside
      by_contra some
      rw [get_eq settled.inv usable] at some
      obtain ⟨entry, member, same, -⟩ := complete.all q _ usable (get_eq settled.inv usable)
        fun empty => some (congrArg Except.ok empty)
      obtain ⟨j, located, -, name⟩ := mem_arrayEntries.mp member
      have inside := (List.getElem?_eq_some_iff.mp located).1
      have short := settled.inv.short
      have other := outside (0 + j + 1) (Nat.succ_pos _) (by omega)
      rw [name] at same
      rw [Value.eql_symm same] at other
      cases other
    · rintro (empty | none)
      · exact absurd empty none
      · exact ⟨_, visits, array_complete settled none⟩

-- whether or not every pair is visited, the calls end
theorem next_terminates (settled : Settled t) : ∃ visited, Visits t .nil visited := by
  by_cases none : arrayEntries 0 t.array = []
  · exact ⟨_, visits_of_map settled none⟩
  · exact ⟨_, visits_of_array settled none⟩

theorem next_complete_iff (M : IteratedMap Value Value keyContext) (sets : List (Value × Value))
    (usable : ∀ entry ∈ sets, entry.1.Usable) (t : Table M.toHashMap)
    (built : (init M.toHashMap).setAll sets = .ok t) :
    (∃ visited, Visits t .nil visited ∧ Complete t visited) ↔
      (∀ i, 0 < i → i ≤ 50 → t.get (key i) = .ok .nil) ∨ ∀ q, q.Usable → Outside q → t.get q = .ok .nil :=
  complete_iff (settled_setAll sets usable settled_init built)

theorem boolean_usable (b : Bool) : (Value.boolean b).Usable where
  notNil := by simp
  notNan := trivial
  small := by rintro n ⟨⟩

-- the pair of the map is never visited
theorem next_incomplete : ∃ t, (init (IteratedMap.entries Value Value keyContext).toHashMap).setAll
    [(key 1, .boolean true), (.boolean true, .boolean true)] = .ok t ∧
    ¬ ∃ visited, Visits t .nil visited ∧ Complete t visited := by
  have one := key_usable (n := 1) (by decide) (by decide)
  have usable : ∀ entry ∈ [(key 1, Value.boolean true), (Value.boolean true, Value.boolean true)], entry.1.Usable := by
    intro entry member
    rcases List.mem_pair.mp member with rfl | rfl
    · exact one
    · exact boolean_usable true
  obtain ⟨t, run, inv, found⟩ := setAll_lookup (H := (IteratedMap.entries Value Value keyContext).toHashMap) _ usable
  refine ⟨t, run, ?_⟩
  rw [complete_iff (settled_setAll _ usable settled_init run)]
  rintro (array | map)
  · have first := array 1 (by decide) (by decide)
    rw [get_eq inv one, found _ one] at first
    revert first
    decide +kernel
  · have other := map _ (boolean_usable true) fun i _ _ => rfl
    rw [get_eq inv (boolean_usable true), found _ (boolean_usable true)] at other
    revert other
    decide +kernel

theorem next_complete_array : ∃ t, (init (IteratedMap.entries Value Value keyContext).toHashMap).setAll
    [(.boolean true, .boolean true)] = .ok t ∧ ∃ visited, Visits t .nil visited ∧ Complete t visited := by
  have usable : ∀ entry ∈ [(Value.boolean true, Value.boolean true)], entry.1.Usable := by
    intro entry member
    obtain rfl := List.mem_singleton.mp member
    exact boolean_usable true
  obtain ⟨t, run, inv, found⟩ := setAll_lookup (H := (IteratedMap.entries Value Value keyContext).toHashMap) _ usable
  have complete := next_complete_iff (IteratedMap.entries Value Value keyContext) _ usable t run
  refine ⟨t, run, complete.mpr (.inl ?_)⟩
  intro i positive small
  have number := key_usable positive (show i < 2 ^ 53 by omega)
  rw [get_eq inv number, found _ number]
  rfl

end Table

end Zua.Object
