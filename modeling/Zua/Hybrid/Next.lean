import Zua.Hybrid.Getn
import Zua.Object.Next

/-!
# Iterating over the hybrid table

`next` goes on behind an integer key, and for every other key it searches the array part from its start before it
looks the key up in the map.
-/

namespace Zua.Hybrid
open Object (Value key)
open Object.Table (scan arrayEntries)

variable {wyhash : Wyhash}

namespace Table

variable {H : ArrayHashMap Value Value (keyContext wyhash)} {t : Table H} {k q v : Value}

def next (self : Table H) (k : Value) : Except Fault (Option (Value × Value)) :=
  match arrayIndex k with
  | .error fault => .error fault
  | .ok index =>
      match scan (index.getD 0) (self.array.drop (index.getD 0)) with
      | some entry => .ok (some entry)
      | none =>
          match H.getIndex self.map k with
          | some current => .ok (H.entries self.map)[current + 1]?
          | none => .ok (H.entries self.map).head?

-- what the calls return after one that has returned `entry`
inductive Yields (t : Table H) : Option (Value × Value) → List (Value × Value) → Prop
  | done : Yields t none []
  | step {k v : Value} {entry : Option (Value × Value)} {rest : List (Value × Value)} :
      t.next k = .ok entry → Yields t entry rest → Yields t (some (k, v)) ((k, v) :: rest)

def Visits (t : Table H) (k : Value) (visited : List (Value × Value)) : Prop :=
  ∃ entry, t.next k = .ok entry ∧ Yields t entry visited

structure Complete (t : Table H) (visited : List (Value × Value)) : Prop where
  distinct : visited.Pairwise fun a b => keyEql a.1 b.1 = false
  present : ∀ entry ∈ visited, t.valueOf entry.1 = .ok (some entry.2) ∧ entry.2 ≠ .nil
  all : ∀ q v, t.valueOf q = .ok (some v) → v ≠ .nil → ∃ entry ∈ visited, keyEql entry.1 q = true ∧ entry.2 = v

-- no key is twice in the table
structure Iterable (t : Table H) : Prop where
  distinct : H.Distinct t.map
  keys : ∀ entry ∈ H.entries t.map, entry.1 ≠ .none ∧ entry.1 ≠ .nil ∧ isNan entry.1 = false
  beyond : ∀ entry ∈ H.entries t.map, ∀ i, arrayIndex entry.1 = .ok (some i) → 0 < i → t.array.length < i
  small : t.array.length < 2 ^ 53

theorem Yields.unique {entry : Option (Value × Value)} {visited visited' : List (Value × Value)}
    (h : Yields t entry visited) (h' : Yields t entry visited') : visited = visited' := by
  induction h generalizing visited' with
  | done =>
      cases h'
      rfl
  | step next _ ih =>
      cases h' with
      | step next' rest =>
          rw [next] at next'
          cases next'
          rw [ih rest]

theorem scan_none {array : List Value} {i : Nat} : scan i array = none ↔ ∀ v ∈ array, v = .nil := by
  induction array generalizing i with
  | nil => simp [scan]
  | cons v rest ih =>
      rw [scan]
      split
      · rename_i some
        simp [some]
      · rename_i empty
        simp [ih, not_not.mp empty]

theorem eq_key {i : Nat} (positive : 0 < i) (small : i < 2 ^ 53) (same : keyEql k (key i) = true) : k = key i := by
  cases k with
  | number n =>
      have equal : F64.floatFromInt i = n :=
        F64.eq_of_le_one (F64.one_le_floatFromInt positive small) (F64.eq_symm same)
      rw [← equal]
      rfl
  | _ => cases same

theorem eq_nil (same : keyEql k .nil = true) : k = .nil := by
  cases k with
  | nil => rfl
  | _ => cases same

-- the integers of the array part are not in the map
theorem Iterable.apart (iterable : Iterable t) {i : Nat} (positive : 0 < i) (inside : i ≤ t.array.length)
    {entry : Value × Value} (member : entry ∈ H.entries t.map) : keyEql entry.1 (key i) = false := by
  have small := iterable.small
  by_contra same
  have equal := eq_key positive (by omega) (Bool.eq_true_of_not_eq_false same)
  have above := iterable.beyond entry member i (by rw [equal, arrayIndex_key positive (by omega)]) positive
  omega

theorem Iterable.missing (iterable : Iterable t) {i : Nat} (positive : 0 < i) (inside : i ≤ t.array.length) :
    H.getIndex t.map (key i) = none := by
  cases located : H.getIndex t.map (key i) with
  | none => rfl
  | some index =>
      obtain ⟨entry, here, same⟩ := H.sound _ _ _ located
      have other := iterable.apart positive inside (List.mem_of_getElem? here)
      have same : keyEql entry.1 (key i) = true := same
      rw [same] at other
      cases other

/-! ## The array part -/

-- the rest of the array part, once the search is at `i`, and then what follows its end
theorem visits_array (iterable : Iterable t) (array : List Value) (i : Nat) (k : Value) {index : Option Nat}
    {visited : List (Value × Value)} (rest : t.array.drop i = array) (found : arrayIndex k = .ok index)
    (same : scan (index.getD 0) (t.array.drop (index.getD 0)) = scan i array)
    (missing : H.getIndex t.map k = none) :
    Visits t k visited ↔ ∃ tail, visited = arrayEntries i array ++ tail ∧ Yields t (H.entries t.map).head? tail := by
  induction array generalizing i k index visited with
  | nil =>
      have next : t.next k = .ok (H.entries t.map).head? := by
        simp only [Table.next, found, same, scan, missing]
      constructor
      · rintro ⟨entry, next', yields⟩
        rw [next] at next'
        cases next'
        exact ⟨visited, rfl, yields⟩
      · rintro ⟨tail, rfl, yields⟩
        exact ⟨_, next, yields⟩
  | cons v array ih =>
      have rest' : t.array.drop (i + 1) = array := by rw [← List.drop_drop, rest, List.drop_one, List.tail_cons]
      have inside : i + 1 ≤ t.array.length := by
        have length := congrArg List.length rest
        rw [List.length_drop, List.length_cons] at length
        omega
      have small := iterable.small
      rw [arrayEntries]
      split
      · rename_i some
        have next : t.next k = .ok (Option.some (key (i + 1), v)) := by
          simp only [Table.next, found, same, scan, if_pos some]
        have number := arrayIndex_key (i := i + 1) (by omega) (by omega)
        have outside := iterable.missing (i := i + 1) (by omega) inside
        have later (visited : List (Value × Value)) := @ih (i + 1) (key (i + 1)) _ visited rest' number
          (by rw [Option.getD_some, rest']) outside
        constructor
        · rintro ⟨entry, next', yields⟩
          rw [next] at next'
          cases next'
          cases yields with
          | step next yields =>
              obtain ⟨tail, rfl, ends⟩ := (later _).mp ⟨_, next, yields⟩
              exact ⟨tail, rfl, ends⟩
        · rintro ⟨tail, rfl, yields⟩
          obtain ⟨entry, next', yields⟩ := (later _).mpr ⟨tail, rfl, yields⟩
          exact ⟨_, next, .step next' yields⟩
      · rename_i empty
        refine ih (i + 1) k rest' found ?_ missing
        rw [same, scan, if_neg empty]

/-! ## The map -/

-- the search of the array part behind the key finds nothing
def Passes (t : Table H) (k : Value) : Prop :=
  ∃ index, arrayIndex k = .ok index ∧ scan (index.getD 0) (t.array.drop (index.getD 0)) = none

theorem Iterable.next_entry (iterable : Iterable t) {i : Nat} {entry : Value × Value}
    (located : (H.entries t.map)[i]? = some entry) (passes : Passes t entry.1) :
    t.next entry.1 = .ok (H.entries t.map)[i + 1]? := by
  obtain ⟨index, found, none⟩ := passes
  obtain ⟨notNone, -, number⟩ := iterable.keys entry (List.mem_of_getElem? located)
  have single : H.Single t.map entry.1 :=
    H.single_of_distinct (fun _ _ => keyEql_symm) (fun _ _ _ => keyEql_trans) iterable.distinct
  have here := H.getIndex_of_entry single (keyEql_refl notNone number) located
  simp only [next, found, none, here]

theorem yields_entries (iterable : Iterable t) (passes : ∀ entry ∈ H.entries t.map, Passes t entry.1)
    (rest before : List (Value × Value)) (split : H.entries t.map = before ++ rest) : Yields t rest.head? rest := by
  induction rest generalizing before with
  | nil => exact .done
  | cons entry rest ih =>
      have located : (H.entries t.map)[before.length]? = some entry := by simp [split]
      have next := iterable.next_entry located (passes entry (by simp [split]))
      have following : (H.entries t.map)[before.length + 1]? = rest.head? := by
        rw [split, List.getElem?_append_right (by omega)]
        simp [List.head?_eq_getElem?]
      rw [following] at next
      exact .step next (ih (before ++ [entry]) (by rw [split, List.append_assoc]; rfl))

-- behind any other key of the map the array part starts over
theorem Iterable.restarts (iterable : Iterable t) {entry : Option (Value × Value)} (member : (q, v) ∈ H.entries t.map)
    (stops : ¬ Passes t q) (next : t.next q = .ok entry) : t.next .nil = .ok entry := by
  obtain ⟨index, found⟩ : ∃ index, arrayIndex q = .ok index := by
    cases found : arrayIndex q with
    | error fault =>
        simp only [Table.next, found] at next
        cases next
    | ok index => exact ⟨index, rfl⟩
  have start : index.getD 0 = 0 := by
    by_contra positive
    obtain ⟨i, rfl⟩ : ∃ i, index = some i := by
      cases index with
      | none => exact absurd rfl positive
      | some i => exact ⟨i, rfl⟩
    have above := iterable.beyond _ member i found (Nat.pos_of_ne_zero positive)
    refine stops ⟨_, found, ?_⟩
    rw [Option.getD_some, List.drop_eq_nil_of_le (by omega)]
    rfl
  cases first : scan 0 t.array with
  | none => exact absurd ⟨_, found, by rw [start, List.drop_zero, first]⟩ stops
  | some entry' =>
      have nil : arrayIndex .nil = .ok none := rfl
      simp only [Table.next, found, start, List.drop_zero, first] at next
      simp only [Table.next, nil, Option.getD_none, List.drop_zero, first, next]

-- a key whose search starts over would be followed by everything again
theorem entries_of_yields (iterable : Iterable t) {visited : List (Value × Value)} (all : Visits t .nil visited)
    (rest before tail : List (Value × Value)) (split : H.entries t.map = before ++ rest)
    (yields : Yields t rest.head? tail) (short : tail.length ≤ visited.length) :
    tail = rest ∧ ∀ entry ∈ rest, Passes t entry.1 := by
  induction rest generalizing before tail with
  | nil =>
      cases yields
      exact ⟨rfl, by simp⟩
  | cons entry rest ih =>
      obtain ⟨q, v⟩ := entry
      cases yields with
      | @step _ _ entry tail next yields =>
          have member : (q, v) ∈ H.entries t.map := by simp [split]
          have located : (H.entries t.map)[before.length]? = some (q, v) := by simp [split]
          rw [List.length_cons] at short
          by_cases passes : Passes t q
          · have next' := iterable.next_entry located passes
            have following : (H.entries t.map)[before.length + 1]? = rest.head? := by
              rw [split, List.getElem?_append_right (by omega)]
              simp [List.head?_eq_getElem?]
            rw [next, following] at next'
            cases next'
            obtain ⟨rfl, later⟩ := ih (before ++ [(q, v)]) tail (by rw [split, List.append_assoc]; rfl) yields (by omega)
            refine ⟨rfl, ?_⟩
            intro other inside
            rcases List.mem_cons.mp inside with rfl | inside
            · exact passes
            · exact later other inside
          · obtain ⟨entry', begins, yields'⟩ := all
            rw [iterable.restarts member passes next] at begins
            cases begins
            rw [yields.unique yields'] at short
            omega

theorem Iterable.passes_iff (iterable : Iterable t) {entry : Value × Value} (member : entry ∈ H.entries t.map) :
    Passes t entry.1 ↔ Convertible entry.1 ∧
      ((∀ v ∈ t.array, v = .nil) ∨ ∃ i, 0 < i ∧ arrayIndex entry.1 = .ok (some i)) := by
  constructor
  · rintro ⟨index, found, none⟩
    refine ⟨?_, ?_⟩
    · intro n number
      by_contra outside
      rw [number, arrayIndex_panics outside] at found
      cases found
    · cases index with
      | none => exact .inl (scan_none.mp none)
      | some i =>
          rcases Nat.eq_zero_or_pos i with rfl | positive
          · exact .inl (scan_none.mp none)
          · exact .inr ⟨i, positive, found⟩
  · rintro ⟨convertible, empty | ⟨i, positive, found⟩⟩
    · obtain ⟨index, found⟩ := arrayIndex_ok convertible
      exact ⟨index, found, scan_none.mpr fun v member => empty v (List.mem_of_mem_drop member)⟩
    · have above := iterable.beyond entry member i found positive
      refine ⟨_, found, ?_⟩
      rw [Option.getD_some, List.drop_eq_nil_of_le (by omega)]
      rfl

/-! ## Complete iterations -/

-- an iteration ends only when it has passed all of the map
theorem visits_iff (iterable : Iterable t) {visited : List (Value × Value)} : Visits t .nil visited ↔
    visited = arrayEntries 0 t.array ++ H.entries t.map ∧ ∀ entry ∈ H.entries t.map, Passes t entry.1 := by
  have missing : H.getIndex t.map .nil = none := by
    cases located : H.getIndex t.map .nil with
    | none => rfl
    | some index =>
        obtain ⟨entry, here, same⟩ := H.sound _ _ _ located
        have notNil := (iterable.keys entry (List.mem_of_getElem? here)).2.1
        exact absurd (eq_nil same) notNil
  have parts := @visits_array _ _ _ iterable t.array 0 .nil none visited rfl rfl rfl missing
  constructor
  · intro all
    obtain ⟨tail, rfl, yields⟩ := parts.mp all
    obtain ⟨rfl, passes⟩ := entries_of_yields iterable all _ [] tail rfl yields (by simp)
    exact ⟨rfl, passes⟩
  · rintro ⟨rfl, passes⟩
    exact parts.mpr ⟨_, rfl, yields_entries iterable passes _ [] rfl⟩

theorem Iterable.valueOf_entry (iterable : Iterable t) {entry : Value × Value} (member : entry ∈ H.entries t.map)
    (convertible : Convertible entry.1) : t.valueOf entry.1 = .ok (some entry.2) := by
  obtain ⟨notNone, notNil, number⟩ := iterable.keys entry member
  obtain ⟨index, found⟩ := arrayIndex_ok convertible
  have outside : index.bind t.arrayGet = none := by
    cases inside : index.bind t.arrayGet with
    | none => rfl
    | some slot =>
        obtain ⟨i, rfl, inside⟩ := Option.bind_eq_some_iff.mp inside
        obtain ⟨positive, below, -⟩ := arrayGet_some inside
        have above := iterable.beyond entry member i found positive
        omega
  obtain ⟨i, located⟩ := List.mem_iff_getElem?.mp member
  have single : H.Single t.map entry.1 :=
    H.single_of_distinct (fun _ _ => keyEql_symm) (fun _ _ _ => keyEql_trans) iterable.distinct
  have here := H.getIndex_of_entry single (keyEql_refl notNone number) located
  rw [valueOf, get_eq notNone notNil found, outside]
  simp [mapGet, here, read, located]

theorem complete_entries (iterable : Iterable t) (some : ∀ entry ∈ H.entries t.map, entry.2 ≠ .nil)
    (convertible : ∀ entry ∈ H.entries t.map, Convertible entry.1) :
    Complete t (arrayEntries 0 t.array ++ H.entries t.map) where
  distinct := by
    have small := iterable.small
    refine List.pairwise_append.mpr ⟨?_, iterable.distinct, ?_⟩
    · refine (Object.Table.arrayEntries_ascending t.array 0).imp ?_
      rintro a b ⟨m, n, positive, less, below, first, second⟩
      by_contra same
      rw [first, second] at same
      have equal := (Object.Table.key_eql positive (by omega) (by omega) (by omega)).mp
        (Bool.eq_true_of_not_eq_false same)
      omega
    · intro a inside b member
      obtain ⟨j, located, -, name⟩ := Object.Table.mem_arrayEntries.mp inside
      have bound := (List.getElem?_eq_some_iff.mp located).1
      have apart := iterable.apart (i := 0 + j + 1) (by omega) (by omega) member
      rw [name]
      by_contra same
      rw [keyEql_symm (Bool.eq_true_of_not_eq_false same)] at apart
      cases apart
  present := by
    have small := iterable.small
    intro entry member
    rcases List.mem_append.mp member with inside | member
    · obtain ⟨j, located, value, name⟩ := Object.Table.mem_arrayEntries.mp inside
      have bound := (List.getElem?_eq_some_iff.mp located).1
      refine ⟨?_, value⟩
      rw [name, valueOf_key (by omega) (by omega), if_pos (by omega), List.getD_eq_getElem?_getD,
        show 0 + j + 1 - 1 = j by omega, located]
      rfl
    · exact ⟨iterable.valueOf_entry member (convertible entry member), some entry member⟩
  all := by
    intro q v value notNil
    unfold valueOf at value
    split at value
    · cases value
    · rename_i slot found
      cases slot with
      | none => cases value
      | some slot =>
          have value : t.read slot = v := Option.some.inj (Except.ok.inj value)
          rcases get_some found with ⟨index, number, positive, below, rfl⟩ | ⟨index, located, rfl⟩
          · have inside : index - 1 < t.array.length := by omega
            have located : t.array[index - 1]? = .some v := by
              rw [← value, read, List.getD_eq_getElem?_getD, List.getElem?_eq_getElem inside]
              rfl
            refine ⟨(key index, v), List.mem_append_left _ (Object.Table.mem_arrayEntries.mpr
              ⟨index - 1, located, notNil, ?_⟩), ?_, rfl⟩
            · show key index = key _
              congr 1
              omega
            · obtain ⟨n, rfl, same⟩ := arrayIndex_some number
              exact same
          · obtain ⟨entry, here, same⟩ := H.sound _ _ _ located
            refine ⟨entry, List.mem_append_right _ (List.mem_of_getElem? here), same, ?_⟩
            rw [← value, read, here]
            rfl

theorem complete_iff (iterable : Iterable t) : (∃ visited, Visits t .nil visited ∧ Complete t visited) ↔
    (∀ entry ∈ H.entries t.map, entry.2 ≠ .nil ∧ Convertible entry.1) ∧
      ((∀ v ∈ t.array, v = .nil) ∨ ∀ entry ∈ H.entries t.map, ∃ i, 0 < i ∧ arrayIndex entry.1 = .ok (some i)) := by
  constructor
  · rintro ⟨visited, visits, complete⟩
    obtain ⟨rfl, passes⟩ := (visits_iff iterable).mp visits
    refine ⟨?_, ?_⟩
    · intro entry member
      exact ⟨(complete.present entry (List.mem_append_right _ member)).2, ((iterable.passes_iff member).mp (passes entry member)).1⟩
    · by_cases empty : ∀ v ∈ t.array, v = .nil
      · exact .inl empty
      · refine .inr fun entry member => ?_
        exact ((iterable.passes_iff member).mp (passes entry member)).2.resolve_left empty
  · rintro ⟨entries, parts⟩
    refine ⟨_, (visits_iff iterable).mpr ⟨rfl, ?_⟩, complete_entries iterable (fun entry member => (entries entry member).1)
      fun entry member => (entries entry member).2⟩
    intro entry member
    refine (iterable.passes_iff member).mpr ⟨(entries entry member).2, ?_⟩
    exact parts.imp_right fun integers => integers entry member

theorem visits_complete_iff (wyhash : Wyhash) (H : ArrayHashMap Value Value (keyContext wyhash)) (t : Table H)
    (iterable : Iterable t) : (∃ visited, Visits t .nil visited ∧ Complete t visited) ↔
      (∀ entry ∈ H.entries t.map, entry.2 ≠ .nil ∧ Convertible entry.1) ∧
        ((∀ v ∈ t.array, v = .nil) ∨ ∀ entry ∈ H.entries t.map, ∃ i, 0 < i ∧ arrayIndex entry.1 = .ok (some i)) :=
  complete_iff iterable

-- the second quirk's table has integers only
theorem visits_complete_quirk : ∃ visited, Visits quirk .nil visited ∧ Complete quirk visited := by
  have five : arrayIndex (key 5) = .ok (some 5) := arrayIndex_key (by decide) (by decide)
  have entries (entry : Value × Value) (member : entry ∈ [(key 5, key 5)]) : entry = (key 5, key 5) :=
    List.mem_singleton.mp member
  have iterable : Iterable quirk := by
    refine ⟨List.pairwise_singleton _ _, ?_, ?_, by decide⟩
    · intro entry member
      rw [entries entry member]
      exact ⟨by simp [key], by simp [key], F64.floatFromInt_finite (by decide)⟩
    · intro entry member i found _
      rw [entries entry member, five] at found
      cases found
      decide
  refine (visits_complete_iff _ _ quirk iterable).mpr ⟨?_, .inr ?_⟩
  · intro entry member
    rw [entries entry member]
    refine ⟨by simp [key], ?_⟩
    rintro _ ⟨⟩
    decide
  · intro entry member
    rw [entries entry member]
    exact ⟨5, by decide, five⟩

-- a boolean behind an array part with a value
def mixed : Table (ArrayHashMap.linear Value Value (keyContext ⟨fun _ => 0, fun _ => 0⟩)) :=
  ⟨[.boolean true], ⟨[(.boolean true, .boolean true)], List.pairwise_singleton _ _⟩⟩

theorem visits_incomplete : Iterable mixed ∧ ¬ ∃ visited, Visits mixed .nil visited ∧ Complete mixed visited := by
  have entries (entry : Value × Value) (member : entry ∈ [(Value.boolean true, Value.boolean true)]) :
      entry = (.boolean true, .boolean true) := List.mem_singleton.mp member
  have iterable : Iterable mixed := by
    refine ⟨List.pairwise_singleton _ _, ?_, ?_, by decide⟩
    · intro entry member
      rw [entries entry member]
      exact ⟨by simp, by simp, rfl⟩
    · intro entry member i found _
      rw [entries entry member] at found
      cases found
  refine ⟨iterable, ?_⟩
  rw [complete_iff iterable]
  rintro ⟨-, empty | integers⟩
  · exact absurd (empty (.boolean true) List.mem_cons_self) (by simp)
  · obtain ⟨i, -, found⟩ := integers (.boolean true, .boolean true) List.mem_cons_self
    cases found

end Table

end Zua.Hybrid
