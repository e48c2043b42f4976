import Zua.Hybrid.Table

/-!
# Keys of the hybrid table

A number is converted to an index before any other test of the key.
-/

namespace Zua.Hybrid
open Object (Value)

variable {wyhash : Wyhash}

namespace Table

variable {H : ArrayHashMap Value Value (keyContext wyhash)} {t t' : Table H} {k q : Value} {n : F64}

/-! ## Numbers that can be converted -/

theorem arrayIndex_number (inside : F64.minusOne.lt n = true ∧ n.lt F64.twoPow64 = true) :
    ∃ index, arrayIndex (.number n) = .ok index := by
  obtain ⟨index, converted⟩ := Option.isSome_iff_exists.mp (F64.intFromFloat_isSome.mpr inside)
  exact ⟨_, by rw [arrayIndex, converted]⟩

theorem arrayIndex_panics (outside : ¬ (F64.minusOne.lt n = true ∧ n.lt F64.twoPow64 = true)) :
    arrayIndex (.number n) = .error .panic := by
  have failed : n.intFromFloat = none := by
    rw [← Option.not_isSome_iff_eq_none, F64.intFromFloat_isSome]
    exact outside
  rw [arrayIndex, failed]

-- what the conversion of a number asks for
def Convertible (k : Value) : Prop := ∀ n, k = .number n → F64.minusOne.lt n = true ∧ n.lt F64.twoPow64 = true

theorem arrayIndex_ok (convertible : Convertible k) : ∃ index, arrayIndex k = .ok index := by
  cases k with
  | number n => exact arrayIndex_number (convertible n rfl)
  | _ => exact ⟨none, rfl⟩

theorem arrayIndex_some {index : Nat} (h : arrayIndex k = .ok (some index)) :
    ∃ n, k = .number n ∧ (F64.floatFromInt index).eq n = true := by
  cases k with
  | number n =>
      refine ⟨n, rfl, ?_⟩
      unfold arrayIndex at h
      cases converted : n.intFromFloat with
      | none =>
          simp only [converted] at h
          cases h
      | some i =>
          simp only [converted] at h
          by_cases same : (F64.floatFromInt i).eq n = true
          · rw [if_pos same] at h
            cases h
            exact same
          · rw [if_neg same] at h
            cases h
  | _ => cases h

theorem get_panics (outside : ¬ Convertible k) : t.get k = .error .panic := by
  unfold Convertible at outside
  push Not at outside
  obtain ⟨n, rfl, outside⟩ := outside
  simp only [get, arrayIndex_panics (not_and.mpr fun above below => outside above below)]

-- the array part comes first
theorem get_eq (notNone : k ≠ .none) (notNil : k ≠ .nil) {index : Option Nat} (found : arrayIndex k = .ok index) :
    t.get k = .ok (match index.bind t.arrayGet with
      | some slot => some slot
      | none => t.mapGet k) := by
  cases k with
  | none => exact absurd rfl notNone
  | nil => exact absurd rfl notNil
  | number n =>
      simp only [get, found]
      cases index with
      | none => rfl
      | some index =>
          show (match t.arrayGet index with
            | some slot => Except.ok (some slot)
            | none => Except.ok (t.mapGet (.number n))) = _
          rw [Option.bind_some]
          cases t.arrayGet index <;> rfl
  | _ =>
      cases found
      rfl

theorem get_ok (notNone : k ≠ .none) (convertible : Convertible k) : ∃ slot, t.get k = .ok slot := by
  by_cases notNil : k = .nil
  · subst notNil
    exact ⟨none, rfl⟩
  · obtain ⟨index, found⟩ := arrayIndex_ok convertible
    exact ⟨_, get_eq notNone notNil found⟩

theorem arrayGet_some {index : Nat} {slot : Slot} (h : t.arrayGet index = some slot) :
    0 < index ∧ index ≤ t.array.length ∧ slot = .array (index - 1) := by
  unfold arrayGet isLuaIndexInArrayBounds at h
  split at h
  · rename_i bounds
    rw [Bool.and_eq_true, decide_eq_true_eq, decide_eq_true_eq] at bounds
    exact ⟨bounds.1, bounds.2, (Option.some.inj h).symm⟩
  · cases h

-- a value is in the array part or in the map
theorem get_some {slot : Slot} (h : t.get q = .ok (some slot)) :
    (∃ index, arrayIndex q = .ok (some index) ∧ 0 < index ∧ index ≤ t.array.length ∧ slot = .array (index - 1)) ∨
    ∃ index, H.getIndex t.map q = some index ∧ slot = .map index := by
  have notNone : q ≠ .none := by
    rintro rfl
    cases h
  have notNil : q ≠ .nil := by
    rintro rfl
    cases h
  have convertible : Convertible q := by
    by_contra outside
    rw [get_panics outside] at h
    cases h
  obtain ⟨index, found⟩ := arrayIndex_ok convertible
  rw [get_eq notNone notNil found] at h
  cases inside : index.bind t.arrayGet with
  | some other =>
      rw [inside] at h
      cases h
      obtain ⟨index, rfl, inside⟩ := Option.bind_eq_some_iff.mp inside
      obtain ⟨positive, below, same⟩ := arrayGet_some inside
      exact .inl ⟨index, found, positive, below, same⟩
  | none =>
      rw [inside] at h
      obtain ⟨index, located, same⟩ := Option.map_eq_some_iff.mp (Except.ok.inj h)
      exact .inr ⟨index, located, same.symm⟩

/-! ## A new entry -/

def created (t : Table H) (k : Value) : Table H := { t with map := (H.getOrPutValue t.map k .nil).1 }

theorem mapGet_created (hashed : H.Hashed t.map q) (other : keyEql k q = false) :
    (t.created k).mapGet q = t.mapGet q := by
  have single := H.single_of_hashed (fun _ _ => keyEql_symm) (fun _ _ _ => keyEql_trans) hashed
  have same : H.getIndex (H.getOrPutValue t.map k .nil).1 q = H.getIndex t.map q :=
    H.getIndex_getOrPutValue single hashed other
  rw [mapGet, mapGet, created, same]

theorem get_created (hashed : H.Hashed t.map q) (other : keyEql k q = false) : (t.created k).get q = t.get q := by
  have same := mapGet_created hashed other
  cases q with
  | number n =>
      unfold get
      rw [same]
      rfl
  | none => rfl
  | nil => rfl
  | _ => exact congrArg Except.ok same

-- what a lookup finds is in front of the new entry
theorem read_created {slot : Slot} (found : t.get q = .ok (some slot)) : (t.created k).read slot = t.read slot := by
  rcases get_some found with ⟨index, -, -, -, rfl⟩ | ⟨index, located, rfl⟩
  · rfl
  · obtain ⟨entry, here, -⟩ := H.sound _ _ _ located
    have inside := (List.getElem?_eq_some_iff.mp here).1
    unfold read created
    rcases H.kept t.map k .nil with entries | entries
    · simp only [entries]
    · simp only [entries, List.getElem?_append_left inside]

theorem valueOf_created (hashed : H.Hashed t.map q) (other : keyEql k q = false) :
    (t.created k).valueOf q = t.valueOf q := by
  unfold valueOf
  rw [get_created hashed other]
  cases found : t.get q with
  | error fault => rfl
  | ok slot =>
      cases slot with
      | none => rfl
      | some slot => exact congrArg (fun v => Except.ok (some v)) (read_created found)

/-! ## Every key but `none` -/

-- another key is one that the map can tell by its hash: of the two zeros, the one that is stored
structure Answers (t : Table H) (k : Value) : Prop where
  nil : k = .nil → t.getOrCreate k = .error .tableIndexIsNil
  nan : isNan k = true → t.getOrCreate k = .error .tableIndexIsNan
  converts : t.get k ≠ .error .panic ∧ t.getOrCreate k ≠ .error .panic
  slot : k ≠ .nil → isNan k = false → ∃ t' slot, t.getOrCreate k = .ok (t', slot) ∧ t'.get k = .ok (some slot) ∧
    ∀ q, H.Hashed t.map q → keyEql k q = false → t'.valueOf q = t.valueOf q

theorem convertible_number (convertible : Convertible k) : isNan k = false := by
  cases k with
  | number n => exact F64.not_nan_of_lt (convertible n rfl).2
  | _ => rfl

theorem getOrCreate_new (notNone : k ≠ .none) (notNil : k ≠ .nil) (convertible : Convertible k)
    (missing : t.get k = .ok none) : ∃ slot, t.getOrCreate k = .ok (t.created k, slot) ∧
      (t.created k).get k = .ok (some slot) := by
  have number := convertible_number convertible
  have stored : t.getOrCreate k = .ok (t.created k, .map (H.getOrPutValue t.map k .nil).2) := by
    simp only [getOrCreate, missing, if_neg notNil, number, Bool.false_eq_true, if_false]
    rfl
  obtain ⟨index, found⟩ := arrayIndex_ok convertible
  have outside : index.bind t.arrayGet = none := by
    rw [get_eq notNone notNil found] at missing
    cases inside : index.bind t.arrayGet with
    | none => rfl
    | some slot =>
        rw [inside] at missing
        cases missing
  have put : H.getIndex (H.getOrPutValue t.map k .nil).1 k = some (H.getOrPutValue t.map k .nil).2 :=
    H.put _ _ _ (keyEql_refl notNone number)
  refine ⟨_, stored, ?_⟩
  rw [get_eq notNone notNil found, show index.bind (t.created k).arrayGet = none from outside]
  show Except.ok ((t.created k).mapGet k) = _
  rw [mapGet, show H.getIndex (t.created k).map k = _ from put]
  rfl

theorem answers_of_convertible (notNone : k ≠ .none) (convertible : Convertible k) : Answers t k := by
  have number := convertible_number convertible
  obtain ⟨slot, found⟩ := get_ok (t := t) notNone convertible
  by_cases notNil : k = .nil
  · subst notNil
    have rejected : t.getOrCreate .nil = .error .tableIndexIsNil := rfl
    refine ⟨fun _ => rejected, fun nan => ?_, ?_, fun some => absurd rfl some⟩
    · cases nan
    · rw [found, rejected]
      exact ⟨by simp, by simp⟩
  · have result : ∃ t' slot, t.getOrCreate k = .ok (t', slot) ∧ t'.get k = .ok (some slot) ∧
        ∀ q, H.Hashed t.map q → keyEql k q = false → t'.valueOf q = t.valueOf q := by
      cases slot with
      | some slot =>
          refine ⟨t, slot, ?_, found, fun _ _ _ => rfl⟩
          simp only [getOrCreate, found]
      | none =>
          obtain ⟨slot, stored, here⟩ := getOrCreate_new notNone notNil convertible found
          exact ⟨_, slot, stored, here, fun _ => valueOf_created⟩
    obtain ⟨t', slot', stored, -⟩ := id result
    refine ⟨fun nil => absurd nil notNil, fun nan => ?_, ?_, fun _ _ => result⟩
    · rw [number] at nan
      cases nan
    · rw [found, stored]
      exact ⟨by simp, by simp⟩

theorem answers_iff (notNone : k ≠ .none) : Answers t k ↔ Convertible k := by
  constructor
  · intro answers
    by_contra outside
    exact answers.converts.1 (get_panics outside)
  · exact answers_of_convertible notNone

def emptyTable : Table (ArrayHashMap.linear Value Value (keyContext ⟨fun _ => 0, fun _ => 0⟩)) :=
  ⟨[], ⟨[], .nil⟩⟩

end Table

end Zua.Hybrid
