import Zua.Object.Value

/-!
# Tables

`Table` of `object.zig` keeps the integer keys 1 to 50 in an array and everything else in a hash map.
The hash map is any one that is correct for a lawful context.
-/

namespace Zua.Object
open Value (keyContext NotNan)

inductive Fault
  | tableIndexIsNil
  | panic
  deriving DecidableEq, Repr

-- `n >= 1.0 and n == @trunc(n)`, then `@intFromFloat(n)`, which panics out of range
def arrayIndex (n : F64) : Except Fault (Option Nat) :=
  if F64.one.le n && n.eq n.trunc then
    match n.toUsize with
    | some idx => .ok (some idx)
    | none => .error .panic
  else .ok none

structure Table (H : HashMap Value Value keyContext) where
  array : List Value := []
  map : H.Map
  metatable : Option Addr := none

namespace Table

variable {H : HashMap Value Value keyContext}

def init (H : HashMap Value Value keyContext) : Table H := { map := H.ops.empty }

def mapGet (self : Table H) (key : Value) : Value := (H.ops.get self.map key).getD .nil

def get (self : Table H) (key : Value) : Except Fault Value :=
  match key with
  | .nil => .ok .nil
  | .number n =>
      match arrayIndex n with
      | .error fault => .error fault
      | .ok none => .ok (self.mapGet key)
      | .ok (some idx) =>
          if 0 < idx ∧ idx ≤ self.array.length then
            if self.array.getD (idx - 1) .nil ≠ .nil then .ok (self.array.getD (idx - 1) .nil)
            else .ok (self.mapGet key)
          else .ok (self.mapGet key)
  | key => .ok (self.mapGet key)

def mapSet (self : Table H) (key value : Value) : Table H :=
  if value = .nil then { self with map := H.ops.remove self.map key }
  else { self with map := H.ops.put self.map key value }

-- the array grows to hold the index
def arraySet (self : Table H) (idx : Nat) (value : Value) : Table H :=
  { self with
    array := (self.array ++ List.replicate (idx - self.array.length) Value.nil).set (idx - 1) value }

def set (self : Table H) (key value : Value) : Except Fault (Table H) :=
  match key with
  | .nil => .error .tableIndexIsNil
  | .number n =>
      match arrayIndex n with
      | .error fault => .error fault
      | .ok none => .ok (self.mapSet key value)
      | .ok (some idx) =>
          if 0 < idx ∧ idx ≤ 50 then .ok (self.arraySet idx value) else .ok (self.mapSet key value)
  | key => .ok (self.mapSet key value)

def setAll (self : Table H) : List (Value × Value) → Except Fault (Table H)
  | [] => .ok self
  | (key, value) :: sets =>
      match self.set key value with
      | .error fault => .error fault
      | .ok self => self.setAll sets

/-! ## Where a key lives -/

def slot : Value → Option Nat
  | .number n =>
      match arrayIndex n with
      | .ok (some idx) => if 0 < idx ∧ idx ≤ 50 then some idx else none
      | _ => none
  | _ => none

variable {k q v : Value}

theorem arrayIndex_ok {n : F64} (small : n.lt F64.twoPow64 = true) : ∃ idx, arrayIndex n = .ok idx := by
  unfold arrayIndex
  split
  · rename_i h
    rw [F64.toUsize_of_lt (Bool.and_eq_true_iff.mp h).1 small]
    exact ⟨_, rfl⟩
  · exact ⟨_, rfl⟩

theorem arrayIndex_some {n : F64} {idx : Nat} (h : arrayIndex n = .ok (some idx)) :
    F64.one.le n = true ∧ n.eq n.trunc = true ∧ n.toUsize = some idx := by
  unfold arrayIndex at h
  split at h
  · rename_i whole
    split at h
    · rename_i value
      cases h
      exact ⟨(Bool.and_eq_true_iff.mp whole).1, (Bool.and_eq_true_iff.mp whole).2, value⟩
    · contradiction
  · cases h

theorem slot_some {idx : Nat} (h : slot k = some idx) : ∃ n, k = .number n ∧
    arrayIndex n = .ok (some idx) ∧ 0 < idx ∧ idx ≤ 50 := by
  unfold slot at h
  split at h
  · split at h
    · split at h
      · cases h
        exact ⟨_, rfl, ‹_›, ‹_›⟩
      · contradiction
    · contradiction
  · contradiction

-- keys of one slot are the same number
theorem slot_inj {idx : Nat} (hk : slot k = some idx) (hq : slot q = some idx) : k = q := by
  obtain ⟨n, rfl, index, -⟩ := slot_some hk
  obtain ⟨m, rfl, index', -⟩ := slot_some hq
  obtain ⟨large, whole, value⟩ := arrayIndex_some index
  obtain ⟨large', whole', value'⟩ := arrayIndex_some index'
  rw [F64.eq_of_toUsize large large' whole whole' value value']

theorem slot_eql (h : k.eql q = true) {idx : Nat} (hk : slot k = some idx) : k = q := by
  obtain ⟨n, rfl, index, -⟩ := slot_some hk
  cases q <;> simp only [Value.eql, Bool.false_eq_true] at h
  case number m => rw [F64.eq_of_le_one (arrayIndex_some index).1 h]

/-! ## The invariant -/

structure Inv (t : Table H) : Prop where
  short : t.array.length ≤ 50
  built : H.ops.Built NotNan t.map
  absent : ∀ k idx, slot k = some idx → H.ops.get t.map k = none

def lookup (t : Table H) (q : Value) : Value :=
  match slot q with
  | some idx => t.array.getD (idx - 1) .nil
  | none => t.mapGet q

theorem mapGet_of_absent {t : Table H} (h : H.ops.get t.map q = none) : t.mapGet q = .nil := by
  rw [mapGet, h]
  rfl

theorem get_number {t : Table H} {n : F64} (short : t.array.length ≤ 50)
    (absent : ∀ k idx, slot k = some idx → H.ops.get t.map k = none) (below : n.lt F64.twoPow64 = true) :
    t.get (.number n) = .ok (t.lookup (.number n)) := by
  obtain ⟨index, hi⟩ := arrayIndex_ok below
  cases index with
  | none => simp only [get, lookup, slot, hi]
  | some idx =>
      simp only [get, lookup, slot, hi]
      by_cases small : 0 < idx ∧ idx ≤ 50
      · have none : t.mapGet (.number n) = .nil :=
          mapGet_of_absent (absent _ idx (by simp only [slot, hi, if_pos small]))
        simp only [if_pos small, none]
        split
        · split
          · rfl
          · rename_i empty
            rw [not_not.mp empty]
        · rename_i outside
          rw [List.getD_eq_getElem?_getD, List.getElem?_eq_none (by omega)]
          rfl
      · rw [if_neg small, if_neg (by omega)]

theorem get_eq {t : Table H} (inv : Inv t) (usable : q.Usable) : t.get q = .ok (t.lookup q) := by
  cases q with
  | nil => exact absurd rfl usable.notNil
  | number n => exact get_number inv.short inv.absent (usable.small n rfl)
  | _ => rfl

theorem set_eq {t : Table H} (usable : k.Usable) : t.set k v = .ok (match slot k with
    | some idx => t.arraySet idx v
    | none => t.mapSet k v) := by
  cases k with
  | nil => exact absurd rfl usable.notNil
  | number n =>
      obtain ⟨index, hi⟩ := arrayIndex_ok (usable.small n rfl)
      cases index with
      | none => simp only [set, slot, hi]
      | some idx =>
          simp only [set, slot, hi]
          split <;> rfl
  | _ => rfl

theorem getD_arraySet {t : Table H} {idx i : Nat} (hidx : 0 < idx) (hi : 0 < i) :
    (t.arraySet idx v).array.getD (i - 1) .nil = if idx = i then v else t.array.getD (i - 1) .nil := by
  unfold arraySet
  simp only [List.getD_eq_getElem?_getD, List.getElem?_set]
  by_cases same : idx = i
  · subst same
    have room : idx - 1 < t.array.length + (idx - t.array.length) := by omega
    simp [room]
  · rw [if_neg same, if_neg (by omega)]
    by_cases inside : i - 1 < t.array.length
    · rw [List.getElem?_append_left inside]
    · rw [List.getElem?_append_right (by omega), List.getElem?_replicate,
        List.getElem?_eq_none (by omega)]
      split <;> rfl

theorem lookup_arraySet {t : Table H} {idx : Nat} (hk : slot k = some idx) (usable : k.Usable) :
    (t.arraySet idx v).lookup q = if k.eql q then v else t.lookup q := by
  obtain ⟨-, -, -, positive, -⟩ := slot_some hk
  unfold lookup
  cases hq : slot q with
  | none =>
      have different : k.eql q = false := by
        by_contra same
        rw [slot_eql (by simpa using same) hk, hq] at hk
        contradiction
      rw [different]
      rfl
  | some i =>
      obtain ⟨-, -, -, positive', -⟩ := slot_some hq
      simp only [getD_arraySet positive positive']
      by_cases same : idx = i
      · obtain rfl := slot_inj hk (same ▸ hq)
        rw [if_pos same, if_pos (Value.eql_refl usable.notNan)]
      · have different : k.eql q = false := by
          by_contra equal
          rw [slot_eql (by simpa using equal) hk, hq] at hk
          exact same (Option.some.inj hk).symm
        rw [if_neg same, different]
        rfl

theorem mapGet_mapSet {t : Table H} (inv : Inv t) (usable : k.Usable) (usable' : q.Usable) :
    (t.mapSet k v).mapGet q = if k.eql q then v else t.mapGet q := by
  have laws := H.correct NotNan Value.keyContext_lawful
  unfold mapSet mapGet
  split
  · rename_i gone
    rw [laws.get_remove _ _ _ inv.built usable.notNan usable'.notNan, gone]
    change (if k.eql q then none else H.ops.get t.map q).getD Value.nil = _
    split <;> rfl
  · rw [laws.get_put _ _ _ _ inv.built usable.notNan usable'.notNan]
    change (if k.eql q then some v else H.ops.get t.map q).getD Value.nil = _
    split <;> rfl

theorem lookup_mapSet {t : Table H} (inv : Inv t) (hk : slot k = none) (usable : k.Usable)
    (usable' : q.Usable) : (t.mapSet k v).lookup q = if k.eql q then v else t.lookup q := by
  unfold lookup
  cases hq : slot q with
  | none => exact mapGet_mapSet inv usable usable'
  | some idx =>
      have different : k.eql q = false := by
        by_contra same
        have equal := slot_eql (Value.eql_symm (by simpa using same)) hq
        rw [← equal, hq] at hk
        contradiction
      have array : (t.mapSet k v).array = t.array := by
        unfold mapSet
        split <;> rfl
      simp [different, array]

theorem inv_init : Inv (init H) where
  short := Nat.zero_le _
  built := .empty
  absent k idx hk := by
    obtain ⟨n, rfl, index, -⟩ := slot_some hk
    have number := (F64.le_one (arrayIndex_some index).1).1
    exact (H.correct NotNan Value.keyContext_lawful).get_empty _ number

theorem inv_arraySet {t : Table H} (inv : Inv t) {idx : Nat} (small : idx ≤ 50) :
    Inv (t.arraySet idx v) where
  short := by
    have := inv.short
    simp only [arraySet, List.length_set, List.length_append, List.length_replicate]
    omega
  built := inv.built
  absent := inv.absent

theorem inv_mapSet {t : Table H} (inv : Inv t) (hk : slot k = none) (usable : k.Usable) :
    Inv (t.mapSet k v) := by
  have laws := H.correct NotNan Value.keyContext_lawful
  have missing (q : Value) (idx : Nat) (hq : slot q = some idx) : keyContext.eql k q = false ∧ q.NotNan := by
    obtain ⟨n, rfl, index, -⟩ := slot_some hq
    refine ⟨?_, (F64.le_one (arrayIndex_some index).1).1⟩
    change k.eql (.number n) = false
    by_contra same
    have equal := slot_eql (Value.eql_symm (by simpa using same)) hq
    rw [← equal, hq] at hk
    contradiction
  unfold mapSet
  split
  · refine ⟨inv.short, .remove inv.built usable.notNan, ?_⟩
    intro q idx hq
    rw [laws.get_remove _ _ _ inv.built usable.notNan (missing q idx hq).2, (missing q idx hq).1]
    exact inv.absent q idx hq
  · refine ⟨inv.short, .put v inv.built usable.notNan, ?_⟩
    intro q idx hq
    rw [laws.get_put _ _ _ _ inv.built usable.notNan (missing q idx hq).2, (missing q idx hq).1]
    exact inv.absent q idx hq

-- one call of `set` keeps the invariant and changes one key
theorem set_lookup {t : Table H} (inv : Inv t) (usable : k.Usable) : ∃ t', t.set k v = .ok t' ∧ Inv t' ∧
    ∀ q, q.Usable → t'.lookup q = if k.eql q then v else t.lookup q := by
  refine ⟨_, set_eq usable, ?_⟩
  cases hk : slot k with
  | some idx =>
      obtain ⟨-, -, -, -, small⟩ := slot_some hk
      exact ⟨inv_arraySet inv small, fun q _ => lookup_arraySet hk usable⟩
  | none => exact ⟨inv_mapSet inv hk usable, fun q usable' => lookup_mapSet inv hk usable usable'⟩

/-! ## The finite map -/

-- the value of the last set of a key equal to `q`
def lastSet (sets : List (Value × Value)) (q : Value) : Value :=
  match sets.reverse.find? (fun entry => entry.1.eql q) with
  | some entry => entry.2
  | none => .nil

theorem lastSet_append (sets : List (Value × Value)) (k v q : Value) :
    lastSet (sets ++ [(k, v)]) q = if k.eql q then v else lastSet sets q := by
  unfold lastSet
  rw [List.reverse_append, List.reverse_singleton, List.singleton_append, List.find?_cons]
  cases k.eql q <;> rfl

theorem setAll_append (t : Table H) (sets : List (Value × Value)) (k v : Value) :
    t.setAll (sets ++ [(k, v)]) = match t.setAll sets with
      | .error fault => .error fault
      | .ok t' => t'.set k v := by
  induction sets generalizing t with
  | nil =>
      simp only [List.nil_append, setAll]
      cases t.set k v <;> rfl
  | cons entry sets ih =>
      obtain ⟨key, value⟩ := entry
      simp only [List.cons_append, setAll]
      cases h : t.set key value with
      | error fault => rfl
      | ok t' => exact ih t'

theorem setAll_lookup (sets : List (Value × Value)) (usable : ∀ entry ∈ sets, entry.1.Usable) :
    ∃ t, (init H).setAll sets = .ok t ∧ Inv t ∧ ∀ q, q.Usable → t.lookup q = lastSet sets q := by
  induction sets using List.reverseRecOn with
  | nil =>
      refine ⟨init H, rfl, inv_init, ?_⟩
      intro q usable'
      unfold lookup
      cases hq : slot q with
      | some idx => simp [init, lastSet]
      | none =>
          have none := (H.correct NotNan Value.keyContext_lawful).get_empty q usable'.notNan
          rw [mapGet_of_absent none]
          rfl
  | append_singleton sets entry ih =>
      obtain ⟨key, value⟩ := entry
      obtain ⟨t, run, inv, found⟩ := ih (fun other member => usable other (by simp [member]))
      obtain ⟨t', step, inv', changed⟩ := set_lookup (v := value) inv (usable (key, value) (by simp))
      refine ⟨t', ?_, inv', ?_⟩
      · rw [setAll_append, run]
        exact step
      · intro q usable'
        rw [changed q usable', found q usable', lastSet_append]

/-- After any sets with usable keys, `get` finds the value of the last set of an equal key, and one
more set changes no other key. -/
theorem table_refines_map (H : HashMap Value Value keyContext) (sets : List (Value × Value))
    (usable : ∀ entry ∈ sets, entry.1.Usable) :
    keyContext.LawfulOn NotNan ∧ ∃ t, (init H).setAll sets = .ok t ∧
      (∀ q, q.Usable → t.get q = .ok (lastSet sets q)) ∧
      ∀ k v, k.Usable → ∃ t', t.set k v = .ok t' ∧
        ∀ q, q.Usable → k.eql q = false → t'.get q = t.get q := by
  obtain ⟨t, run, inv, found⟩ := @setAll_lookup H sets usable
  refine ⟨Value.keyContext_lawful, t, run, ?_, ?_⟩
  · intro q usable'
    rw [get_eq inv usable', found q usable']
  · intro k v usable'
    obtain ⟨t', step, inv', changed⟩ := set_lookup (v := v) inv usable'
    refine ⟨t', step, ?_⟩
    intro q usable'' different
    rw [get_eq inv' usable'', get_eq inv usable'', changed q usable'', different]
    rfl

theorem table_refines_map_sample :
    let one : Value := .number F64.one
    let key : Value := .string ⟨1, 7, [97]⟩
    let same : Value := .string ⟨2, 7, [97]⟩
    ∃ t, (init (HashMap.entries Value Value keyContext)).setAll [(one, .boolean true), (key, one),
      (one, .nil)] = .ok t ∧ t.get same = .ok one ∧ t.get one = .ok .nil := by
  intro one key same
  have oneUsable : one.Usable := by
    refine ⟨by decide, show F64.one.isNan = false by decide, ?_⟩
    intro n h
    rw [← Value.number.inj h]
    decide
  have stringUsable (s : Str) : (Value.string s).Usable := by
    refine ⟨by simp, trivial, ?_⟩
    intro n h
    cases h
  obtain ⟨-, t, run, found, -⟩ := table_refines_map (HashMap.entries Value Value keyContext)
    [(one, .boolean true), (key, one), (one, .nil)] (by
      intro entry member
      simp only [List.mem_cons, List.not_mem_nil, or_false] at member
      rcases member with rfl | rfl | rfl
      · exact oneUsable
      · exact stringUsable _
      · exact oneUsable)
  refine ⟨t, run, ?_, ?_⟩
  · rw [found same (stringUsable _)]
    decide
  · rw [found one oneUsable]
    decide

end Table

end Zua.Object
