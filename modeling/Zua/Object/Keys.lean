import Zua.Object.Next

/-!
# Numbers as keys

A number is looked up in the array part after it is converted to an index. The test in front of the conversion
lets every number from `2 ^ 64` on through, and keeps out NaN, which then becomes a key of the hash map.
-/

namespace Zua.Object
open Value (keyContext)

namespace Table

variable {M : IteratedMap Value Value keyContext} {t t' : Table M.toHashMap} {k q v : Value} {n : F64}

theorem number_usable (below : n.lt F64.twoPow64 = true) : (Value.number n).Usable where
  notNil := by simp
  notNan := F64.not_nan_of_lt below
  small := by
    rintro _ ⟨⟩
    exact below

theorem Divided.mapGet_mapSet (divided : Divided t) :
    (t.mapSet k v).mapGet q = if k.eql q then v else t.mapGet q := by
  have laws := M.coherent _ keyContext_coherent
  unfold Table.mapSet mapGet
  split
  · rename_i gone
    rw [laws.get_remove _ _ _ divided.built trivial trivial, gone]
    change (if k.eql q then none else M.ops.get t.map q).getD Value.nil = _
    split <;> rfl
  · rw [laws.get_put _ _ _ _ divided.built trivial trivial]
    change (if k.eql q then some v else M.ops.get t.map q).getD Value.nil = _
    split <;> rfl

/-! ## Numbers below `2 ^ 64` -/

theorem next_number (below : n.lt F64.twoPow64 = true) : ∃ entry, t.next (.number n) = .ok entry := by
  obtain ⟨index, found⟩ := arrayIndex_ok below
  have start : ∃ start, t.startIndex (.number n) = .ok start := by
    unfold startIndex
    simp only [found]
    cases index with
    | none => exact ⟨_, rfl⟩
    | some idx => exact ⟨_, rfl⟩
  obtain ⟨start, found⟩ := start
  unfold next
  simp only [found]
  split
  · exact ⟨_, rfl⟩
  · exact ⟨_, rfl⟩

theorem set_number (divided : Divided t) (below : n.lt F64.twoPow64 = true) (v : Value) :
    ∃ t', t.set (.number n) v = .ok t' ∧ t'.get (.number n) = .ok v := by
  have usable := number_usable below
  have same := Value.eql_refl usable.notNan
  have stored := set_eq (t := t) (v := v) usable
  refine ⟨_, stored, ?_⟩
  have divided' := divided.set stored
  rw [get_number divided'.short divided'.absent below]
  cases found : slot (.number n) with
  | some idx => simp only [lookup_arraySet found usable, same, if_true]
  | none => simp only [lookup, found, divided.mapGet_mapSet, same, if_true]

/-! ## The others -/

theorem arrayIndex_large (number : n.isNan = false) (large : n.lt F64.twoPow64 = false) :
    arrayIndex n = .error .panic := by
  obtain ⟨above, whole, outside⟩ := F64.toUsize_of_not_lt number large
  simp only [arrayIndex, above, whole, outside, Bool.and_self, if_true]

theorem arrayIndex_nan (nan : n.isNan = true) : arrayIndex n = .ok none := by
  simp [arrayIndex, F64.le, nan]

-- NaN is stored like any other key
theorem set_nan (nan : n.isNan = true) (v : Value) : t.set (.number n) v = .ok (t.mapSet (.number n) v) := by
  simp only [set, arrayIndex_nan nan]

structure SafeKey (t : Table M.toHashMap) (n : F64) : Prop where
  get : t.get (.number n) ≠ .error .panic
  set : ∀ v, t.set (.number n) v ≠ .error .panic
  next : t.next (.number n) ≠ .error .panic
  rejects : n.isNan = true → ∀ v t', t.set (.number n) v ≠ .ok t'
  stores : n.isNan = false → ∀ v, ∃ t', t.set (.number n) v = .ok t' ∧ t'.get (.number n) = .ok v

theorem Divided.safeKey_iff (divided : Divided t) : SafeKey t n ↔ n.lt F64.twoPow64 = true := by
  constructor
  · intro safe
    by_contra large
    have large := Bool.eq_false_of_not_eq_true large
    cases number : n.isNan with
    | true => exact safe.rejects number .nil _ (set_nan number .nil)
    | false =>
        apply safe.get
        simp only [Table.get, arrayIndex_large number large]
  · intro below
    have number := F64.not_nan_of_lt below
    obtain ⟨entry, next⟩ := next_number (t := t) below
    refine ⟨?_, ?_, ?_, ?_, ?_⟩
    · rw [get_number divided.short divided.absent below]
      simp
    · intro v
      obtain ⟨t', stored, -⟩ := set_number divided below v
      rw [stored]
      simp
    · rw [next]
      simp
    · intro nan
      rw [number] at nan
      cases nan
    · exact fun _ => set_number divided below

theorem number_keys_safe (M : IteratedMap Value Value keyContext) (sets : List (Value × Value)) (t : Table M.toHashMap)
    (built : (init M.toHashMap).setAll sets = .ok t) (n : F64) : SafeKey t n ↔ n.lt F64.twoPow64 = true :=
  (divided_setAll sets divided_init built).safeKey_iff

theorem number_keys_safe_one : SafeKey (init (IteratedMap.entries Value Value keyContext).toHashMap) F64.one :=
  (number_keys_safe _ [] _ rfl F64.one).mpr (by decide)

-- `2 ^ 64` and NaN
theorem number_keys_unsafe :
    ¬ SafeKey (init (IteratedMap.entries Value Value keyContext).toHashMap) F64.twoPow64 ∧
    ¬ SafeKey (init (IteratedMap.entries Value Value keyContext).toHashMap) F64.nan := by
  constructor
  · rw [divided_init.safeKey_iff]
    decide
  · rw [divided_init.safeKey_iff]
    decide

end Table

end Zua.Object
