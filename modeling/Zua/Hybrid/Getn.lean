import Zua.Hybrid.Keys

/-!
# The length of the hybrid table

`getn` looks for a border by halving: in the array part when it ends in nil, and else in the map, between the last
two keys of a doubling probe. A probe that passes the 32-bit integers gives up and counts from 1.
-/

namespace Zua.Hybrid
open Object (Value key)

variable {wyhash : Wyhash}

namespace Table

variable {H : ArrayHashMap Value Value (keyContext wyhash)} {t : Table H} {i j n : Nat}

def item (self : Table H) (luaIndex : Nat) : Except Fault Value :=
  if luaIndex = 0 then .error .panic
  else
    match self.array[luaIndex - 1]? with
    | some value => .ok value
    | none => .error .panic

def arraySearch (self : Table H) (i j : Nat) : Except Fault Nat :=
  if 1 < j - i then
    match self.item ((i + j) / 2) with
    | .error fault => .error fault
    | .ok value =>
        if value = .nil then self.arraySearch i ((i + j) / 2) else self.arraySearch ((i + j) / 2) j
  else .ok i
termination_by j - i

-- `self.map.get` of an integer
def mapValue (self : Table H) (i : Nat) : Option Value := (self.mapGet (key i)).map self.read

def mapSearch (self : Table H) (last j : Nat) : Nat :=
  if 1 < j - last then
    if ((self.mapValue ((last + j) / 2)).getD .nil) ≠ .nil then self.mapSearch ((last + j) / 2) j
    else self.mapSearch last ((last + j) / 2)
  else last
termination_by j - last

def linearSearch (self : Table H) : Nat → Nat → Except Fault Nat
  | 0, _ => .error .timeout
  | fuel + 1, i =>
      match self.valueOf (key i) with
      | .error fault => .error fault
      | .ok value => if value.getD .nil ≠ .nil then self.linearSearch fuel (i + 1) else .ok (i - 1)

def maxInt32 : Nat := 2 ^ 31 - 1

def probe (self : Table H) : Nat → Nat → Nat → Except Fault Nat
  | 0, _, _ => .error .timeout
  | fuel + 1, last, j =>
      if (self.mapValue j).getD .nil ≠ .nil then
        if maxInt32 < j * 2 then self.linearSearch fuel 1 else self.probe fuel j (j * 2)
      else .ok (self.mapSearch last j)

-- the searches that end for another reason than a window have fuel
def getn (self : Table H) (fuel : Nat) : Except Fault Nat :=
  if 0 < self.array.length ∧ self.array[self.array.length - 1]? = some .nil then
    self.arraySearch 0 self.array.length
  else if (H.entries self.map).length = 0 then .ok self.array.length
  else self.probe fuel self.array.length (self.array.length + 1)

/-! ## Integer keys -/

def Held (t : Table H) (i : Nat) : Prop := ∃ v, t.valueOf (key i) = .ok (some v) ∧ v ≠ .nil

def Free (t : Table H) (i : Nat) : Prop := t.valueOf (key i) = .ok none ∨ t.valueOf (key i) = .ok (some .nil)

section Integers

variable (positive : 0 < i) (small : i < 2 ^ 53)

include positive small in
theorem arrayIndex_key : arrayIndex (key i) = .ok (some i) := by
  have finite := F64.floatFromInt_finite (show i < 2 ^ 64 by omega)
  simp only [arrayIndex, key, F64.intFromFloat_floatFromInt positive small, F64.eq_refl finite, if_true]

include positive small in
theorem valueOf_key : t.valueOf (key i) =
    .ok (if i ≤ t.array.length then some (t.array.getD (i - 1) .nil) else t.mapValue i) := by
  have found := get_eq (t := t) (k := key i) (by simp [key]) (by simp [key]) (arrayIndex_key positive small)
  rw [valueOf, found, Option.bind_some]
  by_cases inside : i ≤ t.array.length
  · simp [arrayGet, isLuaIndexInArrayBounds, inside, positive, read]
  · simp [arrayGet, isLuaIndexInArrayBounds, inside, mapValue]

include positive small in
theorem held_or_free : t.Held i ∨ t.Free i := by
  unfold Held Free
  rw [valueOf_key positive small]
  generalize (if i ≤ t.array.length then some (t.array.getD (i - 1) .nil) else t.mapValue i) = value
  cases value with
  | none => exact .inr (.inl rfl)
  | some v =>
      by_cases empty : v = .nil
      · exact .inr (.inr (by rw [empty]))
      · exact .inl ⟨v, rfl, empty⟩

include positive small in
theorem held_array {v : Value} (located : t.array[i - 1]? = some v) (some : v ≠ .nil) : t.Held i := by
  have inside := (List.getElem?_eq_some_iff.mp located).1
  refine ⟨v, ?_, some⟩
  rw [valueOf_key positive small, if_pos (by omega), List.getD_eq_getElem?_getD, located]
  rfl

include positive small in
theorem free_array (located : t.array[i - 1]? = some .nil) : t.Free i := by
  have inside := (List.getElem?_eq_some_iff.mp located).1
  refine .inr ?_
  rw [valueOf_key positive small, if_pos (by omega), List.getD_eq_getElem?_getD, located]
  rfl

variable (above : t.array.length < i)

include positive small above in
theorem held_map (some : (t.mapValue i).getD .nil ≠ .nil) : t.Held i := by
  cases found : t.mapValue i with
  | none =>
      rw [found] at some
      exact absurd rfl some
  | some v =>
      rw [found] at some
      refine ⟨v, ?_, some⟩
      rw [valueOf_key positive small, if_neg (by omega), found]

include positive small above in
theorem free_map (none : (t.mapValue i).getD .nil = .nil) : t.Free i := by
  unfold Free
  rw [valueOf_key positive small, if_neg (by omega)]
  cases found : t.mapValue i with
  | none => exact .inl rfl
  | some v =>
      rw [found] at none
      exact .inr (by rw [show v = .nil from none])

end Integers

def IsBorder (t : Table H) (n : Nat) : Prop := (n = 0 ∨ t.Held n) ∧ t.Free (n + 1)

/-! ## The searches -/

-- the value at `i` is not nil, unless it is 0, and the one at `j` is
theorem arraySearch_border (lower : i = 0 ∨ ∃ v, t.array[i - 1]? = some v ∧ v ≠ .nil) (less : i < j)
    (upper : t.array[j - 1]? = some .nil) : ∃ n, t.arraySearch i j = .ok n ∧ n < j ∧
      (n = 0 ∨ ∃ v, t.array[n - 1]? = some v ∧ v ≠ .nil) ∧ t.array[n]? = some .nil := by
  fun_induction arraySearch t i j with
  | case1 i j wide fault found =>
      have inside := (List.getElem?_eq_some_iff.mp upper).1
      rw [item, if_neg (by omega), List.getElem?_eq_getElem (by omega)] at found
      cases found
  | case2 i j wide found ih =>
      have inside := (List.getElem?_eq_some_iff.mp upper).1
      rw [item, if_neg (by omega), List.getElem?_eq_getElem (by omega)] at found
      obtain ⟨n, search, below, border⟩ := ih lower (by omega) (by
        rw [List.getElem?_eq_getElem (by omega), Except.ok.inj found])
      exact ⟨n, search, by omega, border⟩
  | case3 i j wide value found some ih =>
      have inside := (List.getElem?_eq_some_iff.mp upper).1
      rw [item, if_neg (by omega), List.getElem?_eq_getElem (by omega)] at found
      refine ih (.inr ⟨value, ?_, some⟩) (by omega) upper
      rw [List.getElem?_eq_getElem (by omega), Except.ok.inj found]
  | case4 i j narrow =>
      refine ⟨i, rfl, less, lower, ?_⟩
      rw [show i = j - 1 by omega]
      exact upper

theorem mapSearch_border (lower : i = 0 ∨ t.Held i) (above : t.array.length ≤ i) (less : i < j) (small : j < 2 ^ 53)
    (upper : t.Free j) : t.IsBorder (t.mapSearch i j) := by
  fun_induction mapSearch t i j with
  | case1 i j wide some ih =>
      exact ih (.inr (held_map (by omega) (by omega) (by omega) some)) (by omega) (by omega) small upper
  | case2 i j wide empty ih =>
      exact ih lower above (by omega) (by omega) (free_map (by omega) (by omega) (by omega) (not_not.mp empty))
  | case3 i j narrow =>
      refine ⟨lower, ?_⟩
      rw [show i + 1 = j by omega]
      exact upper

-- the integers with a value are counted by the places they are in
theorem held_bounded (small : n < 2 ^ 53) (held : ∀ i, 0 < i → i ≤ n → t.Held i) :
    n ≤ t.array.length + (H.entries t.map).length := by
  have located (i : Nat) (inside : i ∈ Finset.Ioc t.array.length n) : ∃ index entry,
      H.getIndex t.map (key i) = some index ∧ (H.entries t.map)[index]? = some entry ∧
        keyEql entry.1 (key i) = true := by
    obtain ⟨above, below⟩ := Finset.mem_Ioc.mp inside
    obtain ⟨v, value, -⟩ := held i (by omega) below
    rw [valueOf_key (by omega) (by omega), if_neg (by omega), mapValue, mapGet, Option.map_map] at value
    obtain ⟨index, found, -⟩ := Option.map_eq_some_iff.mp (Except.ok.inj value)
    obtain ⟨entry, here, same⟩ := H.sound _ _ _ found
    exact ⟨index, entry, found, here, same⟩
  have card := Finset.card_le_card_of_injOn (s := Finset.Ioc t.array.length n)
    (t := Finset.range (H.entries t.map).length) (fun i => (H.getIndex t.map (key i)).getD 0)
    (by
      intro i inside
      obtain ⟨index, entry, found, here, -⟩ := located i inside
      simp only [found, Option.getD_some]
      exact Finset.mem_coe.mpr (Finset.mem_range.mpr (List.getElem?_eq_some_iff.mp here).1))
    (by
      intro i inside i' inside' same
      obtain ⟨index, entry, found, here, equal⟩ := located i inside
      obtain ⟨index', entry', found', here', equal'⟩ := located i' inside'
      obtain ⟨above, below⟩ := Finset.mem_Ioc.mp inside
      obtain ⟨above', below'⟩ := Finset.mem_Ioc.mp inside'
      simp only [found, found', Option.getD_some] at same
      rw [same, here'] at here
      cases here
      have keys : keyEql (key i) (key i') = true := keyEql_trans (keyEql_symm equal) equal'
      exact (Object.Table.key_eql (by omega) (by omega) (by omega) (by omega)).mp keys)
  rw [Nat.card_Ioc, Finset.card_range] at card
  omega

-- the count ends behind the last place at the latest
theorem linearSearch_border (small : t.array.length + (H.entries t.map).length + 1 < 2 ^ 53) (fuel : Nat)
    (positive : 0 < i) (held : ∀ k, 0 < k → k < i → t.Held k) (below : i < 2 ^ 53)
    (enough : t.array.length + (H.entries t.map).length + 2 ≤ fuel + i) :
    ∃ n, t.linearSearch fuel i = .ok n ∧ t.IsBorder n := by
  have bounded := held_bounded (t := t) (n := i - 1) (by omega) (fun k some less => held k some (by omega))
  induction fuel generalizing i with
  | zero => omega
  | succ fuel ih =>
      rw [linearSearch]
      rcases held_or_free (t := t) positive below with here | here
      · obtain ⟨v, value, some⟩ := id here
        have rest (k : Nat) (some : 0 < k) (less : k < i + 1) : t.Held k := by
          rcases Nat.lt_succ_iff_lt_or_eq.mp less with less | rfl
          · exact held k some less
          · exact here
        have bounded' := held_bounded (t := t) below fun k some less => rest k some (by omega)
        simp only [value, Option.getD_some, ne_eq, some, not_false_iff, if_true]
        exact ih (by omega) rest (by omega) (by omega) bounded'
      · have none : ∃ value, t.valueOf (key i) = .ok value ∧ value.getD .nil = .nil := by
          rcases here with value | value
          · exact ⟨_, value, rfl⟩
          · exact ⟨_, value, rfl⟩
        obtain ⟨value, found, empty⟩ := none
        simp only [found, empty, ne_eq, not_true_eq_false, if_false]
        refine ⟨i - 1, rfl, ?_, ?_⟩
        · rcases Nat.eq_zero_or_pos (i - 1) with zero | some
          · exact .inl zero
          · exact .inr (held (i - 1) some (by omega))
        · rwa [show i - 1 + 1 = i by omega]

theorem probe_border (small : t.array.length + (H.entries t.map).length + 1 < 2 ^ 53) (steps fuel : Nat)
    (lower : i = 0 ∨ t.Held i) (above : t.array.length ≤ i) (less : i < j) (below : j < 2 ^ 53)
    (many : 2 ^ 31 ≤ j * 2 ^ steps) (enough : t.array.length + (H.entries t.map).length + 2 + steps ≤ fuel) :
    ∃ n, t.probe fuel i j = .ok n ∧ t.IsBorder n := by
  induction steps generalizing fuel i j with
  | zero =>
      obtain ⟨fuel, rfl⟩ : ∃ rest, fuel = rest + 1 := ⟨fuel - 1, by omega⟩
      rw [probe]
      split
      · rw [if_pos (by unfold maxInt32; omega)]
        exact linearSearch_border small fuel (by omega) (by omega) (by decide) (by omega)
      · rename_i empty
        exact ⟨_, rfl, mapSearch_border lower above less below (free_map (by omega) below (by omega) (not_not.mp empty))⟩
  | succ steps ih =>
      obtain ⟨fuel, rfl⟩ : ∃ rest, fuel = rest + 1 := ⟨fuel - 1, by omega⟩
      rw [probe]
      split
      · rename_i some
        split
        · exact linearSearch_border small fuel (by omega) (by omega) (by decide) (by omega)
        · rename_i room
          unfold maxInt32 at room
          have held := held_map (t := t) (by omega) below (by omega) some
          refine ih fuel (.inr held) (by omega) (by omega) (by omega) ?_ (by omega)
          calc 2 ^ 31 ≤ j * 2 ^ (steps + 1) := many
            _ = j * 2 * 2 ^ steps := by ring
      · rename_i empty
        exact ⟨_, rfl, mapSearch_border lower above less below (free_map (by omega) below (by omega) (not_not.mp empty))⟩

/-! ## Fuel -/

theorem linearSearch_more {fuel fuel' : Nat} (done : t.linearSearch fuel i = .ok n) (more : fuel ≤ fuel') :
    t.linearSearch fuel' i = .ok n := by
  induction fuel generalizing fuel' i with
  | zero => cases done
  | succ fuel ih =>
      obtain ⟨fuel', rfl⟩ : ∃ rest, fuel' = rest + 1 := ⟨fuel' - 1, by omega⟩
      rw [linearSearch] at done ⊢
      split
      · rename_i fault found
        simp only [found] at done
        cases done
      · rename_i value found
        simp only [found] at done
        split
        · rename_i some
          rw [if_pos some] at done
          exact ih done (by omega)
        · rename_i empty
          rwa [if_neg empty] at done

theorem probe_more {fuel fuel' : Nat} (done : t.probe fuel i j = .ok n) (more : fuel ≤ fuel') :
    t.probe fuel' i j = .ok n := by
  induction fuel generalizing fuel' i j with
  | zero => cases done
  | succ fuel ih =>
      obtain ⟨fuel', rfl⟩ : ∃ rest, fuel' = rest + 1 := ⟨fuel' - 1, by omega⟩
      rw [probe] at done ⊢
      split
      · rename_i some
        rw [if_pos some] at done
        split
        · rename_i large
          rw [if_pos large] at done
          exact linearSearch_more done (by omega)
        · rename_i room
          rw [if_neg room] at done
          exact ih done (by omega)
      · rename_i empty
        rwa [if_neg empty] at done

/-! ## The border -/

section Length

variable (small : t.array.length + (H.entries t.map).length + 1 < 2 ^ 53)

include small in
theorem getn_of_nil (positive : 0 < t.array.length) (last : t.array[t.array.length - 1]? = some .nil) :
    ∃ n, (∀ fuel, t.getn fuel = .ok n) ∧ t.IsBorder n ∧ n < t.array.length := by
  obtain ⟨n, search, below, lower, upper⟩ := arraySearch_border (.inl rfl) positive last
  refine ⟨n, ?_, ⟨?_, ?_⟩, below⟩
  · intro fuel
    rw [getn, if_pos ⟨positive, last⟩, search]
  · rcases lower with zero | ⟨v, located, value⟩
    · exact .inl zero
    · rcases Nat.eq_zero_or_pos n with zero | above
      · exact .inl zero
      · exact .inr (held_array above (by omega) located value)
  · exact free_array (by omega) (by omega) upper

include small in
theorem held_length (last : ¬ (0 < t.array.length ∧ t.array[t.array.length - 1]? = some .nil)) :
    t.array.length = 0 ∨ t.Held t.array.length := by
  rcases Nat.eq_zero_or_pos t.array.length with zero | positive
  · exact .inl zero
  · have located : t.array[t.array.length - 1]? = some t.array[t.array.length - 1] := List.getElem?_eq_getElem (by omega)
    refine .inr (held_array positive (by omega) located ?_)
    intro empty
    exact last ⟨positive, by rw [located, empty]⟩

include small in
theorem free_of_empty (none : (H.entries t.map).length = 0) : t.Free (t.array.length + 1) := by
  refine free_map (by omega) (by omega) (by omega) ?_
  unfold mapValue mapGet
  cases found : H.getIndex t.map (key (t.array.length + 1)) with
  | none => rfl
  | some index =>
      obtain ⟨entry, here, -⟩ := H.sound _ _ _ found
      have inside := (List.getElem?_eq_some_iff.mp here).1
      omega

include small in
theorem getn_of_value (last : ¬ (0 < t.array.length ∧ t.array[t.array.length - 1]? = some .nil)) :
    ∃ n, (∀ fuel, t.array.length + (H.entries t.map).length + 33 ≤ fuel → t.getn fuel = .ok n) ∧ t.IsBorder n := by
  have lower := held_length small last
  by_cases none : (H.entries t.map).length = 0
  · refine ⟨t.array.length, ?_, lower, free_of_empty small none⟩
    intro fuel _
    rw [getn, if_neg last, if_pos none]
  · obtain ⟨n, search, border⟩ := probe_border small 31 (t.array.length + (H.entries t.map).length + 33) lower le_rfl
      (Nat.lt_succ_self _) (by omega) (Nat.le_mul_of_pos_left _ (Nat.succ_pos _)) le_rfl
    refine ⟨n, ?_, border⟩
    intro fuel enough
    rw [getn, if_neg last, if_neg none]
    exact probe_more search enough

end Length

-- 2 to the 53 values do not fit in memory
theorem getn_border (wyhash : Wyhash) (H : ArrayHashMap Value Value (keyContext wyhash)) (t : Table H)
    (small : t.array.length + (H.entries t.map).length + 1 < 2 ^ 53) :
    ∃ n, (∀ fuel, t.array.length + (H.entries t.map).length + 33 ≤ fuel → t.getn fuel = .ok n) ∧
      ((n = 0 ∨ ∃ v, t.valueOf (key n) = .ok (some v) ∧ v ≠ .nil) ∧
        (t.valueOf (key (n + 1)) = .ok none ∨ t.valueOf (key (n + 1)) = .ok (some .nil))) ∧
      (t.array.getLast? = some .nil → n < t.array.length) := by
  rw [List.getLast?_eq_getElem?]
  by_cases last : 0 < t.array.length ∧ t.array[t.array.length - 1]? = some .nil
  · obtain ⟨n, search, border, below⟩ := getn_of_nil small last.1 last.2
    exact ⟨n, fun fuel _ => search fuel, border, fun _ => below⟩
  · obtain ⟨n, search, border⟩ := getn_of_value small last
    refine ⟨n, search, border, ?_⟩
    intro empty
    exact absurd ⟨by
      have inside := (List.getElem?_eq_some_iff.mp empty).1
      omega, empty⟩ last

-- the table of the second quirk: `{1, 2, nil, 4, 5}`, with the last value in the map
def quirk : Table (ArrayHashMap.linear Value Value (keyContext ⟨fun _ => 0, fun _ => 0⟩)) :=
  ⟨[key 1, key 2, .nil, key 4], ⟨[(key 5, key 5)], List.pairwise_singleton _ _⟩⟩

theorem getn_border_quirk : ∃ n, (∀ fuel, 38 ≤ fuel → quirk.getn fuel = .ok n) ∧
    ((n = 0 ∨ ∃ v, quirk.valueOf (key n) = .ok (some v) ∧ v ≠ .nil) ∧
      (quirk.valueOf (key (n + 1)) = .ok none ∨ quirk.valueOf (key (n + 1)) = .ok (some .nil))) ∧
    (quirk.array.getLast? = some .nil → n < quirk.array.length) :=
  getn_border _ _ quirk (by decide)

example : quirk.getn 38 = .ok 5 := by decide +kernel

end Table

end Zua.Hybrid
