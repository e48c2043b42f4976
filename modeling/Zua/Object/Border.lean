import Zua.Object.Table

/-!
# The length of a table

`length` looks for the last value of the array part, and integer keys from 51 on are never there.
-/

namespace Zua.Object
open Value (keyContext)

-- an integer as a key
def key (i : Nat) : Value := .number (F64.floatFromInt i)

namespace Table

variable {H : HashMap Value Value keyContext} {k q v : Value} {n : Nat}

-- the loop of `length`, from the index `i` down
def lengthFrom (array : List Value) : Nat → Nat
  | 0 => 0
  | i + 1 => if array.getD i .nil ≠ .nil then i + 1 else lengthFrom array i

def length (self : Table H) : Nat := lengthFrom self.array self.array.length

theorem lengthFrom_le (array : List Value) (i : Nat) : lengthFrom array i ≤ i := by
  induction i with
  | zero => exact le_rfl
  | succ i ih =>
      unfold lengthFrom
      split
      · exact le_rfl
      · exact ih.trans (Nat.le_succ i)

theorem lengthFrom_some (array : List Value) (i : Nat) (h : 0 < lengthFrom array i) :
    array.getD (lengthFrom array i - 1) .nil ≠ .nil := by
  induction i with
  | zero => cases h
  | succ i ih =>
      unfold lengthFrom at h ⊢
      split
      · assumption
      · rename_i empty
        rw [if_neg empty] at h
        exact ih h

theorem lengthFrom_none {array : List Value} {i j : Nat} (above : lengthFrom array i ≤ j) (below : j < i) :
    array.getD j .nil = .nil := by
  induction i with
  | zero => cases below
  | succ i ih =>
      unfold lengthFrom at above
      split at above
      · omega
      · rename_i empty
        rcases Nat.lt_succ_iff_lt_or_eq.mp below with less | rfl
        · exact ih above less
        · exact not_not.mp empty

/-! ## Integer keys -/

theorem arrayIndex_key (positive : 0 < n) (small : n < 2 ^ 53) : arrayIndex (F64.floatFromInt n) = .ok (some n) := by
  have whole : (F64.floatFromInt n).eq (F64.floatFromInt n).trunc = true := by
    rw [F64.trunc_floatFromInt positive small]
    exact F64.eq_refl (F64.floatFromInt_finite (by omega))
  rw [arrayIndex, F64.one_le_floatFromInt positive small, whole, F64.toUsize_floatFromInt positive small]
  rfl

theorem slot_key (positive : 0 < n) (small : n < 2 ^ 53) : slot (key n) = if n ≤ 50 then some n else none := by
  simp only [slot, key, arrayIndex_key positive small, positive, true_and]

theorem key_usable (positive : 0 < n) (small : n < 2 ^ 53) : (key n).Usable where
  notNil := by simp [key]
  notNan := F64.floatFromInt_finite (by omega)
  small := by
    rintro _ ⟨⟩
    exact F64.floatFromInt_lt positive small

theorem key_eql {m : Nat} (positive : 0 < n) (small : n < 2 ^ 53) (positive' : 0 < m) (small' : m < 2 ^ 53) :
    (key n).eql (key m) = true ↔ n = m := by
  constructor
  · intro same
    have equal : F64.floatFromInt n = F64.floatFromInt m :=
      F64.eq_of_le_one (F64.one_le_floatFromInt positive small) same
    have index := F64.toUsize_floatFromInt positive small
    rw [equal, F64.toUsize_floatFromInt positive' small'] at index
    exact (Option.some.inj index).symm
  · rintro rfl
    exact F64.eq_refl (F64.floatFromInt_finite (by omega))

/-! ## The two parts -/

-- the first 50 integer keys are in the array part only
structure Parted (t : Table H) : Prop where
  short : t.array.length ≤ 50
  absent : ∀ k idx, slot k = some idx → H.ops.get t.map k = none

theorem Inv.parted {t : Table H} (inv : Inv t) : Parted t := ⟨inv.short, inv.absent⟩

theorem get_key_array {t : Table H} (parted : Parted t) (positive : 0 < n) (small : n ≤ 50) :
    t.get (key n) = .ok (t.array.getD (n - 1) .nil) := by
  have large : n < 2 ^ 53 := by omega
  have missing : t.mapGet (key n) = .nil :=
    mapGet_of_absent (parted.absent (key n) n (by rw [slot_key positive large, if_pos small]))
  have index := arrayIndex_key positive large
  unfold key at missing ⊢
  simp only [get, index, missing]
  by_cases inside : 0 < n ∧ n ≤ t.array.length
  · rw [if_pos inside]
    split
    · rfl
    · rename_i empty
      rw [not_not.mp empty]
  · rw [if_neg inside, List.getD_eq_getElem?_getD, List.getElem?_eq_none (by omega)]
    rfl

theorem length_le {t : Table H} (parted : Parted t) : t.length ≤ 50 := (lengthFrom_le _ _).trans parted.short

theorem get_length {t : Table H} (parted : Parted t) (positive : 0 < t.length) :
    t.get (key t.length) ≠ .ok .nil := by
  rw [get_key_array parted positive (length_le parted)]
  intro empty
  exact lengthFrom_some _ _ positive (Except.ok.inj empty)

-- no value of the array part is above the length
theorem get_above {t : Table H} (parted : Parted t) (above : t.length < n) (small : n ≤ 50) :
    t.get (key n) = .ok .nil := by
  rw [get_key_array parted (by omega) small]
  by_cases inside : n - 1 < t.array.length
  · rw [lengthFrom_none (show t.length ≤ n - 1 by omega) inside]
  · rw [List.getD_eq_getElem?_getD, List.getElem?_eq_none (by omega)]
    rfl

section Parts

variable {M : IteratedMap Value Value keyContext} {t t' : Table M.toHashMap}

theorem keyContext_coherent : keyContext.CoherentOn fun _ => True where
  symm _ _ _ _ := Value.eql_symm
  trans _ _ _ _ _ _ := Value.eql_trans
  hash_eq _ _ _ _ := Value.keyHash_eq

-- as `Inv`, but a key may also be no number
structure Divided (t : Table M.toHashMap) : Prop extends Parted t where
  built : M.ops.Built (fun _ => True) t.map

theorem set_ok (h : t.set k v = .ok t') :
    (∃ idx, slot k = some idx ∧ t' = t.arraySet idx v) ∨ slot k = none ∧ t' = t.mapSet k v := by
  cases k with
  | nil => cases h
  | number n =>
      unfold set at h
      cases index : arrayIndex n with
      | error fault =>
          simp only [index] at h
          cases h
      | ok found =>
          cases found with
          | none =>
              simp only [index] at h
              exact .inr ⟨by simp only [slot, index], (Except.ok.inj h).symm⟩
          | some idx =>
              simp only [index] at h
              by_cases small : 0 < idx ∧ idx ≤ 50
              · rw [if_pos small] at h
                exact .inl ⟨idx, by simp only [slot, index, if_pos small], (Except.ok.inj h).symm⟩
              · rw [if_neg small] at h
                exact .inr ⟨by simp only [slot, index, if_neg small], (Except.ok.inj h).symm⟩
  | _ => exact .inr ⟨rfl, (Except.ok.inj h).symm⟩

theorem divided_init : Divided (init M.toHashMap) where
  short := Nat.zero_le _
  built := .empty
  absent k _ _ := (M.coherent _ keyContext_coherent).get_empty k trivial

theorem Divided.mapSet (divided : Divided t) (none : slot k = none) : Divided (t.mapSet k v) := by
  have laws := M.coherent _ keyContext_coherent
  have other (q : Value) (idx : Nat) (some : slot q = some idx) : keyContext.eql k q = false := by
    by_contra same
    have equal := slot_eql (Value.eql_symm (Bool.eq_true_of_not_eq_false same)) some
    rw [← equal, some] at none
    cases none
  unfold Table.mapSet
  split
  · refine ⟨⟨divided.short, ?_⟩, .remove divided.built trivial⟩
    intro q idx some
    rw [laws.get_remove _ _ _ divided.built trivial trivial, other q idx some]
    exact divided.absent q idx some
  · refine ⟨⟨divided.short, ?_⟩, .put v divided.built trivial⟩
    intro q idx some
    rw [laws.get_put _ _ _ _ divided.built trivial trivial, other q idx some]
    exact divided.absent q idx some

theorem Divided.set (divided : Divided t) (h : t.set k v = .ok t') : Divided t' := by
  rcases set_ok h with ⟨idx, found, rfl⟩ | ⟨none, rfl⟩
  · obtain ⟨-, -, -, -, small⟩ := slot_some found
    have short := divided.short
    refine ⟨⟨?_, divided.absent⟩, divided.built⟩
    simp only [arraySet, List.length_set, List.length_append, List.length_replicate]
    omega
  · exact divided.mapSet none

theorem divided_setAll (sets : List (Value × Value)) (divided : Divided t) (h : t.setAll sets = .ok t') : Divided t' := by
  induction sets generalizing t with
  | nil =>
      cases h
      exact divided
  | cons entry sets ih =>
      unfold setAll at h
      split at h
      · cases h
      · rename_i step
        exact ih (divided.set step) h

/-! ## Borders -/

def IsBorder (t : Table H) (n : Nat) : Prop :=
  (n = 0 ∨ t.get (key n) ≠ .ok .nil) ∧ t.get (key (n + 1)) = .ok .nil

-- the keys with a value are the integers from 1 to `m`
def HoldsExactly (t : Table H) (m : Nat) : Prop :=
  ∀ q, q.Usable → (t.get q ≠ .ok .nil ↔ ∃ i, 0 < i ∧ i ≤ m ∧ q.eql (key i) = true)

theorem isBorder_iff (divided : Divided t) :
    t.IsBorder t.length ↔ t.get (key 50) = .ok .nil ∨ t.get (key 51) = .ok .nil := by
  have le := length_le divided.toParted
  constructor
  · rintro ⟨-, next⟩
    by_cases full : t.length = 50
    · rw [full] at next
      exact .inr next
    · exact .inl (get_above divided.toParted (by omega) le_rfl)
  · intro room
    constructor
    · rcases Nat.eq_zero_or_pos t.length with zero | positive
      · exact .inl zero
      · exact .inr (get_length divided.toParted positive)
    · by_cases full : t.length = 50
      · have last := get_length divided.toParted (by omega)
        rw [full] at last ⊢
        exact room.resolve_left last
      · exact get_above divided.toParted (by omega) (by omega)

theorem length_eq_iff {m : Nat} (divided : Divided t) (exact : t.HoldsExactly m) : t.length = m ↔ m ≤ 50 := by
  have le := length_le divided.toParted
  constructor
  · intro same
    omega
  · intro small
    have atLeast : m ≤ t.length := by
      rcases Nat.eq_zero_or_pos m with rfl | positive
      · exact Nat.zero_le _
      · have usable := key_usable positive (show m < 2 ^ 53 by omega)
        have held := (exact (key m) usable).mpr ⟨m, positive, le_rfl, Value.eql_refl usable.notNan⟩
        by_contra less
        exact held (get_above divided.toParted (by omega) small)
    rcases Nat.eq_zero_or_pos t.length with zero | positive
    · omega
    · obtain ⟨i, positive', atMost, same⟩ :=
        (exact _ (key_usable positive (by omega))).mp (get_length divided.toParted positive)
      have equal := (key_eql positive (by omega) positive' (by omega)).mp same
      omega

theorem length_border_iff (M : IteratedMap Value Value keyContext) (sets : List (Value × Value)) (t : Table M.toHashMap)
    (built : (init M.toHashMap).setAll sets = .ok t) :
    ((t.IsBorder t.length ∧ ∀ m, t.HoldsExactly m → t.length = m) ↔
      t.get (key 50) = .ok .nil ∨ t.get (key 51) = .ok .nil) ∧
    ∀ m, t.HoldsExactly m → (t.length = m ↔ m ≤ 50) := by
  have divided := divided_setAll sets divided_init built
  refine ⟨?_, fun m => length_eq_iff divided⟩
  rw [isBorder_iff divided]
  constructor
  · exact And.left
  · intro room
    refine ⟨room, ?_⟩
    intro m exact
    rw [length_eq_iff divided exact]
    by_contra large
    have held (i : Nat) (positive : 0 < i) (small : i ≤ 51) : t.get (key i) ≠ .ok .nil := by
      have usable := key_usable positive (show i < 2 ^ 53 by omega)
      exact (exact (key i) usable).mpr ⟨i, positive, by omega, Value.eql_refl usable.notNan⟩
    rcases room with empty | empty
    · exact held 50 (by decide) (by decide) empty
    · exact held 51 (by decide) (by decide) empty

end Parts

-- a table that is built from integer keys
theorem setAll_keys (M : IteratedMap Value Value keyContext) (sets : List (Nat × Value))
    (small : ∀ entry ∈ sets, 0 < entry.1 ∧ entry.1 < 2 ^ 53) :
    ∃ t, (init M.toHashMap).setAll (sets.map fun entry => (key entry.1, entry.2)) = .ok t ∧
      ∀ n, 0 < n → n < 2 ^ 53 →
        t.get (key n) = .ok (lastSet (sets.map fun entry => (key entry.1, entry.2)) (key n)) := by
  have usable : ∀ entry ∈ sets.map fun entry => (key entry.1, entry.2), entry.1.Usable := by
    intro entry member
    obtain ⟨original, inside, rfl⟩ := List.mem_map.mp member
    exact key_usable (small original inside).1 (small original inside).2
  obtain ⟨t, run, inv, found⟩ := setAll_lookup (H := M.toHashMap) _ usable
  refine ⟨t, run, ?_⟩
  intro n positive below
  rw [get_eq inv (key_usable positive below), found _ (key_usable positive below)]

-- the value at 51 is not seen
theorem length_no_border : ∃ t, (init (IteratedMap.entries Value Value keyContext).toHashMap).setAll
    [(key 50, .boolean true), (key 51, .boolean true)] = .ok t ∧ ¬ t.IsBorder t.length := by
  obtain ⟨t, run, found⟩ := setAll_keys (IteratedMap.entries Value Value keyContext)
    [(50, .boolean true), (51, .boolean true)] (by decide)
  refine ⟨t, run, ?_⟩
  rw [isBorder_iff (divided_setAll _ divided_init run), found 50 (by decide) (by decide), found 51 (by decide) (by decide)]
  decide +kernel

theorem length_border_short : ∃ t, (init (IteratedMap.entries Value Value keyContext).toHashMap).setAll
    [(key 1, .boolean true), (key 51, .boolean true)] = .ok t ∧ t.IsBorder t.length := by
  obtain ⟨t, run, found⟩ := setAll_keys (IteratedMap.entries Value Value keyContext)
    [(1, .boolean true), (51, .boolean true)] (by decide)
  have border := length_border_iff (IteratedMap.entries Value Value keyContext) _ t run
  refine ⟨t, run, (border.1.mpr (.inl ?_)).1⟩
  rw [found 50 (by decide) (by decide)]
  decide +kernel

end Table

end Zua.Object
