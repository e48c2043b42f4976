import Zua.Base.HashMap
import Zua.Compile.Checked

/-!
# The constant table

`putConstant` of `compiler.zig`. The constants of a function are numbered in a list, and a hash map finds
the number of a constant that is there already. Both are written by one call but in two steps, and a string
that comes from the source text is duplicated first.
-/

namespace Zua.Compile
open Code
open Memory (Constant)

-- where the bytes of a string lie: in the source text, or in memory that the function owns
inductive Place
  | source (offset : Nat)
  | owned (n : Nat)
  deriving DecidableEq, Repr

-- a constant as the compiler holds it; two slices with the same bytes are different strings in memory
inductive ConstantRef
  | string (place : Place) (bytes : List UInt8)
  | number (n : F64)
  | nil
  | boolean (b : Bool)
  deriving DecidableEq, Repr

namespace ConstantRef

def value : ConstantRef → Constant
  | .string _ bytes => .string bytes
  | .number n => .number n
  | .nil => .nil
  | .boolean b => .boolean b

-- what the map compares
def eql (a b : ConstantRef) : Bool := Func.sameKey a.value b.value

def NotNan (c : ConstantRef) : Prop := ∀ n, c = .number n → n.isNan = false

theorem eql_iff {a b : ConstantRef} (good : a.NotNan) : a.eql b = true ↔ a.value = b.value := by
  constructor
  · exact Func.sameKey_eq
  · intro same
    rw [eql, ← same]
    cases a with
    | number n => simp [value, Func.sameKey, F64.eq, good n rfl]
    | _ => simp [value, Func.sameKey]

end ConstantRef

structure ConstantTable (Map : Type) where
  constants : List ConstantRef
  constantsMap : Map
  duped : Nat

namespace ConstantTable

variable {Map : Type}

def values (t : ConstantTable Map) : List Constant := t.constants.map ConstantRef.value

variable (map : HashMapOps ConstantRef Nat Map)

def init : ConstantTable Map := ⟨[], map.empty, 0⟩

-- `Func.putConstant`; the index is cast to 18 bits
def putConstant (t : ConstantTable Map) (c : ConstantRef) : Except Stop (Nat × ConstantTable Map) :=
  match map.get t.constantsMap c with
  | some index => if index ≤ Func.maxBx then .ok (index, t) else .error .overflow
  | none =>
      let index := t.constants.length
      let t := { t with constantsMap := map.put t.constantsMap c index, constants := t.constants ++ [c] }
      if Func.maxBx < index then .error .constantLimit else .ok (index, t)

-- `Compiler.putConstant`
def compilerPutConstant (t : ConstantTable Map) (c : ConstantRef) : Except Stop (Nat × ConstantTable Map) :=
  match c with
  | .string _ bytes =>
      if (map.get t.constantsMap c).isSome then t.putConstant map c
      else { t with duped := t.duped + 1 }.putConstant map (.string (.owned t.duped) bytes)
  | c => t.putConstant map c

-- calls one after the other, with the constants that were passed and the indices that were returned
inductive Calls : ConstantTable Map → List (Constant × Nat) → ConstantTable Map → Prop
  | nil {t : ConstantTable Map} : Calls t [] t
  | func {t t' t'' : ConstantTable Map} {log : List (Constant × Nat)} {c : ConstantRef} {i : Nat} :
      Calls t log t' → c.NotNan → t'.putConstant map c = .ok (i, t'') → Calls t (log ++ [(c.value, i)]) t''
  | compiler {t t' t'' : ConstantTable Map} {log : List (Constant × Nat)} {c : ConstantRef} {i : Nat} :
      Calls t log t' → c.NotNan → t'.compilerPutConstant map c = .ok (i, t'') →
      Calls t (log ++ [(c.value, i)]) t''

/-! ## The invariant -/

-- the map finds what a search through the list finds
structure Numbered (t : ConstantTable Map) : Prop where
  built : map.Built ConstantRef.NotNan t.constantsMap
  good : ∀ c ∈ t.constants, c.NotNan
  nodup : t.values.Nodup
  short : t.constants.length ≤ Func.maxBx + 1
  lookup : ∀ c, c.NotNan → map.get t.constantsMap c = t.values.findIdx? (· = c.value)

variable {map}

theorem findIdx_nodup {l : List Constant} (nodup : l.Nodup) {c : Constant} {i : Nat} :
    l.findIdx? (· = c) = some i ↔ l[i]? = some c := by
  rw [List.findIdx?_eq_some_iff_getElem, List.getElem?_eq_some_iff]
  constructor
  · rintro ⟨inside, found, -⟩
    exact ⟨inside, by simpa using found⟩
  · rintro ⟨inside, rfl⟩
    refine ⟨inside, by simp, fun j less => ?_⟩
    have apart := (List.nodup_iff_injective_get.mp nodup).ne
      (fun same : (⟨j, less.trans inside⟩ : Fin l.length) = ⟨i, inside⟩ => less.ne (congrArg Fin.val same))
    simpa using apart

namespace Numbered

variable {t t' : ConstantTable Map} {c : ConstantRef} {i : Nat}

theorem get_iff (numbered : Numbered map t) (good : c.NotNan) :
    map.get t.constantsMap c = some i ↔ t.values[i]? = some c.value := by
  rw [numbered.lookup c good, findIdx_nodup numbered.nodup]

theorem init (correct : map.FiniteMapOn ConstantRef.eql ConstantRef.NotNan) : Numbered map (.init map) where
  built := .empty
  good _ member := absurd member List.not_mem_nil
  nodup := List.nodup_nil
  short := Nat.zero_le _
  lookup := correct.get_empty

-- a constant that the map does not have gets the next number
theorem append (correct : map.FiniteMapOn ConstantRef.eql ConstantRef.NotNan) (numbered : Numbered map t)
    (good : c.NotNan) (absent : map.get t.constantsMap c = none) (room : t.constants.length ≤ Func.maxBx) :
    Numbered map
      { t with
        constantsMap := map.put t.constantsMap c t.constants.length
        constants := t.constants ++ [c] } := by
  have missing : t.values.findIdx? (· = c.value) = none := by rw [← numbered.lookup c good, absent]
  have outside : c.value ∉ t.values := by
    intro member
    have different := List.findIdx?_eq_none_iff.mp missing c.value member
    simp at different
  have values : (t.constants ++ [c]).map ConstantRef.value = t.values ++ [c.value] := List.map_append
  refine ⟨.put _ numbered.built good, ?_, ?_, ?_, ?_⟩
  · intro d member
    rcases List.mem_append.mp member with old | new
    · exact numbered.good d old
    · cases List.mem_singleton.mp new
      exact good
  · change ((t.constants ++ [c]).map ConstantRef.value).Nodup
    rw [values, ← List.concat_eq_append]
    exact numbered.nodup.concat outside
  · change (t.constants ++ [c]).length ≤ _
    rw [List.length_append]
    exact Nat.succ_le_succ room
  · intro d goodD
    change map.get (map.put _ _ _) d = ((t.constants ++ [c]).map ConstantRef.value).findIdx? _
    rw [values, correct.get_put _ _ _ _ numbered.built good goodD, numbered.lookup d goodD,
      List.findIdx?_append]
    by_cases same : c.value = d.value
    · rw [if_pos ((ConstantRef.eql_iff good).mpr same), ← same, missing]
      simp [ConstantTable.values]
    · rw [if_neg (fun equal => same ((ConstantRef.eql_iff good).mp equal))]
      simp [same]

theorem put (correct : map.FiniteMapOn ConstantRef.eql ConstantRef.NotNan) (numbered : Numbered map t) (good : c.NotNan)
    (run : t.putConstant map c = .ok (i, t')) :
    Numbered map t' ∧ t.constants <+: t'.constants ∧ t'.values[i]? = some c.value := by
  unfold putConstant at run
  cases found : map.get t.constantsMap c with
  | some index =>
      simp only [found] at run
      split at run
      · cases run
        exact ⟨numbered, List.prefix_rfl, (numbered.get_iff good).mp found⟩
      · cases run
  | none =>
      simp only [found] at run
      split at run
      · cases run
      · rename_i room
        cases run
        refine ⟨numbered.append correct good found (Nat.le_of_not_lt room), List.prefix_append _ _, ?_⟩
        simp [values]

theorem compilerPut (correct : map.FiniteMapOn ConstantRef.eql ConstantRef.NotNan) (numbered : Numbered map t)
    (good : c.NotNan) (run : t.compilerPutConstant map c = .ok (i, t')) :
    Numbered map t' ∧ t.constants <+: t'.constants ∧ t'.values[i]? = some c.value := by
  unfold compilerPutConstant at run
  cases c with
  | string place bytes =>
      simp only at run
      split at run
      · exact numbered.put correct good run
      · -- the duplicate has the bytes of the string that was passed
        have numbered' : Numbered map { t with duped := t.duped + 1 } :=
          ⟨numbered.built, numbered.good, numbered.nodup, numbered.short, numbered.lookup⟩
        have good' : (ConstantRef.string (.owned t.duped) bytes).NotNan := by
          rintro n ⟨⟩
        obtain ⟨numbered'', grown, here⟩ := numbered'.put correct good' run
        exact ⟨numbered'', grown, here⟩
  | _ => exact numbered.put correct good run

theorem calls {log : List (Constant × Nat)} (correct : map.FiniteMapOn ConstantRef.eql ConstantRef.NotNan)
    (numbered : Numbered map t) (calls : Calls map t log t') : Numbered map t' ∧
      t.constants <+: t'.constants ∧ ∀ entry ∈ log, t'.values[entry.2]? = some entry.1 := by
  have log_snoc {t₁ t₂ : ConstantTable Map} {log : List (Constant × Nat)} {c : ConstantRef} {i : Nat}
      (old : ∀ entry ∈ log, t₁.values[entry.2]? = some entry.1) (grown : t₁.constants <+: t₂.constants)
      (new : t₂.values[i]? = some c.value) :
      ∀ entry ∈ log ++ [(c.value, i)], t₂.values[entry.2]? = some entry.1 := by
    intro entry member
    rcases List.mem_append.mp member with past | last
    · exact getElem?_of_initial (old entry past) (grown.map ConstantRef.value)
    · cases List.mem_singleton.mp last
      exact new
  induction calls with
  | nil => exact ⟨numbered, List.prefix_rfl, fun entry member => absurd member List.not_mem_nil⟩
  | func _ good run ih =>
      obtain ⟨numbered', grown, log⟩ := ih
      obtain ⟨numbered'', grown', here⟩ := numbered'.put correct good run
      exact ⟨numbered'', grown.trans grown', log_snoc log grown' here⟩
  | compiler _ good run ih =>
      obtain ⟨numbered', grown, log⟩ := ih
      obtain ⟨numbered'', grown', here⟩ := numbered'.compilerPut correct good run
      exact ⟨numbered'', grown.trans grown', log_snoc log grown' here⟩

end Numbered

end ConstantTable

/-! ## The code generator

It keeps the values of the list and searches through them. -/

theorem putConstant_found {fs : Func} {c : Constant} {k : Nat}
    (found : fs.constants.findIdx? (Func.sameKey c) = some k) : Func.putConstant c fs = .ok (k, fs) := by
  have start : (get : FuncM Func) fs = .ok (fs, fs) := rfl
  rw [Func.putConstant, bind_runs start, found]
  rfl

theorem putConstant_new {fs : Func} {c : Constant} (absent : fs.constants.findIdx? (Func.sameKey c) = none) :
    Func.putConstant c fs = if Func.maxBx < fs.constants.length then .error .constantLimit
      else .ok (fs.constants.length, { fs with constants := fs.constants ++ [c] }) := by
  have start : (get : FuncM Func) fs = .ok (fs, fs) := rfl
  rw [Func.putConstant, bind_runs start, absent]
  simp only
  split <;> rfl

theorem putConstant_refines {Map : Type} {map : HashMapOps ConstantRef Nat Map} {t : ConstantTable Map}
    {c : ConstantRef} {fs : Func} (numbered : t.Numbered map) (good : c.NotNan) (same : fs.constants = t.values) :
    Func.putConstant c.value fs =
      (t.putConstant map c).map fun r => (r.1, { fs with constants := r.2.values }) := by
  have search : fs.constants.findIdx? (Func.sameKey c.value) = map.get t.constantsMap c := by
    rw [numbered.lookup c good, same]
    congr 1
    funext d
    by_cases equal : d = c.value
    · rw [decide_eq_true equal, equal]
      exact (ConstantRef.eql_iff good).mpr rfl
    · rw [decide_eq_false equal]
      by_contra found
      exact equal (Func.sameKey_eq (by simpa using found)).symm
  have size : fs.constants.length = t.constants.length := by
    rw [same, ConstantTable.values, List.length_map]
  unfold ConstantTable.putConstant
  cases found : map.get t.constantsMap c with
  | some index =>
      obtain ⟨inside, -⟩ := List.getElem?_eq_some_iff.mp ((numbered.get_iff good).mp found)
      rw [← same, size] at inside
      have bound : index ≤ Func.maxBx := Nat.le_of_lt_succ (inside.trans_le numbered.short)
      rw [putConstant_found (search.trans found)]
      simp only [if_pos bound, Except.map, ← same]
  | none =>
      have values : (t.constants ++ [c]).map ConstantRef.value = fs.constants ++ [c.value] := by
        rw [same]
        exact List.map_append
      rw [putConstant_new (search.trans found), size]
      simp only
      split
      · rfl
      · simp only [Except.map, ConstantTable.values, values]

/-! ## Operands -/

-- the expression is the constant number `k`
def IsConstant (fs : Func) (e : ExpDesc) (k : Nat) : Prop :=
  e = .constantIndex k ∨ ∃ c, Func.literal? e = some c ∧ fs.constants[k]? = some c

theorem putConstant_finds {fs fs' : Func} {c : Constant} {k : Nat}
    (run : Func.putConstant c fs = .ok (k, fs')) : k ≤ fs.constants.length ∧ fs'.constants[k]? = some c := by
  cases found : fs.constants.findIdx? (Func.sameKey c) with
  | some index =>
      rw [putConstant_found found] at run
      cases run
      obtain ⟨inside, same, -⟩ := List.findIdx?_eq_some_iff_getElem.mp found
      exact ⟨inside.le, by rw [List.getElem?_eq_getElem inside, ← Func.sameKey_eq same]⟩
  | none =>
      rw [putConstant_new found] at run
      split at run
      · cases run
      · cases run
        exact ⟨le_rfl, List.getElem?_concat_length⟩

-- an operand that is not a constant with a small index is brought into a register
theorem exp2RK_encodes {e e' : ExpDesc} {fs fs' : Func} {rk : Nat}
    (run : Func.exp2RK e fs = .ok ((rk, e'), fs')) :
    (∃ k ≤ rkMaxConstantIndex, rk = constantIndexToRK k ∧ rkIsConstant rk ∧ rkGetConstantIndex rk = k ∧
      IsConstant fs' e' k) ∨
    ∃ v fs₁, Func.exp2val e fs = .ok (v, fs₁) ∧ Func.exp2anyreg v fs₁ = .ok ((rk, e'), fs') := by
  obtain ⟨v, fs₁, first, run⟩ := bind_returns.mp run
  obtain ⟨fs₂, fs₃, got, run⟩ := bind_returns.mp run
  cases got
  cases literal : Func.literal? v with
  | some c =>
      rw [literal] at run
      simp only at run
      split at run
      · rename_i room
        obtain ⟨k, fs₂, put, run⟩ := bind_returns.mp run
        cases run
        obtain ⟨le, found⟩ := putConstant_finds put
        have small : k ≤ rkMaxConstantIndex := le.trans room
        exact .inl ⟨k, small, rfl, (rk_constant small).1, (rk_constant small).2, .inr ⟨c, literal, found⟩⟩
      · exact .inr ⟨v, fs₁, first, run⟩
  | none =>
      rw [literal] at run
      cases v with
      | constantIndex k =>
          simp only at run
          split at run
          · rename_i small
            cases run
            exact .inl ⟨k, small, rfl, (rk_constant small).1, (rk_constant small).2, .inl rfl⟩
          · exact .inr ⟨_, fs₁, first, run⟩
      | _ => exact .inr ⟨_, fs₁, first, run⟩

/-! ## Sequences of calls -/

theorem constants_numbering {Map : Type} {map : HashMapOps ConstantRef Nat Map}
    (correct : map.FiniteMapOn ConstantRef.eql ConstantRef.NotNan) {log : List (Constant × Nat)}
    {t : ConstantTable Map} (calls : ConstantTable.Calls map (.init map) log t) :
    (∀ (c : Constant) (i : Nat), (c, i) ∈ log → t.values[i]? = some c) ∧
    (∀ log' (t' : ConstantTable Map), ConstantTable.Calls map t log' t' →
      ∀ (j : Nat) (c : ConstantRef), t.constants[j]? = some c → t'.constants[j]? = some c) ∧
    (∀ c i d j, (c, i) ∈ log → (d, j) ∈ log → (i = j ↔ c = d)) ∧
    (∀ (c : ConstantRef) (i : Nat), t.constants[i]? = some c → map.get t.constantsMap c = some i) ∧
    (∀ (c : ConstantRef) (i : Nat), c.NotNan → map.get t.constantsMap c = some i → t.values[i]? = some c.value) ∧
    ∀ fs fs' e e' rk, Func.exp2RK e fs = .ok ((rk, e'), fs') →
      (∃ k ≤ rkMaxConstantIndex, rk = constantIndexToRK k ∧ rkIsConstant rk ∧ rkGetConstantIndex rk = k ∧
        IsConstant fs' e' k) ∨
      ∃ v fs₁, Func.exp2val e fs = .ok (v, fs₁) ∧ Func.exp2anyreg v fs₁ = .ok ((rk, e'), fs') := by
  obtain ⟨numbered, -, logged⟩ := (ConstantTable.Numbered.init correct).calls correct calls
  refine ⟨fun c i member => logged _ member, ?_, ?_, ?_, ?_, fun _ _ _ _ _ => exp2RK_encodes⟩
  · intro log' t' later j c found
    obtain ⟨-, grown, -⟩ := numbered.calls correct later
    exact getElem?_of_initial found grown
  · intro c i d j first second
    have here := logged _ first
    have there := logged _ second
    constructor
    · rintro rfl
      exact Option.some.inj (here.symm.trans there)
    · rintro rfl
      have index := (ConstantTable.findIdx_nodup numbered.nodup).mpr here
      have index' := (ConstantTable.findIdx_nodup numbered.nodup).mpr there
      exact Option.some.inj (index.symm.trans index')
  · intro c i found
    have good := numbered.good c (List.mem_of_getElem? found)
    rw [numbered.get_iff good, ConstantTable.values, List.getElem?_map, found]
    rfl
  · intro c i good found
    exact (numbered.get_iff good).mp found

-- a map that keeps its entries in a list
def listContext : KeyContext ConstantRef := ⟨fun _ => 0, ConstantRef.eql⟩

def listMap : HashMapOps ConstantRef Nat (List (ConstantRef × Nat)) := HashMap.Entries.ops listContext

theorem listMap_correct : listMap.FiniteMapOn ConstantRef.eql ConstantRef.NotNan := by
  refine HashMap.Entries.finiteMap ⟨?_, ?_, fun _ _ _ _ _ => rfl⟩
  · intro a b good good' same
    exact (ConstantRef.eql_iff good').mpr ((ConstantRef.eql_iff good).mp same).symm
  · intro a b c good good' _ same same'
    have values := ((ConstantRef.eql_iff good).mp same).trans ((ConstantRef.eql_iff good').mp same')
    exact (ConstantRef.eql_iff good).mpr values

def nameTable : ConstantTable (List (ConstantRef × Nat)) :=
  ⟨[.string (.owned 0) [97]], [(.string (.owned 0) [97], 0)], 1⟩

-- the second string lies elsewhere in the source and gets the index of the first
theorem constants_numbering_twice : nameTable.values[0]? = some (.string [97]) := by
  have first : ConstantTable.compilerPutConstant listMap (.init listMap) (.string (.source 0) [97]) =
      .ok (0, nameTable) := rfl
  have second : nameTable.compilerPutConstant listMap (.string (.source 5) [97]) = .ok (0, nameTable) := rfl
  have calls := (ConstantTable.Calls.nil.compiler (by rintro n ⟨⟩) first).compiler (by rintro n ⟨⟩) second
  exact (constants_numbering listMap_correct calls).1 (.string [97]) 0 (by decide)

end Zua.Compile
