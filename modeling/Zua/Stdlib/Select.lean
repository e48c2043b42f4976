import Zua.Base.FloatIntegers
import Zua.Stdlib.Table

/-!
# `select`

A negative index is made a count that is one too large, the only one of the three forms that goes wrong while the
stack has room.
-/

namespace Zua.Stdlib
open Object Vm

variable {P : Platform}

/-! ## The stack -/

-- the values under the top
def live (s : Machine P) : List Value := s.stack.take s.top

-- the values are pushed and counted
def Returns (s : Machine P) (result : Except Stop (Machine P × Int)) (vs : List Value) : Prop :=
  ∃ s', result = .ok (s', vs.length) ∧ live s' = live s ++ vs

variable {s s' : Machine P} {v : Value} {vs : List Value} {i n : Nat}

theorem live_length (inside : s.top ≤ s.stack.length) : (live s).length = s.top := by
  rw [live, List.length_take, min_eq_left inside]

theorem push_live (room : s.top < s.stack.length) (v : Value) : ∃ s', s.push v = .ok s' ∧ live s' = live s ++ [v] ∧
    s'.top = s.top + 1 ∧ s'.stack.length = s.stack.length := by
  refine ⟨_, if_neg (by omega), ?_, rfl, List.length_set⟩
  show (s.stack.set s.top v).take (s.top + 1) = _
  rw [List.take_add_one, List.take_set_of_le le_rfl, List.getElem?_set_self room]
  rfl

theorem push_full (full : s.stack.length ≤ s.top) (v : Value) : s.push v = .error (.error .stackOverflow) := if_pos full

theorem toValue_live (inside : i < (live s).length) : toValue s (i + 1) = (live s)[i] := by
  have below : i < s.top := by
    rw [live, List.length_take] at inside
    omega
  simp only [live, List.getElem_take]
  rw [toValue, if_pos (by omega), Nat.add_sub_cancel, List.getD_eq_getElem?_getD, List.getElem?_eq_getElem]
  rfl

/-! ## The function -/

section Select

variable (parseFloat : List UInt8 → Option F64)

-- `@intFromFloat` to an `i32`
def toI32 (n : F64) : Except Stop Int :=
  if n.exponent ≠ 2047 ∧ -2 ^ 31 ≤ n.toInt ∧ n.toInt < 2 ^ 31 then .ok n.toInt else .error .panic

-- an overflow panics
def addI32 (a b : Int) : Except Stop Int := if -2 ^ 31 ≤ a + b ∧ a + b < 2 ^ 31 then .ok (a + b) else .error .panic

-- the loop; false is a push that failed
def pushArgs (s : Machine P) (i : Nat) : Nat → Machine P × Bool
  | 0 => (s, true)
  | n + 1 =>
      match s.push (toValue s (i + 1)) with
      | .error _ => (s, false)
      | .ok s => pushArgs s (i + 1) n

-- the arguments behind the first `i`
def selectFrom (s : Machine P) (i : Nat) : Machine P × Int :=
  let pushed := pushArgs s i (s.top - i)
  (pushed.1, if pushed.2 then (s.top - i : Nat) else 0)

def isCount : Value → Bool
  | .string str => str.data.head? == some 35
  | _ => false

def baseSelect (s : Machine P) : Except Stop (Machine P × Int) :=
  if isCount (toValue s 1) then
    match s.push (.number (F64.floatFromInt (s.top - 1))) with
    | .error _ => .ok (s, 0)
    | .ok s => .ok (s, 1)
  else
    let idx := (toNumber parseFloat s 1).getD F64.one
    if idx.lt F64.zero then do
      let magnitude ← toI32 idx.negate
      let count ← addI32 magnitude 1
      if count ≤ (s.top : Int) - 1 then return selectFrom s ((s.top : Int) - count).toNat
      else return (s, 0)
    else if F64.zero.lt idx && idx.lt (F64.floatFromInt s.top) then do
      let i ← toI32 idx
      return selectFrom s i.toNat
    else return (s, 0)

end Select

/-! ## The loop -/

theorem pushArgs_ok (room : s.top + n ≤ s.stack.length) (inside : i + n ≤ s.top) :
    ∃ s', pushArgs s i n = (s', true) ∧ live s' = live s ++ ((live s).drop i).take n := by
  induction n generalizing s i with
  | zero => exact ⟨s, rfl, by simp⟩
  | succ n ih =>
      have length := live_length (show s.top ≤ s.stack.length by omega)
      have located : i < (live s).length := by omega
      obtain ⟨s₁, push, live₁, top₁, stack₁⟩ := push_live (show s.top < s.stack.length by omega) (live s)[i]
      obtain ⟨s', rest, live'⟩ := ih (s := s₁) (i := i + 1) (by omega) (by omega)
      refine ⟨s', ?_, ?_⟩
      · simp only [pushArgs, toValue_live located, push, rest]
      · rw [live', live₁, List.drop_append_of_le_length (by omega), List.take_append_of_le_length (by simp; omega),
          List.append_assoc, List.drop_eq_getElem_cons located, List.take_succ_cons]
        rfl

theorem pushArgs_full (full : s.stack.length < s.top + n) (inside : s.top ≤ s.stack.length) :
    (pushArgs s i n).2 = false := by
  induction n generalizing s i with
  | zero => omega
  | succ n ih =>
      unfold pushArgs
      by_cases room : s.top < s.stack.length
      · obtain ⟨s₁, push, -, top₁, stack₁⟩ := push_live room (toValue s (i + 1))
        simp only [push]
        exact ih (by omega) (by omega)
      · simp only [push_full (not_lt.mp room)]

theorem pushArgs_grows (s : Machine P) (i n : Nat) : s.top ≤ (pushArgs s i n).1.top ∧
    (s.top ≤ s.stack.length → (pushArgs s i n).1.top ≤ (pushArgs s i n).1.stack.length) := by
  induction n generalizing s i with
  | zero => exact ⟨le_rfl, id⟩
  | succ n ih =>
      unfold pushArgs
      by_cases room : s.top < s.stack.length
      · obtain ⟨s₁, push, -, top₁, stack₁⟩ := push_live room (toValue s (i + 1))
        obtain ⟨grows, inside⟩ := ih s₁ (i + 1)
        simp only [push]
        exact ⟨by omega, fun _ => inside (by omega)⟩
      · simp only [push_full (not_lt.mp room)]
        exact ⟨le_rfl, id⟩

-- the last values are returned if and only if they fit
theorem selectFrom_iff (inside : s.top ≤ s.stack.length) (below : i < s.top) (ws : List Value) :
    Returns s (.ok (selectFrom s i)) ws ∧ ws ≠ [] ↔
      ws = (live s).drop i ∧ s.top + (s.top - i) ≤ s.stack.length := by
  have length := live_length inside
  by_cases room : s.top + (s.top - i) ≤ s.stack.length
  · obtain ⟨s', pushed, live'⟩ := pushArgs_ok room (show i + (s.top - i) ≤ s.top by omega)
    rw [List.take_of_length_le (by simp [length])] at live'
    have run : selectFrom s i = (s', ((s.top - i : Nat) : Int)) := by simp only [selectFrom, pushed, if_true]
    constructor
    · rintro ⟨⟨s'', result, values⟩, -⟩
      rw [run] at result
      obtain ⟨rfl, -⟩ := Prod.mk.inj (Except.ok.inj result)
      rw [live', List.append_cancel_left_eq] at values
      exact ⟨values.symm, room⟩
    · rintro ⟨rfl, -⟩
      refine ⟨⟨s', ?_, live'⟩, ?_⟩
      · rw [run, List.length_drop, length]
      · rw [ne_eq, List.drop_eq_nil_iff]
        omega
  · have full := pushArgs_full (i := i) (n := s.top - i) (by omega) inside
    refine iff_of_false ?_ fun h => room h.2
    rintro ⟨⟨s'', result, -⟩, some⟩
    simp only [selectFrom, full, Bool.false_eq_true, if_false] at result
    have none : (0 : Int) = ws.length := congrArg Prod.snd (Except.ok.inj result)
    exact some (List.length_eq_zero_iff.mp (by exact_mod_cast none.symm))

/-! ## The three forms -/

theorem returns_nothing {ws : List Value} : Returns s (.ok (s, 0)) ws ↔ ws = [] := by
  constructor
  · rintro ⟨s', result, -⟩
    have none : (0 : Int) = ws.length := congrArg Prod.snd (Except.ok.inj result)
    exact List.length_eq_zero_iff.mp (by exact_mod_cast none.symm)
  · rintro rfl
    exact ⟨s, rfl, (List.append_nil _).symm⟩

-- what an index asks for; nothing is said of 0 and of what is below the list
def wanted (vs : List Value) (i : Int) : Option (List Value) :=
  if 1 ≤ i then some (vs.drop (i - 1).toNat)
  else if -(vs.length : Int) ≤ i ∧ i ≤ -1 then some (vs.drop ((vs.length : Int) + i).toNat)
  else none

def Selects (parseFloat : List UInt8 → Option F64) (s : Machine P) (vs : List Value) (i : Int) : Prop :=
  ∃ ws, Returns s (baseSelect parseFloat s) ws ∧ ∀ w, wanted vs i = some w → ws = w

section Forms

variable {parseFloat : List UInt8 → Option F64} {x : F64} (integer : x.IsInteger) (small : s.stack.length < 2 ^ 31)
  (inside : s.top ≤ s.stack.length) (args : live s = .number x :: vs)

include args in
theorem select_number : baseSelect parseFloat s =
    if x.lt F64.zero then do
      let magnitude ← toI32 x.negate
      let count ← addI32 magnitude 1
      if count ≤ (s.top : Int) - 1 then return selectFrom s ((s.top : Int) - count).toNat
      else return (s, 0)
    else if F64.zero.lt x && x.lt (F64.floatFromInt s.top) then do
      let i ← toI32 x
      return selectFrom s i.toNat
    else return (s, 0) := by
  have first : toValue s 1 = .number x := by
    have located : 0 < (live s).length := by simp [args]
    rw [toValue_live located]
    simp only [args, List.getElem_cons_zero]
  simp only [baseSelect, toNumber, first, isCount, Bool.false_eq_true, if_false, Option.getD_some]

include inside args in
theorem top_eq : s.top = vs.length + 1 := by
  have length := live_length inside
  rw [args, List.length_cons] at length
  exact length.symm

include integer small inside args in
theorem select_positive (positive : 0 < x.toInt) : Selects parseFloat s vs x.toInt ↔
    s.top + (vs.drop (x.toInt - 1).toNat).length ≤ s.stack.length := by
  have top := top_eq inside args
  have sign : x.lt F64.zero = false := by
    rw [Bool.eq_false_iff, ne_eq, F64.lt_iff_toInt integer F64.zero_isInteger, F64.toInt_zero]
    omega
  have above : F64.zero.lt x = true := by
    rw [F64.lt_iff_toInt F64.zero_isInteger integer, F64.toInt_zero]
    exact positive
  have within : x.lt (F64.floatFromInt s.top) = true ↔ x.toInt < s.top := by
    rw [F64.lt_iff_toInt integer (F64.floatFromInt_isInteger (by omega) (by omega)),
      F64.toInt_floatFromInt (by omega) (by omega)]
  have asked : wanted vs x.toInt = some (vs.drop (x.toInt - 1).toNat) := if_pos (by omega)
  rw [Selects, select_number args, sign, if_neg Bool.false_ne_true, above, asked, Bool.true_and]
  by_cases less : x.toInt < s.top
  · have converted : toI32 x = .ok x.toInt := if_pos ⟨integer.finite, by omega, by omega⟩
    have rest : (live s).drop x.toInt.toNat = vs.drop (x.toInt - 1).toNat := by
      rw [args, show x.toInt.toNat = (x.toInt - 1).toNat + 1 by omega, List.drop_succ_cons]
    have some : vs.drop (x.toInt - 1).toNat ≠ [] := by
      rw [ne_eq, List.drop_eq_nil_iff]
      omega
    rw [if_pos (within.mpr less), converted]
    have fits := selectFrom_iff inside (show x.toInt.toNat < s.top by omega) (vs.drop (x.toInt - 1).toNat)
    rw [rest] at fits
    have length : (vs.drop (x.toInt - 1).toNat).length = s.top - x.toInt.toNat := by
      rw [List.length_drop]
      omega
    rw [length]
    constructor
    · rintro ⟨ws, returns, all⟩
      obtain rfl := all _ rfl
      exact (fits.mp ⟨returns, some⟩).2
    · intro room
      refine ⟨_, (fits.mpr ⟨rfl, room⟩).1, ?_⟩
      rintro w ⟨⟩
      rfl
  · rw [if_neg fun less' => less (within.mp less')]
    have none : vs.drop (x.toInt - 1).toNat = [] := List.drop_eq_nil_iff.mpr (by omega)
    rw [none]
    refine iff_of_true ⟨[], returns_nothing.mpr rfl, ?_⟩ inside
    rintro w ⟨⟩
    rfl

include integer args in
theorem select_zero (zero : x.toInt = 0) : Selects parseFloat s vs x.toInt := by
  have sign : x.lt F64.zero = false := by
    rw [Bool.eq_false_iff, ne_eq, F64.lt_iff_toInt integer F64.zero_isInteger, F64.toInt_zero]
    omega
  have above : F64.zero.lt x = false := by
    rw [Bool.eq_false_iff, ne_eq, F64.lt_iff_toInt F64.zero_isInteger integer, F64.toInt_zero]
    omega
  have asked : wanted vs x.toInt = none := by
    rw [wanted, if_neg (by omega), if_neg (by omega)]
  rw [Selects, select_number args, sign, if_neg Bool.false_ne_true, above, Bool.false_and,
    if_neg Bool.false_ne_true, asked]
  exact ⟨[], returns_nothing.mpr rfl, by simp⟩

include integer inside args in
-- the count is one more than the values that are asked for
theorem select_negative (negative : x.toInt < 0) : Selects parseFloat s vs x.toInt ↔
    x.toInt < -(vs.length : Int) ∧ -(2 ^ 31 - 2) ≤ x.toInt := by
  have top := top_eq inside args
  have sign : x.lt F64.zero = true := by
    rw [F64.lt_iff_toInt integer F64.zero_isInteger, F64.toInt_zero]
    exact negative
  have finite : x.negate.exponent ≠ 2047 := by
    rw [(F64.negate_fields x).2.1]
    exact integer.finite
  have flipped := F64.toInt_negate x
  rw [Selects, select_number args, sign, if_pos rfl]
  by_cases fits : -(2 ^ 31 - 2) ≤ x.toInt
  · have converted : toI32 x.negate = .ok (-x.toInt) := by
      rw [toI32, flipped, if_pos ⟨finite, by omega, by omega⟩]
    have counted : addI32 (-x.toInt) 1 = .ok (-x.toInt + 1) := if_pos ⟨by omega, by omega⟩
    rw [converted]
    show (∃ ws, Returns s (do
      let count ← addI32 (-x.toInt) 1
      if count ≤ (s.top : Int) - 1 then return selectFrom s ((s.top : Int) - count).toNat
      else return (s, 0)) ws ∧ _) ↔ _
    rw [counted]
    show (∃ ws, Returns s (if -x.toInt + 1 ≤ (s.top : Int) - 1 then
      .ok (selectFrom s ((s.top : Int) - (-x.toInt + 1)).toNat) else .ok (s, 0)) ws ∧ _) ↔ _
    by_cases some : -(vs.length : Int) ≤ x.toInt
    · have asked : wanted vs x.toInt = Option.some (vs.drop ((vs.length : Int) + x.toInt).toNat) := by
        rw [wanted, if_neg (by omega), if_pos ⟨some, by omega⟩]
      have nonempty : vs.drop ((vs.length : Int) + x.toInt).toNat ≠ [] := by
        rw [ne_eq, List.drop_eq_nil_iff]
        omega
      refine iff_of_false ?_ (by omega)
      rintro ⟨ws, returns, all⟩
      obtain rfl := all _ asked
      by_cases room : -x.toInt + 1 ≤ (s.top : Int) - 1
      · rw [if_pos room] at returns
        have values := ((selectFrom_iff inside (by omega) _).mp ⟨returns, nonempty⟩).1
        have lengths := congrArg List.length values
        rw [args, List.length_drop, List.length_drop, List.length_cons] at lengths
        omega
      · rw [if_neg room] at returns
        exact nonempty (returns_nothing.mp returns)
    · have asked : wanted vs x.toInt = none := by
        rw [wanted, if_neg (by omega), if_neg (by omega)]
      rw [if_neg (by omega), asked]
      exact iff_of_true ⟨[], returns_nothing.mpr rfl, by simp⟩ ⟨by omega, fits⟩
  · refine iff_of_false ?_ fun h => fits h.2
    rintro ⟨ws, ⟨s', result, -⟩, -⟩
    by_cases converted : -x.toInt < 2 ^ 31
    · have magnitude : toI32 x.negate = .ok (-x.toInt) := by
        rw [toI32, flipped, if_pos ⟨finite, by omega, by omega⟩]
      have overflow : addI32 (-x.toInt) 1 = .error .panic := if_neg (by omega)
      rw [magnitude] at result
      change (do
        let count ← addI32 (-x.toInt) 1
        if count ≤ (s.top : Int) - 1 then return selectFrom s ((s.top : Int) - count).toNat
        else return (s, 0)) = _ at result
      rw [overflow] at result
      cases result
    · have outside : toI32 x.negate = .error .panic := by
        rw [toI32, flipped, if_neg (by omega)]
      rw [outside] at result
      cases result

end Forms

theorem select_count {parseFloat : List UInt8 → Option F64} {str : Str} (count : str.data.head? = some 35)
    (inside : s.top ≤ s.stack.length) (args : live s = .string str :: vs) :
    Returns s (baseSelect parseFloat s) [.number (F64.floatFromInt vs.length)] ↔ s.top < s.stack.length := by
  have length := live_length inside
  have located : 0 < (live s).length := by simp [args]
  have first : isCount (toValue s 1) = true := by
    rw [toValue_live located]
    simp [args, isCount, count]
  have top : s.top - 1 = vs.length := by
    rw [← length, args, List.length_cons, Nat.add_sub_cancel]
  rw [baseSelect, if_pos first, top]
  by_cases room : s.top < s.stack.length
  · obtain ⟨s', push, live', -, -⟩ := push_live room (.number (F64.floatFromInt vs.length))
    rw [push]
    exact iff_of_true ⟨s', rfl, live'⟩ room
  · rw [push_full (not_lt.mp room)]
    refine iff_of_false ?_ room
    intro returns
    have none := returns_nothing.mp returns
    cases none

theorem select_iff (parseFloat : List UInt8 → Option F64) (s : Machine P) (vs : List Value)
    (inside : s.top ≤ s.stack.length) (small : s.stack.length < 2 ^ 31) :
    (∀ x : F64, x.IsInteger → live s = .number x :: vs → (Selects parseFloat s vs x.toInt ↔
      0 < x.toInt ∧ s.top + (vs.drop (x.toInt - 1).toNat).length ≤ s.stack.length ∨ x.toInt = 0 ∨
        x.toInt < -(vs.length : Int) ∧ -(2 ^ 31 - 2) ≤ x.toInt)) ∧
    ∀ str : Str, str.data.head? = some 35 → live s = .string str :: vs →
      (Returns s (baseSelect parseFloat s) [.number (F64.floatFromInt vs.length)] ↔ s.top < s.stack.length) := by
  refine ⟨?_, fun str count args => select_count count inside args⟩
  intro x integer args
  rcases lt_trichotomy x.toInt 0 with negative | zero | positive
  · rw [select_negative integer inside args negative]
    omega
  · exact iff_of_true (select_zero integer args zero) (.inr (.inl zero))
  · rw [select_positive integer small inside args positive]
    omega

-- a machine that calls `select` with one value
def selecting (selector : Value) : Machine Platform.plain where
  stack := [selector, .boolean true, .nil, .nil]
  top := 2
  globals := 0
  tables := []
  closures := []

theorem select_iff_one : Selects (fun _ => none) (selecting (key 1)) [.boolean true] (F64.floatFromInt 1).toInt :=
  ((select_iff (fun _ => none) (selecting (key 1)) [.boolean true] (by decide) (by decide)).1 (F64.floatFromInt 1)
    (F64.floatFromInt_isInteger (by decide) (by decide)) rfl).mpr (by
      rw [F64.toInt_floatFromInt (by decide) (by decide)]
      exact .inl ⟨by decide, by decide⟩)

-- the last value is not returned
theorem select_last : (F64.floatFromInt 1).negate.toInt = -1 ∧
    ¬ Selects (fun _ => none) (selecting (.number (F64.floatFromInt 1).negate)) [.boolean true] (-1) := by
  have one := F64.floatFromInt_isInteger (n := 1) (by decide) (by decide)
  have value : (F64.floatFromInt 1).negate.toInt = -1 := by
    rw [F64.toInt_negate, F64.toInt_floatFromInt (by decide) (by decide)]
    rfl
  refine ⟨value, ?_⟩
  have negative : Selects (fun _ => none) (selecting (.number (F64.floatFromInt 1).negate)) [.boolean true]
      (F64.floatFromInt 1).negate.toInt ↔ _ :=
    select_negative (F64.negate_isInteger one) (by decide) rfl (by rw [value]; decide)
  rw [value] at negative
  rw [negative]
  decide

end Zua.Stdlib
