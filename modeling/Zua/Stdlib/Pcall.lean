import Zua.Stdlib.Select

/-!
# `pcall`

The arguments of the call are read behind the base of the caller's frame, its results are what is left at the bottom
of the stack, and the status goes in front of the last of them.
-/

namespace Zua.Stdlib
open Object Vm

variable {P : Platform}

-- a call that fails leaves a state behind
inductive Outcome (P : Platform)
  | returned (s : Machine P)
  | failed (s : Machine P)

-- `insert`, from the index `i` down to `pos`
def moveUp (s : Machine P) (pos : Nat) : Nat → Except Stop (Machine P)
  | 0 => .ok s
  | i + 1 =>
      if pos < i + 1 then do
        let v ← s.slot i
        let s ← s.setSlot (i + 1) v
        moveUp s pos i
      else .ok s

def insertPos (s : Machine P) (pos : Nat) : Except Stop (Machine P) :=
  if s.top ≤ pos then .ok s
  else do
    let val ← s.slot (s.top - 1)
    let s ← moveUp s pos (s.top - 1)
    s.setSlot pos val

-- a negative index counts from the top
def insert (s : Machine P) (idx : Int) : Except Stop (Machine P) :=
  if 0 < idx then insertPos s (idx - 1).toNat
  else if s.top < (-idx).toNat then .error .panic
  else insertPos s (s.top - (-idx).toNat)

section Pcall

variable (host : Addr → Machine P → Except Stop (Machine P × Int))
  (callLua : Addr → Nat → Machine P → Except Stop (Outcome P))

-- `call`; a function written in C does not fail
def callCaught (numArgs : Nat) (s : Machine P) : Except Stop (Outcome P) :=
  if s.top < numArgs + 1 then .error .panic
  else do
    let func ← s.slot (s.top - (numArgs + 1))
    match func with
    | .closure a => callLua a numArgs s
    | .cClosure a => do
        let s ← callC host a numArgs s
        return .returned s
    | _ => return .failed s

-- without a function on the stack every branch panics
def basePcall (s : Machine P) : Except Stop (Machine P × Int) :=
  if s.top = 0 then .error .panic
  else do
    match ← callCaught host callLua (s.top - 1) s with
    | .failed s =>
        match s.push (.boolean false) with
        | .error _ => return (s, 0)
        | .ok s => do
            let s ← insert s (-2)
            return (s, 2)
    | .returned s =>
        match s.push (.boolean true) with
        | .error _ => return (s, 0)
        | .ok s => do
            let s ← insert s (-2)
            return (s, (s.top : Int))

end Pcall

variable {host : Addr → Machine P → Except Stop (Machine P × Int)}
  {callLua : Addr → Nat → Machine P → Except Stop (Outcome P)} {s s' s₁ s₂ : Machine P} {a : Addr}
  {args rs : List Value} {v w : Value} {n : Nat}

/-! ## The status -/

-- the last two values are exchanged
theorem insert_last (inside : s.top ≤ s.stack.length) {values : List Value} (top : live s = values ++ [v, w]) :
    ∃ s', insert s (-2) = .ok s' ∧ live s' = values ++ [w, v] ∧ s'.top = s.top := by
  have length := live_length inside
  rw [top, List.length_append, List.length_cons, List.length_singleton] at length
  have first : s.stack[values.length]? = some v := by
    rw [← List.getElem?_take_of_lt (show values.length < s.top by omega), ← live, top]
    simp
  have second : s.stack[values.length + 1]? = some w := by
    rw [← List.getElem?_take_of_lt (show values.length + 1 < s.top by omega), ← live, top]
    simp
  have moved : moveUp s values.length (values.length + 1) =
      .ok { s with stack := s.stack.set (values.length + 1) v } := by
    have rest : ∀ s : Machine P, moveUp s values.length values.length = .ok s := by
      intro s
      cases values.length with
      | zero => rfl
      | succ i => exact if_neg (Nat.lt_irrefl _)
    rw [moveUp, if_pos (Nat.lt_succ_self _)]
    simp only [Machine.slot, first]
    show (do
      let s ← s.setSlot (values.length + 1) v
      moveUp s values.length values.length) = _
    rw [Machine.setSlot, if_pos (by omega)]
    exact rest _
  refine ⟨{ s with stack := (s.stack.set (values.length + 1) v).set values.length w }, ?_, ?_, rfl⟩
  · have position : s.top - (-(-2 : Int)).toNat = values.length := by
      rw [show (-(-2 : Int)).toNat = 2 from rfl]
      omega
    rw [insert, if_neg (by decide), if_neg (by rw [show (-(-2 : Int)).toNat = 2 from rfl]; omega), position, insertPos,
      if_neg (by omega), show s.top - 1 = values.length + 1 by omega]
    simp only [Machine.slot, second]
    show (do
      let s ← moveUp s values.length (values.length + 1)
      s.setSlot values.length w) = _
    rw [moved]
    exact if_pos (by rw [List.length_set]; omega)
  · show ((s.stack.set (values.length + 1) v).set values.length w).take s.top = _
    rw [List.take_set, List.take_set, ← live, top, List.set_append_right _ _ (by omega),
      List.set_append_right _ _ (by omega)]
    simp

theorem insert_none (short : s.top < 2) : insert s (-2) = .error .panic := by
  rw [insert, if_neg (by decide), if_pos (by rw [show (-(-2 : Int)).toNat = 2 from rfl]; exact short)]

/-! ## The call -/

theorem shift_ok {start : Nat} (room : start + n ≤ s.stack.length) :
    shift s start n = .ok { s with stack := (s.stack.drop start).take n ++ s.stack.drop n } := by
  induction n with
  | zero => simp [shift]
  | succ n ih =>
      have source : s.stack[start + n]? = some s.stack[start + n] := List.getElem?_eq_getElem (by omega)
      rw [shift, ih (by omega)]
      have length : ((s.stack.drop start).take n).length = n := by simp; omega
      have read : ((s.stack.drop start).take n ++ s.stack.drop n)[start + n]? = some s.stack[start + n] := by
        rw [List.getElem?_append_right (by omega), length, List.getElem?_drop, show n + (start + n - n) = start + n by omega,
          source]
      show (do
        let v ← Machine.slot { s with stack := (s.stack.drop start).take n ++ s.stack.drop n } (start + n)
        Machine.setSlot { s with stack := (s.stack.drop start).take n ++ s.stack.drop n } n v) = _
      simp only [Machine.slot, read]
      show Machine.setSlot { s with stack := (s.stack.drop start).take n ++ s.stack.drop n } n _ = _
      rw [Machine.setSlot, if_pos (by simp; omega)]
      congr 2
      rw [List.set_append_right _ _ (by omega), length, Nat.sub_self, List.drop_eq_getElem_cons (show n < s.stack.length by omega),
        List.set_cons_zero, List.take_add_one, List.getElem?_drop, source]
      simp

theorem shift_room {start : Nat} (moved : shift s start n = .ok s') : n = 0 ∨ start + n ≤ s.stack.length := by
  induction n generalizing s' with
  | zero => exact .inl rfl
  | succ n ih =>
      rw [shift] at moved
      obtain ⟨s₁, before, moved⟩ := bind_ok.mp moved
      obtain ⟨v, read, -⟩ := bind_ok.mp moved
      have length : s₁.stack.length = s.stack.length := by
        rcases ih before with rfl | room
        · cases before
          rfl
        · rw [shift_ok room] at before
          cases before
          simp
          omega
      right
      by_contra outside
      rw [Machine.slot, List.getElem?_eq_none (by omega)] at read
      cases read

-- the state that a function with `n` arguments gets
def atEntry (s : Machine P) (n : Nat) : Except Stop (Machine P) := do
  let s ← shift s (s.ci.base + 1) n
  return { s with top := n }

def entry (s : Machine P) (args : List Value) : Machine P :=
  { s with stack := args ++ s.stack.drop args.length, top := args.length }

theorem live_entry (s : Machine P) (args : List Value) : live (entry s args) = args := List.take_left

theorem atEntry_eq (here : (s.stack.drop (s.ci.base + 1)).take args.length = args) :
    atEntry s args.length = .ok (entry s args) := by
  rcases Nat.eq_zero_or_pos args.length with none | some
  · have empty := List.length_eq_zero_iff.mp none
    subst empty
    rfl
  · have length := congrArg List.length here
    rw [List.length_take, List.length_drop] at length
    rw [atEntry, shift_ok (show s.ci.base + 1 + args.length ≤ s.stack.length by omega), here]
    rfl

theorem args_of_atEntry (entered : atEntry s args.length = .ok s₁) (same : live s₁ = args) :
    (s.stack.drop (s.ci.base + 1)).take args.length = args := by
  obtain ⟨s', moved, entered⟩ := bind_ok.mp entered
  cases entered
  rcases shift_room moved with none | room
  · rw [none, List.take_zero, List.length_eq_zero_iff.mp none]
  · rw [shift_ok room] at moved
    cases moved
    have length : ((s.stack.drop (s.ci.base + 1)).take args.length).length = args.length := by
      rw [List.length_take, List.length_drop]
      omega
    rw [live, List.take_append_of_le_length length.ge, List.take_of_length_le length.le] at same
    exact same

/-! ## The results -/

-- the status is put in front of the last value that is kept
def withStatus (status : Value) (kept : List Value) : List Value := kept.dropLast ++ status :: kept.getLast?.toList

theorem withStatus_concat (status : Value) (kept : List Value) (v : Value) :
    withStatus status (kept ++ [v]) = kept ++ [status, v] := by
  simp [withStatus]

-- one result is right behind the status; of more than one all but the last stand before it
theorem withStatus_singleton (status v : Value) : withStatus status [v] = [status, v] := rfl

theorem callCaught_function (callLua : Addr → Nat → Machine P → Except Stop (Outcome P))
    (inside : s.top ≤ s.stack.length) (called : live s = .cClosure a :: args)
    (entered : atEntry s args.length = .ok s₁) (k : Nat) (returned : host a s₁ = .ok (s₂, (k : Int))) :
    callCaught host callLua (s.top - 1) s = .ok (.returned { s₂ with top := k }) := by
  have length := live_length inside
  rw [called, List.length_cons] at length
  have first : s.stack[0]? = some (.cClosure a) := by
    rw [← List.getElem?_take_of_lt (show 0 < s.top by omega), ← live, called]
    rfl
  have count : s.top - 1 = args.length := by omega
  have bottom : s.top - (args.length + 1) = 0 := by omega
  obtain ⟨s', moved, entered⟩ := bind_ok.mp entered
  cases entered
  rw [callCaught, if_neg (by omega), count, bottom]
  simp only [Machine.slot, first, ok_bind, callC, moved, returned]
  rfl

theorem basePcall_returned (some : 0 < s.top)
    (returned : callCaught host callLua (s.top - 1) s = .ok (.returned s')) (inside : s'.top ≤ s'.stack.length)
    (counted : s'.top = rs.length) :
    (∃ s'', basePcall host callLua s = .ok (s'', (rs.length : Int) + 1) ∧ .boolean true :: rs <:+ live s'') ↔
      rs ≠ [] ∧ rs.length < s'.stack.length ∧ withStatus (.boolean true) (live s') = .boolean true :: rs := by
  have length := live_length inside
  rw [basePcall, if_neg some.ne', returned, ok_bind]
  by_cases room : s'.top < s'.stack.length
  · obtain ⟨s₁, push, live₁, top₁, stack₁⟩ := push_live room (.boolean true)
    simp only [push]
    rcases List.eq_nil_or_concat' (live s') with none | ⟨kept, v, values⟩
    · have short : s₁.top < 2 := by
        rw [none, List.length_nil] at length
        omega
      rw [insert_none short]
      refine iff_of_false ?_ ?_
      · rintro ⟨s'', result, -⟩
        cases result
      · rintro ⟨nonempty, -, -⟩
        rw [none, counted, List.length_nil] at length
        exact nonempty (List.length_eq_zero_iff.mp length.symm)
    · rw [values, List.append_assoc] at live₁
      obtain ⟨s₂, inserted, live₂, top₂⟩ := insert_last (by omega) live₁
      rw [inserted, values, withStatus_concat]
      have total : (live s₂).length = rs.length + 1 := by
        rw [live₂, ← counted, ← length, values]
        simp
      constructor
      · rintro ⟨s'', result, suffix⟩
        obtain ⟨rfl, -⟩ := Prod.mk.inj (Except.ok.inj result)
        refine ⟨?_, by omega, ?_⟩
        · rintro rfl
          rw [values, List.length_append, List.length_singleton, counted, List.length_nil] at length
          omega
        · rw [← live₂]
          exact (suffix.eq_of_length (by rw [total, List.length_cons])).symm
      · rintro ⟨-, -, same⟩
        refine ⟨s₂, ?_, ?_⟩
        · show Except.ok (s₂, (s₂.top : Int)) = _
          rw [top₂, top₁, counted]
          rfl
        · rw [live₂, same]
  · have full := push_full (not_lt.mp room) (.boolean true)
    simp only [full]
    refine iff_of_false ?_ (by omega)
    rintro ⟨s'', result, -⟩
    have none : (0 : Int) = (rs.length : Int) + 1 := congrArg Prod.snd (Except.ok.inj result)
    omega

theorem basePcall_failed (some : 0 < s.top) (failed : callCaught host callLua (s.top - 1) s = .ok (.failed s')) :
    (∃ s'' vs, basePcall host callLua s = .ok (s'', (vs.length : Int)) ∧ vs <:+ live s'' ∧
      vs.head? = Option.some (.boolean false)) ↔ 0 < s'.top ∧ s'.top < s'.stack.length := by
  rw [basePcall, if_neg some.ne', failed, ok_bind]
  by_cases room : s'.top < s'.stack.length
  · obtain ⟨s₁, push, live₁, top₁, stack₁⟩ := push_live room (.boolean false)
    have length := live_length room.le
    simp only [push]
    rcases List.eq_nil_or_concat' (live s') with none | ⟨kept, v, values⟩
    · rw [none, List.length_nil] at length
      rw [insert_none (by omega)]
      refine iff_of_false ?_ (by omega)
      rintro ⟨s'', vs, result, -⟩
      cases result
    · rw [values, List.append_assoc] at live₁
      obtain ⟨s₂, inserted, live₂, top₂⟩ := insert_last (by omega) live₁
      rw [inserted]
      rw [values, List.length_append, List.length_singleton] at length
      refine iff_of_true ⟨s₂, [.boolean false, v], rfl, ?_, rfl⟩ ⟨by omega, room⟩
      rw [live₂]
      exact List.suffix_append _ _
  · have full := push_full (not_lt.mp room) (.boolean false)
    simp only [full]
    refine iff_of_false ?_ (by omega)
    rintro ⟨s'', vs, result, -, status⟩
    have none : (0 : Int) = vs.length := congrArg Prod.snd (Except.ok.inj result)
    have empty : vs = [] := List.length_eq_zero_iff.mp (by exact_mod_cast none.symm)
    rw [empty] at status
    cases status

/-! ## Protected calls -/

-- the function gets the arguments, and whatever it returns normally follows the status
def Protects (host : Addr → Machine P → Except Stop (Machine P × Int))
    (callLua : Addr → Nat → Machine P → Except Stop (Outcome P)) (s : Machine P) (a : Addr) (args : List Value) : Prop :=
  ∃ s₁, atEntry s args.length = .ok s₁ ∧ live s₁ = args ∧
    ∀ s₂ rs, host a s₁ = .ok (s₂, (rs.length : Int)) → s₂.top ≤ s₂.stack.length → rs <:+ live s₂ →
      ∃ s', basePcall host callLua s = .ok (s', (rs.length : Int) + 1) ∧ .boolean true :: rs <:+ live s'

theorem basePcall_function (inside : s.top ≤ s.stack.length) (called : live s = .cClosure a :: args)
    (here : (s.stack.drop (s.ci.base + 1)).take args.length = args)
    (returned : host a (entry s args) = .ok (s₂, (rs.length : Int))) (inside₂ : s₂.top ≤ s₂.stack.length)
    (results : rs <:+ live s₂) :
    (∃ s', basePcall host callLua s = .ok (s', (rs.length : Int) + 1) ∧ .boolean true :: rs <:+ live s') ↔
      rs ≠ [] ∧ rs.length < s₂.stack.length ∧
        withStatus (.boolean true) (s₂.stack.take rs.length) = .boolean true :: rs := by
  have some : 0 < s.top := by
    have length := live_length inside
    rw [called, List.length_cons] at length
    omega
  have below : rs.length ≤ s₂.top := by
    have le := results.length_le
    rwa [live_length inside₂] at le
  have outcome := callCaught_function callLua inside called (atEntry_eq here) rs.length returned
  exact basePcall_returned some outcome (show rs.length ≤ s₂.stack.length by omega) rfl

theorem protects_iff (inside : s.top ≤ s.stack.length) (called : live s = .cClosure a :: args) :
    Protects host callLua s a args ↔ (s.stack.drop (s.ci.base + 1)).take args.length = args ∧
      ∀ s₂ rs, host a (entry s args) = .ok (s₂, (rs.length : Int)) → s₂.top ≤ s₂.stack.length → rs <:+ live s₂ →
        rs ≠ [] ∧ rs.length < s₂.stack.length ∧
          withStatus (.boolean true) (s₂.stack.take rs.length) = .boolean true :: rs := by
  constructor
  · rintro ⟨s₁, entered, same, all⟩
    have here := args_of_atEntry entered same
    rw [atEntry_eq here] at entered
    cases entered
    refine ⟨here, ?_⟩
    intro s₂ rs returned inside₂ results
    exact (basePcall_function inside called here returned inside₂ results).mp (all s₂ rs returned inside₂ results)
  · rintro ⟨here, all⟩
    refine ⟨_, atEntry_eq here, live_entry s args, ?_⟩
    intro s₂ rs returned inside₂ results
    exact (basePcall_function inside called here returned inside₂ results).mpr (all s₂ rs returned inside₂ results)

theorem pcall_iff (host : Addr → Machine P → Except Stop (Machine P × Int))
    (callLua : Addr → Nat → Machine P → Except Stop (Outcome P)) (s : Machine P) (inside : s.top ≤ s.stack.length) :
    (∀ a args, live s = .cClosure a :: args → (Protects host callLua s a args ↔
      (s.stack.drop (s.ci.base + 1)).take args.length = args ∧
        ∀ s₂ rs, host a (entry s args) = .ok (s₂, (rs.length : Int)) → s₂.top ≤ s₂.stack.length → rs <:+ live s₂ →
          rs ≠ [] ∧ rs.length < s₂.stack.length ∧
            withStatus (.boolean true) (s₂.stack.take rs.length) = .boolean true :: rs)) ∧
    ∀ s', 0 < s.top → callCaught host callLua (s.top - 1) s = .ok (.failed s') →
      ((∃ s'' vs, basePcall host callLua s = .ok (s'', (vs.length : Int)) ∧ vs <:+ live s'' ∧
        vs.head? = some (.boolean false)) ↔ 0 < s'.top ∧ s'.top < s'.stack.length) :=
  ⟨fun _ _ called => protects_iff inside called, fun _ some failed => basePcall_failed some failed⟩

-- a machine that calls `pcall` with one value
def protecting (f : Value) : Machine Platform.plain where
  stack := [f, .nil, .nil, .nil]
  top := 1
  globals := 0
  tables := []
  closures := []

-- a function that returns `n` times nil
def nils (n : Nat) (_ : Addr) (s : Machine Platform.plain) : Except Stop (Machine Platform.plain × Int) :=
  .ok ({ s with stack := List.replicate 4 .nil, top := n }, n)

-- Lua functions that do nothing
def idle (_ : Addr) (_ : Nat) (s : Machine Platform.plain) : Except Stop (Outcome Platform.plain) := .ok (.returned s)

theorem pcall_one :
    Protects (nils 1) idle (protecting (.cClosure 0)) 0 [] ∧
    ∃ s' vs, basePcall (nils 1) idle (protecting .nil) = .ok (s', (vs.length : Int)) ∧ vs <:+ live s' ∧
      vs.head? = some (.boolean false) := by
  constructor
  · refine ((pcall_iff (nils 1) idle (protecting (.cClosure 0)) (by decide)).1 0 [] rfl).mpr ⟨rfl, ?_⟩
    intro s₂ rs returned _ results
    obtain ⟨rfl, count⟩ := Prod.mk.inj (Except.ok.inj returned)
    have length : rs.length = 1 := by exact_mod_cast count.symm
    have same : rs = [.nil] := results.eq_of_length (by rw [length]; rfl)
    subst same
    exact ⟨by simp, by decide, rfl⟩
  · exact ((pcall_iff (nils 1) idle (protecting .nil) (by decide)).2 (protecting .nil) (by decide) rfl).mpr
      ⟨by decide, by decide⟩

-- of two results the status is between them, and without one there is no place for it
theorem pcall_two :
    ¬ Protects (nils 2) idle (protecting (.cClosure 0)) 0 [] ∧
    ¬ Protects (nils 0) idle (protecting (.cClosure 0)) 0 [] := by
  constructor
  · rw [protects_iff (by decide) rfl]
    rintro ⟨-, all⟩
    have two := (all _ [.nil, .nil] rfl (by decide) ⟨[], rfl⟩).2.2
    revert two
    decide
  · rw [protects_iff (by decide) rfl]
    rintro ⟨-, all⟩
    exact (all _ [] rfl (by decide) ⟨[], rfl⟩).1 rfl

end Zua.Stdlib
