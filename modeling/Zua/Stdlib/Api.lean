import Zua.Base.Shown
import Zua.Stdlib.Pcall

/-!
# The stack of the interface

The functions of `LuaState` that a library function calls work on an array with a top. The caller sees a list of
values: what is above the top never comes back.
-/

namespace Zua.Stdlib
open Object Vm

variable {P : Platform}

/-! ## The functions -/

def toValueAt (s : Machine P) (idx : Int) : Except Stop Value :=
  if 0 < idx then .ok (toValue s idx.toNat)
  else if idx < 0 then
    if s.top < (-idx).toNat then .error .panic else s.slot (s.top - (-idx).toNat)
  else .ok .nil

def toTableAt (s : Machine P) (idx : Int) : Except Stop (Option Addr) := do
  let v ← toValueAt s idx
  return match v with
    | .table a => some a
    | _ => none

def pop (s : Machine P) : Except Stop (Value × Machine P) :=
  if s.top = 0 then .error .panic
  else do
    let v ← s.slot (s.top - 1)
    return (v, { s with top := s.top - 1 })

-- the loop of `setTop`, over the slots that are missing
def fillNil (s : Machine P) : Nat → Except Stop (Machine P)
  | 0 => .ok s
  | n + 1 => do
      let s ← s.setSlot s.top .nil
      fillNil { s with top := s.top + 1 } n

def newTop (top : Nat) (idx : Int) : Except Stop Nat :=
  if 0 ≤ idx then .ok idx.toNat
  else if top < (-idx).toNat then .error .panic
  else .ok (top - (-idx).toNat)

def setTop (s : Machine P) (idx : Int) : Except Stop (Machine P) := do
  let n ← newTop s.top idx
  let s ← fillNil s (n - s.top)
  return { s with top := n }

def getTable (s : Machine P) (idx : Int) : Except Stop (Machine P) := do
  match ← toTableAt s idx with
  | none => s.push .nil
  | some a => do
      let r ← pop s
      let v ← r.2.tableGet a r.1
      r.2.push v

def setTable (s : Machine P) (idx : Int) : Except Stop (Machine P) := do
  match ← toTableAt s idx with
  | none => .error (.error .expectedTable)
  | some a => do
      let r ← pop s
      let r' ← pop r.2
      r'.2.tableSet a r'.1 r.1

def getField (s : Machine P) (idx : Int) (k : List UInt8) : Except Stop (Machine P) := do
  match ← toTableAt s idx with
  | none => s.push .nil
  | some a => do
      let v ← s.tableGet a (.string (P.intern k))
      s.push v

def setField (s : Machine P) (idx : Int) (k : List UInt8) : Except Stop (Machine P) := do
  match ← toTableAt s idx with
  | none => .error (.error .expectedTable)
  | some a => do
      let r ← pop s
      r.2.tableSet a (.string (P.intern k)) r.1

def getGlobal (s : Machine P) (name : List UInt8) : Except Stop (Machine P) := do
  let v ← s.tableGet s.globals (.string (P.intern name))
  s.push v

def setGlobal (s : Machine P) (name : List UInt8) : Except Stop (Machine P) := do
  let r ← pop s
  r.2.tableSet r.2.globals (.string (P.intern name)) r.1

def newTable (s : Machine P) : Except Stop (Machine P) :=
  ({ s with tables := s.tables ++ [Table.init P.hashMap] } : Machine P).push (.table s.tables.length)

-- what is no string is left out
def joined (vs : List Value) : List UInt8 :=
  vs.flatMap fun v =>
    match v with
    | .string str => str.data
    | _ => []

def slotsFrom (s : Machine P) (start : Nat) : Nat → Except Stop (List Value)
  | 0 => .ok []
  | n + 1 => do
      let v ← s.slot start
      let vs ← slotsFrom s (start + 1) n
      return v :: vs

def concat (s : Machine P) (n : Int) : Except Stop (Machine P) :=
  if n = 0 then s.push (.string (P.intern []))
  else if n < 0 ∨ s.top < n.toNat then .error .panic
  else do
    let vs ← slotsFrom s (s.top - n.toNat) n.toNat
    ({ s with top := s.top - n.toNat } : Machine P).push (.string (P.intern (joined vs)))

/-! ## What the caller sees -/

structure View (P : Platform) where
  values : List Value
  size : Nat
  outer : Machine P

def outside (s : Machine P) : Machine P := { s with stack := [], top := 0 }

def view (s : Machine P) : View P := ⟨live s, s.stack.length, outside s⟩

namespace View

def get (w : View P) (idx : Int) : Except Stop Value :=
  if 0 < idx then .ok (w.values.getD (idx.toNat - 1) .nil)
  else if idx < 0 then
    if w.values.length < (-idx).toNat then .error .panic
    else .ok (w.values.getD (w.values.length - (-idx).toNat) .nil)
  else .ok .nil

def table (w : View P) (idx : Int) : Except Stop (Option Addr) := do
  let v ← w.get idx
  return match v with
    | .table a => some a
    | _ => none

def push (w : View P) (v : Value) : Except Stop (View P) :=
  if w.size ≤ w.values.length then .error (.error .stackOverflow) else .ok { w with values := w.values ++ [v] }

def pop (w : View P) : Except Stop (Value × View P) :=
  match w.values.getLast? with
  | none => .error .panic
  | some v => .ok (v, { w with values := w.values.dropLast })

def setTop (w : View P) (idx : Int) : Except Stop (View P) := do
  let n ← newTop w.values.length idx
  if n ≤ w.size then
    return { w with values := w.values.take n ++ List.replicate (n - w.values.length) .nil }
  else .error .panic

def insertAt (w : View P) (pos : Nat) : View P :=
  match w.values.getLast? with
  | some v => if pos < w.values.length then { w with values := w.values.dropLast.insertIdx pos v } else w
  | none => w

def insert (w : View P) (idx : Int) : Except Stop (View P) :=
  if 0 < idx then .ok (w.insertAt (idx - 1).toNat)
  else if w.values.length < (-idx).toNat then .error .panic
  else .ok (w.insertAt (w.values.length - (-idx).toNat))

def tableSet (w : View P) (a : Addr) (k v : Value) : Except Stop (View P) := do
  let outer ← w.outer.tableSet a k v
  return { w with outer := outer }

def getTable (w : View P) (idx : Int) : Except Stop (View P) := do
  match ← w.table idx with
  | none => w.push .nil
  | some a => do
      let r ← w.pop
      let v ← r.2.outer.tableGet a r.1
      r.2.push v

def setTable (w : View P) (idx : Int) : Except Stop (View P) := do
  match ← w.table idx with
  | none => .error (.error .expectedTable)
  | some a => do
      let r ← w.pop
      let r' ← r.2.pop
      r'.2.tableSet a r'.1 r.1

def getField (w : View P) (idx : Int) (k : List UInt8) : Except Stop (View P) := do
  match ← w.table idx with
  | none => w.push .nil
  | some a => do
      let v ← w.outer.tableGet a (.string (P.intern k))
      w.push v

def setField (w : View P) (idx : Int) (k : List UInt8) : Except Stop (View P) := do
  match ← w.table idx with
  | none => .error (.error .expectedTable)
  | some a => do
      let r ← w.pop
      r.2.tableSet a (.string (P.intern k)) r.1

def getGlobal (w : View P) (name : List UInt8) : Except Stop (View P) := do
  let v ← w.outer.tableGet w.outer.globals (.string (P.intern name))
  w.push v

def setGlobal (w : View P) (name : List UInt8) : Except Stop (View P) := do
  let r ← w.pop
  r.2.tableSet r.2.outer.globals (.string (P.intern name)) r.1

def newTable (w : View P) : Except Stop (View P) :=
  { w with outer := { w.outer with tables := w.outer.tables ++ [Table.init P.hashMap] } }.push
    (.table w.outer.tables.length)

def concat (w : View P) (n : Int) : Except Stop (View P) :=
  if n = 0 then w.push (.string (P.intern []))
  else if n < 0 ∨ w.values.length < n.toNat then .error .panic
  else .ok { w with values := w.values.take (w.values.length - n.toNat) ++
      [.string (P.intern (joined (w.values.drop (w.values.length - n.toNat))))] }

end View

/-! ## Runs -/

inductive Op
  | push (v : Value) | pop | toValue (idx : Int) | setTop (idx : Int) | insert (idx : Int)
  | getTable (idx : Int) | setTable (idx : Int) | getField (idx : Int) (k : List UInt8) | setField (idx : Int) (k : List UInt8)
  | getGlobal (name : List UInt8) | setGlobal (name : List UInt8) | newTable | concat (n : Int)

def silent {S : Type} (x : Except Stop S) : Except Stop (List Value × S) := x.map fun s => ([], s)

-- with the values that the caller gets back
def act (s : Machine P) : Op → Except Stop (List Value × Machine P)
  | .push v => silent (s.push v)
  | .pop => (pop s).map fun r => ([r.1], r.2)
  | .toValue idx => (toValueAt s idx).map fun v => ([v], s)
  | .setTop idx => silent (setTop s idx)
  | .insert idx => silent (insert s idx)
  | .getTable idx => silent (getTable s idx)
  | .setTable idx => silent (setTable s idx)
  | .getField idx k => silent (getField s idx k)
  | .setField idx k => silent (setField s idx k)
  | .getGlobal name => silent (getGlobal s name)
  | .setGlobal name => silent (setGlobal s name)
  | .newTable => silent (newTable s)
  | .concat n => silent (concat s n)

def acts (s : Machine P) : List Op → Except Stop (List Value × Machine P)
  | [] => .ok ([], s)
  | op :: ops => do
      let r ← act s op
      let r' ← acts r.2 ops
      return (r.1 ++ r'.1, r'.2)

namespace View

def act (w : View P) : Op → Except Stop (List Value × View P)
  | .push v => silent (w.push v)
  | .pop => w.pop.map fun r => ([r.1], r.2)
  | .toValue idx => (w.get idx).map fun v => ([v], w)
  | .setTop idx => silent (w.setTop idx)
  | .insert idx => silent (w.insert idx)
  | .getTable idx => silent (w.getTable idx)
  | .setTable idx => silent (w.setTable idx)
  | .getField idx k => silent (w.getField idx k)
  | .setField idx k => silent (w.setField idx k)
  | .getGlobal name => silent (w.getGlobal name)
  | .setGlobal name => silent (w.setGlobal name)
  | .newTable => silent w.newTable
  | .concat n => silent (w.concat n)

def acts (w : View P) : List Op → Except Stop (List Value × View P)
  | [] => .ok ([], w)
  | op :: ops => do
      let r ← w.act op
      let r' ← r.2.acts ops
      return (r.1 ++ r'.1, r'.2)

end View

/-! ## The functions and the view -/

def Inside (s : Machine P) : Prop := s.top ≤ s.stack.length

abbrev Shows (x : Except Stop (Machine P)) (y : Except Stop (View P)) : Prop := Shown view Inside x y

variable {s : Machine P}

theorem getElem?_getD {vs : List Value} {i : Nat} (inside : i < vs.length) : vs[i]? = some (vs.getD i .nil) := by
  rw [List.getD_eq_getElem?_getD, List.getElem?_eq_getElem inside]
  rfl

theorem slot_getD {i : Nat} (inside : i < s.stack.length) : s.slot i = .ok (s.stack.getD i .nil) := by
  rw [Machine.slot, getElem?_getD inside]

theorem live_get? (i : Nat) : (live s)[i]? = if i < s.top then s.stack[i]? else none := List.getElem?_take

theorem live_getD (i : Nat) : (live s).getD i .nil = if i < s.top then s.stack.getD i .nil else .nil := by
  rw [List.getD_eq_getElem?_getD, live_get?]
  split
  · rw [List.getD_eq_getElem?_getD]
  · rfl

theorem live_getLast? (inside : Inside s) (some : 0 < s.top) :
    (live s).getLast? = Option.some (s.stack.getD (s.top - 1) .nil) := by
  have bound : s.top ≤ s.stack.length := inside
  rw [List.getLast?_eq_getElem?, live_length inside, live_get?, if_pos (by omega), getElem?_getD (by omega)]

theorem get_view (inside : Inside s) (idx : Int) : (view s).get idx = toValueAt s idx := by
  have length : (view s).values.length = s.top := live_length inside
  have value (i : Nat) : (view s).values.getD i .nil = if i < s.top then s.stack.getD i .nil else .nil := live_getD i
  unfold View.get toValueAt
  rw [length, value, value]
  split
  · rename_i positive
    rw [toValue]
    by_cases below : idx.toNat ≤ s.top
    · rw [if_pos (by omega), if_pos (by omega)]
    · rw [if_neg (by omega), if_neg (by omega)]
  · split
    · split
      · rfl
      · have inside : s.top ≤ s.stack.length := inside
        rw [if_pos (by omega), slot_getD (by omega)]
    · rfl

theorem table_view (inside : Inside s) (idx : Int) : (view s).table idx = toTableAt s idx := by
  rw [View.table, get_view inside]
  rfl

-- the values after a slot is filled
theorem take_pushed (room : s.top < s.stack.length) (v : Value) :
    (s.stack.set s.top v).take (s.top + 1) = live s ++ [v] := by
  rw [List.take_add_one, List.take_set_of_le le_rfl, List.getElem?_set_self room]
  rfl

theorem push_shown (inside : Inside s) (v : Value) : Shows (s.push v) ((view s).push v) := by
  have length : (view s).values.length = s.top := live_length inside
  unfold Machine.push View.push
  rw [length]
  show Shows (if s.stack.length ≤ s.top then _ else _) (if s.stack.length ≤ s.top then _ else _)
  split
  · exact .error _
  · rename_i room
    have room : s.top < s.stack.length := Nat.lt_of_not_le room
    have seen : view { s with stack := s.stack.set s.top v, top := s.top + 1 } = { view s with values := live s ++ [v] } := by
      simp only [view, live, List.length_set, outside]
      rw [take_pushed room, live]
    refine ⟨congrArg Except.ok seen, ?_⟩
    rintro _ ⟨⟩
    show s.top + 1 ≤ (s.stack.set s.top v).length
    rw [List.length_set]
    exact room

theorem pop_shown (inside : Inside s) : Shown (Prod.map id view) (fun r => Inside r.2) (pop s) (view s).pop := by
  have bound : s.top ≤ s.stack.length := inside
  unfold pop View.pop
  split
  · rename_i none
    have empty : (view s).values = [] := by
      show s.stack.take s.top = []
      rw [none]
      rfl
    rw [empty]
    exact .error _
  · have last : (view s).values.getLast? = some (s.stack.getD (s.top - 1) .nil) := live_getLast? inside (by omega)
    have front : live { s with top := s.top - 1 } = (view s).values.dropLast := by
      show s.stack.take (s.top - 1) = (live s).dropLast
      rw [List.dropLast_eq_take, live_length inside, live, List.take_take, min_eq_left (Nat.sub_le s.top 1)]
    rw [slot_getD (by omega), last]
    refine ⟨?_, ?_⟩
    · show Except.ok (_, view { s with top := s.top - 1 }) = Except.ok (_, { view s with values := (view s).values.dropLast })
      rw [← front]
      rfl
    · rintro _ ⟨⟩
      show s.top - 1 ≤ s.stack.length
      omega

theorem tableSet_outside (s : Machine P) (a : Addr) (k v : Value) :
    (∃ e, s.tableSet a k v = .error e ∧ (outside s).tableSet a k v = .error e) ∨
      ∃ tables, s.tableSet a k v = .ok { s with tables := tables } ∧
        (outside s).tableSet a k v = .ok { outside s with tables := tables } := by
  have tables : (outside s).tables = s.tables := rfl
  unfold Machine.tableSet
  rw [tables]
  cases s.tables[a]? with
  | none => exact .inl ⟨_, rfl, rfl⟩
  | some t =>
      dsimp only
      cases t.set k v with
      | error fault => exact .inl ⟨_, rfl, rfl⟩
      | ok t => exact .inr ⟨_, rfl, rfl⟩

theorem tableSet_shown (inside : Inside s) (a : Addr) (k v : Value) : Shows (s.tableSet a k v) ((view s).tableSet a k v) := by
  have outer : (view s).outer = outside s := rfl
  rw [View.tableSet, outer]
  rcases tableSet_outside s a k v with ⟨e, run, run'⟩ | ⟨tables, run, run'⟩
  · rw [run, run']
    exact .error e
  · rw [run, run']
    have kept : Inside { s with tables := tables } := inside
    exact .ok kept

theorem fillNil_ok {n : Nat} (room : s.top + n ≤ s.stack.length) : ∃ stack,
    fillNil s n = .ok { s with stack := stack, top := s.top + n } ∧ stack.length = s.stack.length ∧
      stack.take (s.top + n) = live s ++ List.replicate n .nil := by
  induction n generalizing s with
  | zero => exact ⟨s.stack, rfl, rfl, (List.append_nil _).symm⟩
  | succ n ih =>
      have inside : s.top < s.stack.length := by omega
      have room' : s.top + 1 + n ≤ (s.stack.set s.top Value.nil).length := by
        rw [List.length_set]
        omega
      obtain ⟨stack, run, length, values⟩ := ih (s := { s with stack := s.stack.set s.top .nil, top := s.top + 1 }) room'
      have sum : s.top + 1 + n = s.top + (n + 1) := by omega
      refine ⟨stack, ?_, length.trans List.length_set, ?_⟩
      · rw [fillNil, Machine.setSlot, if_pos inside]
        refine run.trans ?_
        rw [← sum]
      · rw [← sum]
        refine values.trans ?_
        rw [live, take_pushed inside, List.append_assoc]
        rfl

theorem fillNil_full {n : Nat} (inside : Inside s) (full : s.stack.length < s.top + n) : fillNil s n = .error .panic := by
  induction n generalizing s with
  | zero => exact absurd inside (by unfold Inside; omega)
  | succ n ih =>
      rw [fillNil, Machine.setSlot]
      split
      · rename_i room
        refine ih (s := { s with stack := s.stack.set s.top .nil, top := s.top + 1 }) ?_ ?_
        · show s.top + 1 ≤ (s.stack.set s.top Value.nil).length
          rw [List.length_set]
          exact room
        · show (s.stack.set s.top Value.nil).length < s.top + 1 + n
          rw [List.length_set]
          omega
      · rfl

theorem setTop_shown (inside : Inside s) (idx : Int) : Shows (setTop s idx) ((view s).setTop idx) := by
  have length : (view s).values.length = s.top := live_length inside
  have bound : s.top ≤ s.stack.length := inside
  unfold setTop View.setTop
  rw [length]
  refine (Shown.read (newTop s.top idx)).bind fun n _ => ?_
  show Shows (fillNil s (n - s.top) >>= fun s => .ok { s with top := n }) (if n ≤ s.stack.length then _ else _)
  split
  · rename_i room
    obtain ⟨stack, run, same, values⟩ := fillNil_ok (s := s) (n := n - s.top) (by omega)
    have taken : stack.take n = (live s).take n ++ List.replicate (n - s.top) Value.nil := by
      have within : n ≤ s.top + (n - s.top) := by omega
      calc stack.take n = (stack.take (s.top + (n - s.top))).take n := by rw [List.take_take, min_eq_left within]
        _ = (live s ++ List.replicate (n - s.top) Value.nil).take n := by rw [values]
        _ = (live s).take n ++ List.replicate (n - s.top) Value.nil := by
          rw [List.take_append, live_length inside, List.take_replicate, min_self]
    rw [run]
    refine ⟨?_, ?_⟩
    · show Except.ok (View.mk (stack.take n) stack.length (outside s)) = _
      rw [taken, same]
      rfl
    · rintro _ ⟨⟩
      show n ≤ stack.length
      omega
  · rw [fillNil_full inside (by omega)]
    exact .error _

theorem moveUp_ok {pos i : Nat} (inside : i < s.stack.length) : ∃ stack, moveUp s pos i = .ok { s with stack := stack } ∧
    stack.length = s.stack.length ∧ ∀ k : Nat, stack[k]? = if pos < k ∧ k ≤ i then s.stack[k - 1]? else s.stack[k]? := by
  induction i generalizing s with
  | zero => exact ⟨s.stack, rfl, rfl, fun k => (if_neg (by omega)).symm⟩
  | succ i ih =>
      rw [moveUp]
      split
      · have shorter : i < (s.stack.set (i + 1) (s.stack.getD i .nil)).length := by
          rw [List.length_set]
          omega
        obtain ⟨stack, run, length, each⟩ := ih (s := { s with stack := s.stack.set (i + 1) (s.stack.getD i .nil) }) shorter
        refine ⟨stack, ?_, length.trans List.length_set, fun k => ?_⟩
        · rw [slot_getD (by omega)]
          show (s.setSlot (i + 1) (s.stack.getD i .nil) >>= fun s => moveUp s pos i) = _
          rw [Machine.setSlot, if_pos inside]
          exact run
        · rw [each]
          have here : s.stack[i]? = some (s.stack.getD i .nil) := getElem?_getD (by omega)
          simp only [List.getElem?_set, if_pos inside]
          split
          · rename_i moved
            rw [if_neg (by omega), if_pos (by omega)]
          · split
            · rename_i last
              subst last
              rw [if_pos (by omega), Nat.add_sub_cancel, here]
            · rw [if_neg (by omega)]
      · exact ⟨s.stack, rfl, rfl, fun k => (if_neg (by omega)).symm⟩

theorem insertPos_shown (inside : Inside s) (pos : Nat) : Shows (insertPos s pos) (.ok ((view s).insertAt pos)) := by
  have length : (view s).values.length = s.top := live_length inside
  have bound : s.top ≤ s.stack.length := inside
  unfold insertPos
  split
  · rename_i outside
    have same : (view s).insertAt pos = view s := by
      unfold View.insertAt
      split
      · rw [if_neg (by omega)]
      · rfl
    rw [same]
    exact .ok inside
  · rename_i within
    have last : (view s).values.getLast? = some (s.stack.getD (s.top - 1) .nil) := live_getLast? inside (by omega)
    obtain ⟨stack, run, same, each⟩ := @moveUp_ok P s pos (s.top - 1) (by omega)
    rw [slot_getD (by omega)]
    show Shows (moveUp s pos (s.top - 1) >>= fun s' => s'.setSlot pos (s.stack.getD (s.top - 1) .nil)) _
    rw [run]
    show Shows (Machine.setSlot { s with stack := stack } pos (s.stack.getD (s.top - 1) .nil)) _
    rw [Machine.setSlot, if_pos (show pos < stack.length by omega)]
    have values : (stack.set pos (s.stack.getD (s.top - 1) .nil)).take s.top =
        (live s).dropLast.insertIdx pos (s.stack.getD (s.top - 1) .nil) := by
      apply List.ext_getElem?
      intro k
      have front (i : Nat) : (live s).dropLast[i]? = if i < s.top - 1 then s.stack[i]? else none := by
        rw [List.getElem?_dropLast, live_length inside, live_get?]
        split
        · rw [if_pos (by omega)]
        · rfl
      rw [List.getElem?_take, List.getElem?_insertIdx, List.getElem?_set, List.length_dropLast, live_length inside, front, front,
        each]
      rcases Nat.lt_trichotomy k pos with before | rfl | behind
      · rw [if_pos before, if_pos (by omega), if_neg (by omega), if_neg (by omega), if_pos (by omega)]
      · rw [if_neg (Nat.lt_irrefl k), if_pos rfl, if_pos (by omega), if_pos rfl, if_pos (by omega), if_pos (by omega)]
      · by_cases below : k < s.top
        · rw [if_pos below, if_neg (by omega), if_pos (by omega), if_neg (by omega), if_neg (by omega), if_pos (by omega)]
        · rw [if_neg below, if_neg (by omega), if_neg (by omega), if_neg (by omega)]
    refine ⟨?_, ?_⟩
    · unfold View.insertAt
      rw [last]
      dsimp only
      rw [if_pos (by omega)]
      show Except.ok (View.mk ((stack.set pos (s.stack.getD (s.top - 1) .nil)).take s.top)
        (stack.set pos (s.stack.getD (s.top - 1) .nil)).length (outside s)) = _
      rw [values, List.length_set, same]
      rfl
    · rintro _ ⟨⟩
      show s.top ≤ (stack.set pos (s.stack.getD (s.top - 1) .nil)).length
      rw [List.length_set]
      omega

theorem insert_shown (inside : Inside s) (idx : Int) : Shows (insert s idx) ((view s).insert idx) := by
  have length : (view s).values.length = s.top := live_length inside
  unfold insert View.insert
  rw [length]
  split
  · exact insertPos_shown inside _
  · split
    · exact .error _
    · exact insertPos_shown inside _

theorem slotsFrom_ok {start n : Nat} (room : start + n ≤ s.stack.length) :
    slotsFrom s start n = .ok ((s.stack.drop start).take n) := by
  induction n generalizing start with
  | zero => rfl
  | succ n ih =>
      have here : start < s.stack.length := by omega
      rw [slotsFrom, slot_getD here]
      show (slotsFrom s (start + 1) n >>= fun vs => .ok (s.stack.getD start .nil :: vs)) = _
      rw [ih (by omega), List.drop_eq_getElem_cons here, List.take_succ_cons, List.getD_eq_getElem?_getD,
        List.getElem?_eq_getElem here]
      rfl

theorem concat_shown (inside : Inside s) (n : Int) : Shows (concat s n) ((view s).concat n) := by
  have length : (view s).values.length = s.top := live_length inside
  have bound : s.top ≤ s.stack.length := inside
  unfold concat View.concat
  rw [length]
  split
  · exact push_shown inside _
  · split
    · exact .error _
    · have read : slotsFrom s (s.top - n.toNat) n.toNat = .ok ((live s).drop (s.top - n.toNat)) := by
        rw [slotsFrom_ok (by omega), live, List.drop_take, show s.top - (s.top - n.toNat) = n.toNat by omega]
      rw [read]
      have lower : Inside { s with top := s.top - n.toNat } := by
        show s.top - n.toNat ≤ s.stack.length
        omega
      have shown := push_shown lower (.string (P.intern (joined ((live s).drop (s.top - n.toNat)))))
      have room : (view { s with top := s.top - n.toNat }).push
          (.string (P.intern (joined ((live s).drop (s.top - n.toNat))))) = .ok { view s with
            values := (view s).values.take (s.top - n.toNat) ++
              [.string (P.intern (joined ((live s).drop (s.top - n.toNat))))] } := by
        have front : live { s with top := s.top - n.toNat } = (live s).take (s.top - n.toNat) := by
          show s.stack.take (s.top - n.toNat) = (s.stack.take s.top).take (s.top - n.toNat)
          rw [List.take_take, min_eq_left (Nat.sub_le _ _)]
        have fewer : (view { s with top := s.top - n.toNat }).values.length = s.top - n.toNat := live_length lower
        have size : (view { s with top := s.top - n.toNat }).size = s.stack.length := rfl
        unfold View.push
        rw [fewer, size, if_neg (by omega)]
        show Except.ok (View.mk (live { s with top := s.top - n.toNat } ++ _) s.stack.length (outside s)) = _
        rw [front]
        rfl
      rw [room] at shown
      exact shown

theorem getTable_shown (inside : Inside s) (idx : Int) : Shows (getTable s idx) ((view s).getTable idx) := by
  unfold getTable View.getTable
  rw [table_view inside]
  refine (Shown.read (toTableAt s idx)).bind fun t _ => ?_
  cases t with
  | none => exact push_shown inside .nil
  | some a =>
      refine (pop_shown inside).bind fun r kept => ?_
      refine (Shown.read (r.2.tableGet a r.1)).bind fun v _ => ?_
      exact push_shown kept v

theorem setTable_shown (inside : Inside s) (idx : Int) : Shows (setTable s idx) ((view s).setTable idx) := by
  unfold setTable View.setTable
  rw [table_view inside]
  refine (Shown.read (toTableAt s idx)).bind fun t _ => ?_
  cases t with
  | none => exact .error _
  | some a =>
      refine (pop_shown inside).bind fun r kept => ?_
      refine (pop_shown kept).bind fun r' kept' => ?_
      exact tableSet_shown kept' a r'.1 r.1

theorem getField_shown (inside : Inside s) (idx : Int) (k : List UInt8) : Shows (getField s idx k) ((view s).getField idx k) := by
  unfold getField View.getField
  rw [table_view inside]
  refine (Shown.read (toTableAt s idx)).bind fun t _ => ?_
  cases t with
  | none => exact push_shown inside .nil
  | some a => exact (Shown.read (s.tableGet a (.string (P.intern k)))).bind fun v _ => push_shown inside v

theorem setField_shown (inside : Inside s) (idx : Int) (k : List UInt8) : Shows (setField s idx k) ((view s).setField idx k) := by
  unfold setField View.setField
  rw [table_view inside]
  refine (Shown.read (toTableAt s idx)).bind fun t _ => ?_
  cases t with
  | none => exact .error _
  | some a => exact (pop_shown inside).bind fun r kept => tableSet_shown kept a (.string (P.intern k)) r.1

theorem getGlobal_shown (inside : Inside s) (name : List UInt8) : Shows (getGlobal s name) ((view s).getGlobal name) :=
  (Shown.read (s.tableGet s.globals (.string (P.intern name)))).bind fun v _ => push_shown inside v

theorem setGlobal_shown (inside : Inside s) (name : List UInt8) : Shows (setGlobal s name) ((view s).setGlobal name) :=
  (pop_shown inside).bind fun r kept => tableSet_shown kept r.2.globals (.string (P.intern name)) r.1

theorem newTable_shown (inside : Inside s) : Shows (newTable s) (view s).newTable := by
  have kept : Inside { s with tables := s.tables ++ [Table.init P.hashMap] } := inside
  exact push_shown kept (.table s.tables.length)

/-! ## Runs and the view -/

theorem silent_shown {x : Except Stop (Machine P)} {y : Except Stop (View P)} (shown : Shows x y) :
    Shown (Prod.map id view) (fun r => Inside r.2) (silent x) (silent y) :=
  Shown.map shown (fun _ => rfl) fun _ kept => kept

theorem act_shown (inside : Inside s) (op : Op) :
    Shown (Prod.map id view) (fun r => Inside r.2) (act s op) ((view s).act op) := by
  cases op with
  | push v => exact silent_shown (push_shown inside v)
  | pop => exact (pop_shown inside).map (fun _ => rfl) fun _ kept => kept
  | toValue idx =>
      show Shown _ _ ((toValueAt s idx).map fun v => ([v], s)) (((view s).get idx).map fun v => ([v], view s))
      rw [get_view inside]
      exact (Shown.read (toValueAt s idx)).map (fun _ => rfl) fun _ _ => inside
  | setTop idx => exact silent_shown (setTop_shown inside idx)
  | insert idx => exact silent_shown (insert_shown inside idx)
  | getTable idx => exact silent_shown (getTable_shown inside idx)
  | setTable idx => exact silent_shown (setTable_shown inside idx)
  | getField idx k => exact silent_shown (getField_shown inside idx k)
  | setField idx k => exact silent_shown (setField_shown inside idx k)
  | getGlobal name => exact silent_shown (getGlobal_shown inside name)
  | setGlobal name => exact silent_shown (setGlobal_shown inside name)
  | newTable => exact silent_shown (newTable_shown inside)
  | concat n => exact silent_shown (concat_shown inside n)

theorem acts_shown (inside : Inside s) (ops : List Op) :
    Shown (Prod.map id view) (fun r => Inside r.2) (acts s ops) ((view s).acts ops) := by
  induction ops generalizing s with
  | nil => exact .ok inside
  | cons op ops ih =>
      refine (act_shown inside op).bind fun r kept => ?_
      exact (ih kept).bind fun r' kept' => .ok kept'

-- a library function cannot tell the stack from a list of values
theorem api_refines_list (s : Machine P) (inside : s.top ≤ s.stack.length) (ops : List Op) :
    (acts s ops).map (Prod.map id view) = (view s).acts ops ∧
      (∀ r, acts s ops = .ok r → r.2.top ≤ r.2.stack.length) ∧
      ∀ s' : Machine P, s'.top ≤ s'.stack.length → view s' = view s →
        (acts s' ops).map (Prod.map id view) = (acts s ops).map (Prod.map id view) := by
  have shown := acts_shown inside ops
  refine ⟨shown.same, shown.holds, fun s' inside' seen => ?_⟩
  have shown' := acts_shown (s := s') inside' ops
  rw [shown'.same, shown.same, seen]

-- what is above the top differs
def fourSlots : Machine Platform.plain where
  stack := [.nil, .number F64.one, .nil, .nil]
  globals := 0
  tables := [Table.init _]
  closures := []

def someOps : List Op := [.push (.boolean true), .newTable, .insert 1, .pop, .setTop 3, .toValue (-1), .setTop (-4)]

theorem api_refines_list_sample :
    (acts fourSlots someOps).map (Prod.map id view) = (view fourSlots).acts someOps :=
  (api_refines_list fourSlots (Nat.zero_le _) someOps).1

end Zua.Stdlib
