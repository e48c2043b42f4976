import Zua.Object.Border
import Zua.Base.Except
import Zua.Vm.Machine

/-!
# The table library

The functions of `stdlib.zig` on tables. The arguments are at the bottom of the stack, and the results are
pushed. The loops move one value after the other, from `length` on, and `length` never exceeds 50.
-/

namespace Zua.Stdlib
open Object Vm
open Value (keyContext)

/-! ## Tables as functions of the integers -/

section Stores

variable {H : HashMap Value Value keyContext} {t t' : Table H} {f g : Nat → Value} {n i pos : Nat} {v : Value}

-- what calls of `set` with usable keys lead to
inductive Reached : Table H → Prop
  | init : Reached (Table.init H)
  | set {t t' : Table H} {k v : Value} : Reached t → k.Usable → t.set k v = .ok t' → Reached t'

theorem Reached.inv (reached : Reached t) : t.Inv := by
  induction reached with
  | init => exact Table.inv_init
  | @set t t' k v _ usable step ih =>
      obtain ⟨other, run, inv, -⟩ := Table.set_lookup (v := v) ih usable
      rw [step] at run
      cases run
      exact inv

-- the keys with a value are integers, and the value of `n` is `f n`
structure Stores (t : Table H) (f : Nat → Value) : Prop where
  reached : Reached t
  here : ∀ n, 0 < n → n < 2 ^ 53 → t.get (key n) = .ok (f n)
  only : ∀ q, q.Usable → (∀ n, 0 < n → n < 2 ^ 53 → (key n).eql q = false) → t.get q = .ok .nil

theorem Stores.congr (stores : Stores t f) (same : ∀ n, 0 < n → n < 2 ^ 53 → f n = g n) : Stores t g where
  reached := stores.reached
  here n positive small := by rw [← same n positive small]; exact stores.here n positive small
  only := stores.only

theorem Stores.unique (stores : Stores t f) (stores' : Stores t g) (positive : 0 < n) (small : n < 2 ^ 53) :
    f n = g n := by
  have first := stores.here n positive small
  rw [stores'.here n positive small] at first
  exact (Except.ok.inj first).symm

-- `t.get` and `t.set` with an integer as key; it is never nil, so that only a conversion can fail
def getKey (t : Table H) (n : Nat) : Except Stop Value := (t.get (key n)).mapError fun _ => .panic
def setKey (t : Table H) (n : Nat) (v : Value) : Except Stop (Table H) := (t.set (key n) v).mapError fun _ => .panic

theorem Stores.getKey (stores : Stores t f) (positive : 0 < n) (small : n < 2 ^ 53) : getKey t n = .ok (f n) := by
  rw [Stdlib.getKey, stores.here n positive small]
  rfl

theorem Stores.setKey (stores : Stores t f) (v : Value) (positive : 0 < n) (small : n < 2 ^ 53) :
    ∃ t', setKey t n v = .ok t' ∧ Stores t' (Function.update f n v) := by
  have usable := Table.key_usable positive small
  have inv := stores.reached.inv
  obtain ⟨t', run, inv', found⟩ := Table.set_lookup (v := v) inv usable
  have get (q : Value) (good : q.Usable) : t'.get q = if (key n).eql q then .ok v else t.get q := by
    rw [Table.get_eq inv' good, Table.get_eq inv good, found q good]
    split <;> rfl
  refine ⟨t', by rw [Stdlib.setKey, run]; rfl, .set stores.reached usable run, ?_, ?_⟩
  · intro m positive' small'
    rw [get (key m) (Table.key_usable positive' small'), stores.here m positive' small']
    by_cases same : n = m
    · subst same
      rw [if_pos (Value.eql_refl usable.notNan), Function.update_self]
    · have other : ¬ (key n).eql (key m) = true := fun equal => same ((Table.key_eql positive small positive' small').mp equal)
      rw [if_neg other, Function.update_of_ne (Ne.symm same)]
  · intro q good others
    rw [get q good, others n positive small]
    exact stores.only q good others

/-! ## Moving values -/

-- `t[dst] = t[src]`
def moveKey (t : Table H) (src dst : Nat) : Except Stop (Table H) := do
  let v ← getKey t src
  setKey t dst v

theorem Stores.moveKey {src dst : Nat} (stores : Stores t f) (positive : 0 < src) (small : src < 2 ^ 53)
    (positive' : 0 < dst) (small' : dst < 2 ^ 53) :
    ∃ t', moveKey t src dst = .ok t' ∧ Stores t' (Function.update f dst (f src)) := by
  obtain ⟨t', run, stores'⟩ := stores.setKey (f src) positive' small'
  refine ⟨t', ?_, stores'⟩
  rw [Stdlib.moveKey, stores.getKey positive small]
  exact run

-- one up, from index `i` down to `pos`; below index 0 the index overflows
def shiftUp (t : Table H) (pos : Nat) : Nat → Except Stop (Table H)
  | 0 => if pos = 0 then .error .panic else .ok t
  | i + 1 =>
      if pos ≤ i + 1 then do
        let t ← moveKey t (i + 1) (i + 2)
        shiftUp t pos i
      else .ok t

theorem Stores.shiftUp (stores : Stores t f) (positive : 0 < pos) (small : i + 1 < 2 ^ 53) :
    ∃ t', shiftUp t pos i = .ok t' ∧ Stores t' fun n => if pos < n ∧ n ≤ i + 1 then f (n - 1) else f n := by
  induction i generalizing t f with
  | zero =>
      refine ⟨t, if_neg (by omega), stores.congr ?_⟩
      intro n _ _
      rw [if_neg (by omega)]
  | succ i ih =>
      unfold Stdlib.shiftUp
      by_cases le : pos ≤ i + 1
      · obtain ⟨t₁, moved, stores₁⟩ := stores.moveKey (Nat.succ_pos i) (by omega) (Nat.succ_pos (i + 1)) small
        obtain ⟨t₂, rest, stores₂⟩ := ih stores₁ (by omega)
        refine ⟨t₂, ?_, stores₂.congr ?_⟩
        · rw [if_pos le, moved]
          exact rest
        · intro n _ _
          by_cases last : n = i + 2
          · subst last
            rw [if_neg (by omega), if_pos (by omega), Function.update_self]
            rfl
          · by_cases within : pos < n ∧ n ≤ i + 1
            · rw [if_pos within, if_pos (by omega), Function.update_of_ne (by omega)]
            · rw [if_neg within, if_neg (by omega), Function.update_of_ne last]
      · refine ⟨t, if_neg le, stores.congr ?_⟩
        intro n _ _
        rw [if_neg (by omega)]

-- one down, `n` values from index `i` on
def shiftDown (t : Table H) (i : Nat) : Nat → Except Stop (Table H)
  | 0 => .ok t
  | n + 1 => do
      let t ← moveKey t (i + 1) i
      shiftDown t (i + 1) n

theorem Stores.shiftDown {count : Nat} (stores : Stores t f) (positive : 0 < i) (small : i + count < 2 ^ 53) :
    ∃ t', shiftDown t i count = .ok t' ∧ Stores t' fun n => if i ≤ n ∧ n < i + count then f (n + 1) else f n := by
  induction count generalizing t f i with
  | zero =>
      refine ⟨t, rfl, stores.congr ?_⟩
      intro n _ _
      rw [if_neg (by omega)]
  | succ count ih =>
      obtain ⟨t₁, moved, stores₁⟩ := stores.moveKey (Nat.succ_pos i) (by omega) positive (by omega)
      obtain ⟨t₂, rest, stores₂⟩ := ih stores₁ (Nat.succ_pos i) (by omega)
      refine ⟨t₂, ?_, stores₂.congr ?_⟩
      · rw [Stdlib.shiftDown, moved]
        exact rest
      · intro n _ _
        by_cases first : n = i
        · subst first
          rw [if_neg (by omega), if_pos (by omega), Function.update_self]
        · by_cases within : i + 1 ≤ n ∧ n < i + 1 + count
          · rw [if_pos within, if_pos (by omega), Function.update_of_ne (by omega)]
          · rw [if_neg within, if_neg (by omega), Function.update_of_ne first]

end Stores

/-! ## Sequences -/

section Sequence

variable {H : HashMap Value Value keyContext} {t : Table H} {f : Nat → Value} {vs : List Value} {n : Nat}

def content (vs : List Value) (n : Nat) : Value := vs.getD (n - 1) .nil

-- a table with the values `vs` at 1, 2 and so on, and no others
structure Sequence (t : Table H) (vs : List Value) : Prop where
  stores : Stores t (content vs)
  some : ∀ v ∈ vs, v ≠ .nil

theorem content_eq_nil_iff (some : ∀ v ∈ vs, v ≠ .nil) (positive : 0 < n) : content vs n = .nil ↔ vs.length < n := by
  rw [content, List.getD_eq_getElem?_getD]
  cases located : vs[n - 1]? with
  | none =>
      have outside := List.getElem?_eq_none_iff.mp located
      exact iff_of_true rfl (by omega)
  | some v =>
      have inside := (List.getElem?_eq_some_iff.mp located).1
      exact iff_of_false (some v (List.mem_of_getElem? located)) (by omega)

-- `length` sees the first 50 values
theorem Sequence.length (sequence : Sequence t vs) : t.length = min vs.length 50 := by
  have parted := sequence.stores.reached.inv.parted
  have le := Table.length_le parted
  have empty {n : Nat} (positive : 0 < n) (small : n ≤ 50) : t.get (key n) = .ok .nil ↔ vs.length < n := by
    rw [sequence.stores.here n positive (by omega), ← content_eq_nil_iff sequence.some positive]
    exact ⟨Except.ok.inj, congrArg Except.ok⟩
  have below : t.length ≤ vs.length := by
    by_contra less
    have positive : 0 < t.length := by omega
    exact Table.get_length parted positive ((empty positive le).mpr (by omega))
  by_contra other
  have above := (empty (n := t.length + 1) (Nat.succ_pos _) (by omega)).mp
    (Table.get_above parted (Nat.lt_succ_self _) (by omega))
  omega

theorem content_append {w : Value} (n : Nat) (positive : 0 < n) :
    content (vs ++ [w]) n = if n = vs.length + 1 then w else content vs n := by
  rw [content, content, List.getD_eq_getElem?_getD, List.getD_eq_getElem?_getD]
  rcases Nat.lt_trichotomy n (vs.length + 1) with less | rfl | more
  · rw [if_neg less.ne, List.getElem?_append_left (by omega)]
  · rw [if_pos rfl, Nat.add_sub_cancel, List.getElem?_concat_length]
    rfl
  · rw [if_neg more.ne', List.getElem?_eq_none (by simp; omega), List.getElem?_eq_none (by omega)]

theorem init_get (H : HashMap Value Value keyContext) {q : Value} (usable : q.Usable) :
    (Table.init H).get q = .ok .nil := by
  obtain ⟨t, run, inv, found⟩ := Table.setAll_lookup (H := H) [] (by simp)
  cases run
  rw [Table.get_eq inv usable, found q usable]
  rfl

theorem stores_init (H : HashMap Value Value keyContext) : Stores (Table.init H) (content []) where
  reached := .init
  here _ positive small := init_get H (Table.key_usable positive small)
  only _ usable _ := init_get H usable

theorem exists_sequence (H : HashMap Value Value keyContext) (vs : List Value) (some : ∀ v ∈ vs, v ≠ .nil)
    (small : vs.length < 2 ^ 53) : ∃ t : Table H, Sequence t vs := by
  induction vs using List.reverseRecOn with
  | nil => exact ⟨Table.init H, stores_init H, some⟩
  | append_singleton vs w ih =>
      rw [List.length_append, List.length_singleton] at small
      obtain ⟨t, sequence⟩ := ih (fun v member => some v (List.mem_append_left _ member)) (by omega)
      obtain ⟨t', -, stores⟩ := sequence.stores.setKey w (Nat.succ_pos vs.length) small
      refine ⟨t', stores.congr ?_, some⟩
      intro n positive _
      rw [content_append n positive]
      by_cases last : n = vs.length + 1
      · subst last
        rw [Function.update_self, if_pos rfl]
      · rw [Function.update_of_ne last, if_neg last]

end Sequence

/-! ## The functions -/

section Functions

variable {P : Platform} (parseFloat : List UInt8 → Option F64)

def toValue (s : Machine P) (idx : Nat) : Value :=
  if 0 < idx ∧ idx ≤ s.top then s.stack.getD (idx - 1) .nil else .nil

def toTable (s : Machine P) (idx : Nat) : Option Addr :=
  match toValue s idx with
  | .table a => some a
  | _ => none

def toNumber (s : Machine P) (idx : Nat) : Option F64 :=
  match toValue s idx with
  | .number n => some n
  | .string str => parseFloat str.data
  | _ => none

-- `@intFromFloat` to a `usize`
def intFromFloat (n : F64) : Except Stop Nat :=
  match n.toUsize with
  | some idx => if n.sign && idx ≠ 0 then .error .panic else .ok idx
  | none => .error .panic

def tableAt (s : Machine P) (a : Addr) : Except Stop (Table P.hashMap) :=
  match s.tables[a]? with
  | some t => .ok t
  | none => .error .panic

def insertAt (s : Machine P) (t : Table P.hashMap) : Except Stop (Table P.hashMap) := do
  let pos ← intFromFloat ((toNumber parseFloat s 2).getD F64.one)
  let t ← shiftUp t pos t.length
  setKey t pos (toValue s 3)

def tableInsert (s : Machine P) : Except Stop (Machine P × Int) :=
  match toTable s 1 with
  | none => .ok (s, 0)
  | some a => do
      let t ← tableAt s a
      let t ←
        if s.top = 2 then setKey t (t.length + 1) (toValue s 2)
        else if s.top = 3 then insertAt parseFloat s t
        else .ok t
      return ({ s with tables := s.tables.set a t }, 0)

def removePosition (s : Machine P) (len : Nat) : Except Stop Nat :=
  if 2 ≤ s.top then intFromFloat ((toNumber parseFloat s 2).getD (F64.floatFromInt len)) else .ok len

def removeAt (s : Machine P) (a : Addr) (t : Table P.hashMap) (pos : Nat) : Except Stop (Machine P × Int) := do
  let val ← getKey t pos
  match s.push val with
  | .error _ => return (s, 0)
  | .ok s => do
      let t' ← shiftDown t pos (t.length - pos)
      let t' ← setKey t' t.length .nil
      return ({ s with tables := s.tables.set a t' }, 1)

def pushNil (s : Machine P) : Machine P × Int :=
  match s.push .nil with
  | .error _ => (s, 0)
  | .ok s => (s, 1)

def tableRemove (s : Machine P) : Except Stop (Machine P × Int) :=
  match toTable s 1 with
  | none => .ok (pushNil s)
  | some a => do
      let t ← tableAt s a
      if t.length = 0 then return pushNil s
      else
        let pos ← removePosition parseFloat s t.length
        removeAt s a t pos

end Functions

/-! ## Calls -/

section Calls

variable {P : Platform} {parseFloat : List UInt8 → Option F64} {s s' : Machine P} {a : Addr} {vs : List Value}
  {w : Value} {p : Nat}

-- the state in which a function of the library starts
structure Called (s : Machine P) (args : List Value) : Prop where
  top : s.top = args.length
  bottom : s.stack.take args.length = args
  room : args.length < s.stack.length

def Holds (s : Machine P) (a : Addr) (vs : List Value) : Prop := ∃ t, s.tables[a]? = some t ∧ Sequence t vs

-- a machine that calls a function with one table and no others
def calling (t : Table P.hashMap) (args : List Value) : Machine P where
  stack := args ++ [.nil]
  top := args.length
  globals := 0
  tables := [t]
  closures := []

theorem called_calling (t : Table P.hashMap) (args : List Value) : Called (calling t args) args where
  top := rfl
  bottom := List.take_left
  room := by simp [calling]

theorem Called.value {args : List Value} (called : Called s args) {i : Nat} (inside : i < args.length) :
    toValue s (i + 1) = args[i] := by
  have located : s.stack[i]? = some args[i] := by
    rw [← List.getElem?_take_of_lt inside, called.bottom, List.getElem?_eq_getElem inside]
  rw [toValue, called.top, if_pos (by omega), List.getD_eq_getElem?_getD, Nat.add_sub_cancel, located]
  rfl

theorem Called.table {args : List Value} (called : Called s (.table a :: args)) : toTable s 1 = some a := by
  rw [toTable, called.value (Nat.zero_lt_succ _)]
  rfl

theorem intFromFloat_key (positive : 0 < p) (small : p < 2 ^ 53) : intFromFloat (F64.floatFromInt p) = .ok p := by
  rw [intFromFloat, F64.toUsize_floatFromInt positive small, (F64.floatFromInt_fields positive small).1]
  rfl

theorem holds_set {t t' : Table P.hashMap} (located : s.tables[a]? = some t) :
    Holds { s with tables := s.tables.set a t' } a vs ↔ Sequence t' vs := by
  have inside := (List.getElem?_eq_some_iff.mp located).1
  have there : (s.tables.set a t')[a]? = some t' := List.getElem?_set_self inside
  constructor
  · rintro ⟨other, found, sequence⟩
    rw [show _ = some t' from there] at found
    cases found
    exact sequence
  · intro sequence
    exact ⟨t', there, sequence⟩

theorem Stores.sequence_iff {H : HashMap Value Value keyContext} {t : Table H} {f : Nat → Value} (stores : Stores t f)
    (some : ∀ v ∈ vs, v ≠ .nil) :
    Sequence t vs ↔ ∀ n, 0 < n → n < 2 ^ 53 → f n = content vs n := by
  constructor
  · intro sequence n positive small
    exact stores.unique sequence.stores positive small
  · intro same
    exact ⟨stores.congr same, some⟩

/-! ## Insertion -/

theorem content_above {n : Nat} (above : vs.length < n) : content vs n = .nil := by
  rw [content, List.getD_eq_getElem?_getD, List.getElem?_eq_none (by omega)]
  rfl

theorem content_some {n : Nat} (some : ∀ v ∈ vs, v ≠ .nil) (positive : 0 < n) (inside : n ≤ vs.length) :
    content vs n ≠ .nil := by
  rw [ne_eq, content_eq_nil_iff some positive]
  omega

theorem insert_end_iff (holds : Holds s a vs) (small : vs.length + 1 < 2 ^ 53) (called : Called s [.table a, w])
    (some : w ≠ .nil) :
    (∃ s', tableInsert parseFloat s = .ok (s', 0) ∧ Holds s' a (vs ++ [w])) ↔ vs.length ≤ 50 := by
  obtain ⟨t, located, sequence⟩ := holds
  have length := sequence.length
  obtain ⟨t', run, stores⟩ := sequence.stores.setKey (n := t.length + 1) w (Nat.succ_pos _) (by omega)
  have two : s.top = 2 := called.top
  have argument : toValue s 2 = w := called.value (show 1 < 2 by decide)
  have result : tableInsert parseFloat s = .ok ({ s with tables := s.tables.set a t' }, 0) := by
    unfold tableInsert
    rw [called.table]
    simp only [tableAt, located, ok_bind]
    rw [if_pos two, argument, run]
    rfl
  have all : ∀ v ∈ vs ++ [w], v ≠ .nil := by
    intro v member
    rcases List.mem_append.mp member with member | member
    · exact sequence.some v member
    · rw [List.mem_singleton.mp member]
      exact some
  have after : (∃ s', tableInsert parseFloat s = .ok (s', 0) ∧ Holds s' a (vs ++ [w])) ↔ Sequence t' (vs ++ [w]) := by
    rw [← holds_set located, result]
    constructor
    · rintro ⟨_, ⟨⟩, holds⟩
      exact holds
    · exact fun holds => ⟨_, rfl, holds⟩
  rw [after, stores.sequence_iff all]
  constructor
  · intro same
    by_contra large
    have last := same (vs.length + 1) (Nat.succ_pos _) small
    rw [content_append _ (Nat.succ_pos _), if_pos rfl, Function.update_of_ne (by omega),
      content_above (Nat.lt_succ_self _)] at last
    exact some last.symm
  · intro few n positive _
    rw [content_append n positive]
    by_cases last : n = t.length + 1
    · subst last
      rw [Function.update_self, if_pos (by omega)]
    · rw [Function.update_of_ne last, if_neg (by omega)]

theorem content_insertIdx {n : Nat} (positive : 0 < n) (first : 0 < p) (last : p ≤ vs.length + 1) :
    content (vs.insertIdx (p - 1) w) n =
      if n < p then content vs n else if n = p then w else content vs (n - 1) := by
  simp only [content, List.getD_eq_getElem?_getD]
  rcases Nat.lt_trichotomy n p with less | rfl | more
  · rw [if_pos less, List.getElem?_insertIdx_of_lt (by omega)]
  · rw [if_neg (Nat.lt_irrefl n), if_pos rfl, List.getElem?_insertIdx_self, if_pos (by omega)]
    rfl
  · rw [if_neg (by omega), if_neg more.ne', List.getElem?_insertIdx_of_gt (by omega)]

theorem insertIdx_some {n : Nat} (all : ∀ v ∈ vs, v ≠ .nil) (some : w ≠ .nil) : ∀ v ∈ vs.insertIdx n w, v ≠ .nil := by
  intro v member
  by_cases inside : n ≤ vs.length
  · rcases (List.mem_insertIdx inside).mp member with rfl | member
    · exact some
    · exact all v member
  · rw [List.insertIdx_of_length_lt (by omega)] at member
    exact all v member

-- what a call with a position leaves in the table
def inserted (vs : List Value) (w : Value) (p n : Nat) : Value :=
  if n = p then w else if p < n ∧ n ≤ min vs.length 50 + 1 then content vs (n - 1) else content vs n

theorem insert_at_run (parseFloat : List UInt8 → Option F64) (holds : Holds s a vs) (called : Called s [.table a, key p, w]) (first : 0 < p)
    (small : p < 2 ^ 53) : ∃ t', tableInsert parseFloat s = .ok ({ s with tables := s.tables.set a t' }, 0) ∧
      Stores t' (inserted vs w p) ∧ (∀ us, Holds { s with tables := s.tables.set a t' } a us ↔ Sequence t' us) := by
  obtain ⟨t, located, sequence⟩ := holds
  have length := sequence.length
  obtain ⟨t₁, shifted, stores₁⟩ := sequence.stores.shiftUp (i := t.length) first (by omega)
  obtain ⟨t', run, stores⟩ := stores₁.setKey w first small
  have three : s.top = 3 := called.top
  have position : toValue s 2 = key p := called.value (show 1 < 3 by decide)
  have argument : toValue s 3 = w := called.value (show 2 < 3 by decide)
  have number : toNumber parseFloat s 2 = some (F64.floatFromInt p) := by
    rw [toNumber, position]
    rfl
  refine ⟨t', ?_, stores.congr ?_, fun us => holds_set located⟩
  · have inserted : insertAt parseFloat s t = .ok t' := by
      unfold insertAt
      rw [number, Option.getD_some, intFromFloat_key first small, ok_bind, shifted, ok_bind, argument, run]
    unfold tableInsert
    rw [called.table]
    simp only [tableAt, located, ok_bind]
    rw [if_neg (by omega), if_pos three, inserted]
    rfl
  · intro n _ _
    unfold inserted
    by_cases here : n = p
    · subst here
      rw [Function.update_self, if_pos rfl]
    · rw [Function.update_of_ne here, if_neg here, length]

theorem inserted_sequence_iff (all : ∀ v ∈ vs, v ≠ .nil) (small : vs.length + 1 < 2 ^ 53) (first : 0 < p)
    (last : p ≤ vs.length + 1) :
    (∀ n, 0 < n → n < 2 ^ 53 → inserted vs w p n = content (vs.insertIdx (p - 1) w) n) ↔
      vs.length ≤ 50 ∨ p = vs.length + 1 := by
  constructor
  · intro same
    by_contra wrong
    rw [not_or, not_le] at wrong
    -- the value behind the last one is missing
    have lost := same (vs.length + 1) (Nat.succ_pos _) small
    rw [content_insertIdx (Nat.succ_pos _) first last, if_neg (by omega), if_neg (by omega), Nat.succ_sub_one,
      inserted, if_neg (by omega), if_neg (by omega), content_above (Nat.lt_succ_self _)] at lost
    exact content_some all (by omega) le_rfl lost.symm
  · intro fits n positive _
    rw [content_insertIdx positive first last]
    unfold inserted
    rcases Nat.lt_trichotomy n p with less | rfl | more
    · rw [if_neg less.ne, if_neg (by omega), if_pos less]
    · rw [if_pos rfl, if_neg (Nat.lt_irrefl n), if_pos rfl]
    · rw [if_neg more.ne', if_neg (show ¬ n < p by omega), if_neg more.ne']
      split
      · rfl
      · rw [content_above (by omega), content_above (by omega)]

theorem insert_at_iff (holds : Holds s a vs) (small : vs.length + 1 < 2 ^ 53)
    (called : Called s [.table a, key p, w]) (some : w ≠ .nil) (first : 0 < p) (last : p ≤ vs.length + 1) :
    (∃ s', tableInsert parseFloat s = .ok (s', 0) ∧ Holds s' a (vs.insertIdx (p - 1) w)) ↔
      vs.length ≤ 50 ∨ p = vs.length + 1 := by
  have all : ∀ v ∈ vs, v ≠ .nil := by
    obtain ⟨t, -, sequence⟩ := holds
    exact sequence.some
  obtain ⟨t', run, stores, after⟩ := insert_at_run parseFloat holds called first (by omega)
  have determined : (∃ s', tableInsert parseFloat s = .ok (s', 0) ∧ Holds s' a (vs.insertIdx (p - 1) w)) ↔
      Sequence t' (vs.insertIdx (p - 1) w) := by
    rw [← after, run]
    constructor
    · rintro ⟨_, ⟨⟩, holds⟩
      exact holds
    · exact fun holds => ⟨_, rfl, holds⟩
  rw [determined, stores.sequence_iff (insertIdx_some all some), inserted_sequence_iff all small first last]

/-! ## Removal -/

theorem content_eraseIdx {n : Nat} (positive : 0 < n) (first : 0 < p) :
    content (vs.eraseIdx (p - 1)) n = if n < p then content vs n else content vs (n + 1) := by
  simp only [content, List.getD_eq_getElem?_getD]
  by_cases less : n < p
  · rw [if_pos less, List.getElem?_eraseIdx_of_lt (by omega)]
  · rw [if_neg less, List.getElem?_eraseIdx_of_ge (by omega), Nat.add_sub_cancel, Nat.sub_add_cancel positive]

-- what a call with a position leaves in a table of length `len`
def removed (f : Nat → Value) (len p n : Nat) : Value :=
  if n = len then .nil else if p ≤ n ∧ n < len then f (n + 1) else f n

theorem removePosition_key (called : Called s [.table a, key p]) (first : 0 < p) (small : p < 2 ^ 53) (len : Nat) :
    removePosition parseFloat s len = .ok p := by
  have two : s.top = 2 := called.top
  have position : toValue s 2 = key p := called.value (show 1 < 2 by decide)
  have number : toNumber parseFloat s 2 = some (F64.floatFromInt p) := by
    rw [toNumber, position]
    rfl
  rw [removePosition, if_pos two.ge, number, Option.getD_some, intFromFloat_key first small]

theorem push_ok {args : List Value} (called : Called s args) (v : Value) :
    s.push v = .ok { s with stack := s.stack.set s.top v, top := s.top + 1 } := by
  have room := called.room
  rw [← called.top] at room
  exact if_neg (by omega)

-- the value that was pushed last
def pushed (s : Machine P) : Value := toValue s s.top

theorem remove_run (parseFloat : List UInt8 → Option F64) {t : Table P.hashMap} {f : Nat → Value}
    (located : s.tables[a]? = some t) (stores : Stores t f) (nonempty : t.length ≠ 0)
    (called : Called s [.table a, key p]) (first : 0 < p) (small : p < 2 ^ 53) :
    ∃ s' t', tableRemove parseFloat s = .ok (s', 1) ∧ pushed s' = f p ∧ Stores t' (removed f t.length p) ∧
      s'.tables = s.tables.set a t' := by
  have le := Table.length_le stores.reached.inv.parted
  obtain ⟨t₁, shifted, stores₁⟩ :=
    stores.shiftDown first (show p + (t.length - p) < 2 ^ 53 by omega)
  obtain ⟨t', run, stores'⟩ := stores₁.setKey (n := t.length) .nil (by omega) (by omega)
  have room := called.room
  have two : s.top = 2 := called.top
  refine ⟨{ s with stack := s.stack.set s.top (f p), top := s.top + 1, tables := s.tables.set a t' }, t', ?_, ?_,
    stores'.congr ?_, rfl⟩
  · unfold tableRemove
    rw [called.table]
    simp only [tableAt, located, ok_bind]
    rw [if_neg nonempty, removePosition_key called first small, ok_bind]
    unfold removeAt
    rw [stores.getKey first small, ok_bind, push_ok called]
    simp only
    rw [shifted, ok_bind, run, ok_bind]
    rfl
  · have inside : s.top < s.stack.length := by
      rw [two]
      exact room
    rw [pushed, toValue, if_pos ⟨Nat.succ_pos _, le_rfl⟩, List.getD_eq_getElem?_getD]
    show ((s.stack.set s.top (f p))[s.top]?).getD .nil = f p
    rw [List.getElem?_set_self inside]
    rfl
  · intro n _ _
    unfold removed
    by_cases here : n = t.length
    · subst here
      rw [Function.update_self, if_pos rfl]
    · rw [Function.update_of_ne here, if_neg here]
      exact if_congr (by omega) rfl rfl

theorem removed_sequence_iff (all : ∀ v ∈ vs, v ≠ .nil) (first : 0 < p) (last : p ≤ vs.length) :
    (∀ n, 0 < n → n < 2 ^ 53 → removed (content vs) (min vs.length 50) p n = content (vs.eraseIdx (p - 1)) n) ↔
      vs.length ≤ 50 := by
  constructor
  · intro same
    by_contra large
    -- the value at 50 is lost
    have lost := same 50 (by decide) (by decide)
    rw [content_eraseIdx (by decide) first, removed, if_pos (by omega)] at lost
    split at lost
    · exact content_some all (by decide) (by omega) lost.symm
    · exact content_some all (by decide) (by omega) lost.symm
  · intro fits n positive _
    rw [content_eraseIdx positive first, removed]
    by_cases end_ : n = vs.length
    · rw [if_pos (by omega), if_neg (by omega), content_above (by omega)]
    · rw [if_neg (by omega)]
      by_cases less : n < p
      · rw [if_neg (by omega), if_pos less]
      · rw [if_neg less]
        split
        · rfl
        · rw [content_above (by omega), content_above (by omega)]

theorem mem_of_eraseIdx_some {n : Nat} (all : ∀ v ∈ vs, v ≠ .nil) : ∀ v ∈ vs.eraseIdx n, v ≠ .nil :=
  fun v member => all v (List.mem_of_mem_eraseIdx member)

theorem remove_iff (parseFloat : List UInt8 → Option F64) (holds : Holds s a vs) (small : vs.length + 1 < 2 ^ 53)
    (called : Called s [.table a, key p]) (first : 0 < p) (last : p ≤ vs.length) :
    (∃ s', tableRemove parseFloat s = .ok (s', 1) ∧ pushed s' = content vs p ∧ Holds s' a (vs.eraseIdx (p - 1))) ↔
      vs.length ≤ 50 := by
  obtain ⟨t, located, sequence⟩ := holds
  have length := sequence.length
  obtain ⟨s', t', run, result, stores, tables⟩ :=
    remove_run parseFloat located sequence.stores (by omega) called first (by omega)
  have there : s'.tables[a]? = some t' := by
    rw [tables]
    exact List.getElem?_set_self (List.getElem?_eq_some_iff.mp located).1
  rw [← removed_sequence_iff sequence.some first last, ← length, ← stores.sequence_iff (mem_of_eraseIdx_some sequence.some)]
  constructor
  · rintro ⟨s'', run', -, t'', found, sequence'⟩
    rw [run] at run'
    cases run'
    rw [there] at found
    cases found
    exact sequence'
  · intro sequence'
    exact ⟨s', run, result, t', there, sequence'⟩

/-! ## Removal after insertion -/

theorem Stores.length_full {H : HashMap Value Value keyContext} {t : Table H} {f : Nat → Value} (stores : Stores t f)
    (full : ∀ n, 0 < n → n ≤ 50 → f n ≠ .nil) : t.length = 50 := by
  have parted := stores.reached.inv.parted
  have le := Table.length_le parted
  by_contra other
  have above := Table.get_above parted (Nat.lt_succ_self t.length) (by omega)
  rw [show t.length.succ = t.length + 1 from rfl, stores.here _ (Nat.succ_pos _) (by omega)] at above
  exact full _ (Nat.succ_pos _) (by omega) (Except.ok.inj above)

theorem inserted_some {n : Nat} (all : ∀ v ∈ vs, v ≠ .nil) (some : w ≠ .nil) (first : 0 < p)
    (positive : 0 < n) (inside : n ≤ vs.length) : inserted vs w p n ≠ .nil := by
  unfold inserted
  split
  · exact some
  · split
    · exact content_some all (by omega) (by omega)
    · exact content_some all positive inside

theorem restore_iff {r : Machine P} (holds : Holds s a vs) (small : vs.length + 1 < 2 ^ 53)
    (called : Called s [.table a, key p, w]) (called' : Called r [.table a, key p]) (some : w ≠ .nil) (first : 0 < p)
    (last : p ≤ vs.length + 1) :
    (∃ s₁ s₂, tableInsert parseFloat s = .ok (s₁, 0) ∧
      tableRemove parseFloat { r with tables := s₁.tables } = .ok (s₂, 1) ∧ pushed s₂ = w ∧ Holds s₂ a vs) ↔
      vs.length ≤ 49 := by
  have all : ∀ v ∈ vs, v ≠ .nil := by
    obtain ⟨t, -, sequence⟩ := holds
    exact sequence.some
  obtain ⟨t, run, stores, after⟩ := insert_at_run parseFloat holds called first (by omega)
  let r' : Machine P := { r with tables := s.tables.set a t }
  have called₁ : Called r' [.table a, key p] := ⟨called'.top, called'.bottom, called'.room⟩
  have there : r'.tables[a]? = .some t := by
    obtain ⟨t₀, located, -⟩ := holds
    exact List.getElem?_set_self (List.getElem?_eq_some_iff.mp located).1
  constructor
  · rintro ⟨s₁, s₂, run₁, run₂, -, t₂, located, sequence⟩
    rw [run] at run₁
    cases run₁
    by_contra large
    -- the value at 50 is cleared
    have full := stores.length_full fun n positive le => inserted_some all some first positive (by omega)
    obtain ⟨s₃, t₃, run₃, -, stores₃, tables⟩ :=
      remove_run parseFloat there stores (by omega) called₁ first (by omega)
    rw [show tableRemove parseFloat r' = _ from run₂] at run₃
    cases run₃
    rw [tables, List.getElem?_set_self (List.getElem?_eq_some_iff.mp there).1] at located
    cases located
    have lost := stores₃.unique sequence.stores (n := 50) (by decide) (by decide)
    rw [removed, if_pos full.symm] at lost
    exact content_some all (by decide) (by omega) lost.symm
  · intro fits
    have length : (vs.insertIdx (p - 1) w).length = vs.length + 1 := List.length_insertIdx_of_le_length (by omega) w
    have sequence : Sequence t (vs.insertIdx (p - 1) w) := by
      rw [stores.sequence_iff (insertIdx_some all some), inserted_sequence_iff all small first last]
      exact .inl (by omega)
    obtain ⟨s₂, run₂, result, holds₂⟩ :=
      (remove_iff parseFloat ⟨t, there, sequence⟩ (by omega) called₁ first (by omega)).mpr (by omega)
    refine ⟨_, s₂, run, run₂, ?_, ?_⟩
    · rw [result, content_insertIdx first first last, if_neg (Nat.lt_irrefl p), if_pos rfl]
    · rwa [List.eraseIdx_insertIdx_self] at holds₂

-- exactly which calls are the operations on lists
theorem list_operations_iff (parseFloat : List UInt8 → Option F64) (a : Addr) (vs : List Value) (w : Value)
    (small : vs.length + 1 < 2 ^ 53) (some : w ≠ .nil) :
    (∀ s : Machine P, Holds s a vs → Called s [.table a, w] →
      ((∃ s', tableInsert parseFloat s = .ok (s', 0) ∧ Holds s' a (vs ++ [w])) ↔ vs.length ≤ 50)) ∧
    (∀ (s : Machine P) p, Holds s a vs → Called s [.table a, key p, w] → 0 < p → p ≤ vs.length + 1 →
      ((∃ s', tableInsert parseFloat s = .ok (s', 0) ∧ Holds s' a (vs.insertIdx (p - 1) w)) ↔
        vs.length ≤ 50 ∨ p = vs.length + 1)) ∧
    (∀ (s : Machine P) p, Holds s a vs → Called s [.table a, key p] → 0 < p → p ≤ vs.length →
      ((∃ s', tableRemove parseFloat s = .ok (s', 1) ∧ pushed s' = content vs p ∧ Holds s' a (vs.eraseIdx (p - 1))) ↔
        vs.length ≤ 50)) ∧
    ∀ (s r : Machine P) p, Holds s a vs → Called s [.table a, key p, w] → Called r [.table a, key p] → 0 < p →
      p ≤ vs.length + 1 →
      ((∃ s₁ s₂, tableInsert parseFloat s = .ok (s₁, 0) ∧
        tableRemove parseFloat { r with tables := s₁.tables } = .ok (s₂, 1) ∧ pushed s₂ = w ∧ Holds s₂ a vs) ↔
        vs.length ≤ 49) :=
  ⟨fun _ holds called => insert_end_iff holds small called some,
    fun _ _ holds called => insert_at_iff holds small called some,
    fun _ _ holds called => remove_iff parseFloat holds small called,
    fun _ _ _ holds called called' => restore_iff holds small called called' some⟩

theorem list_operations_one : ∃ t, Sequence t [.boolean true] ∧
    (∃ s', tableInsert (P := Platform.plain) (fun _ => none) (calling t [.table 0, .boolean false]) = .ok (s', 0) ∧
      Holds s' 0 [.boolean true, .boolean false]) ∧
    (∃ s', tableInsert (P := Platform.plain) (fun _ => none) (calling t [.table 0, key 1, .boolean false]) = .ok (s', 0) ∧
      Holds s' 0 [.boolean false, .boolean true]) ∧
    (∃ s', tableRemove (P := Platform.plain) (fun _ => none) (calling t [.table 0, key 1]) = .ok (s', 1) ∧
      pushed s' = .boolean true ∧ Holds s' 0 []) ∧
    ∃ s₁ s₂, tableInsert (P := Platform.plain) (fun _ => none) (calling t [.table 0, key 2, .boolean false]) = .ok (s₁, 0) ∧
      tableRemove (fun _ => none) { calling t [.table 0, key 2] with tables := s₁.tables } = .ok (s₂, 1) ∧
      pushed s₂ = .boolean false ∧ Holds s₂ 0 [.boolean true] := by
  obtain ⟨t, sequence⟩ := exists_sequence Platform.plain.hashMap [.boolean true] (by simp) (by decide)
  have holds (args : List Value) : Holds (calling t args) 0 [.boolean true] := ⟨t, rfl, sequence⟩
  obtain ⟨at_end, at_key, remove, restore⟩ :=
    list_operations_iff (P := Platform.plain) (fun _ => none) 0 [.boolean true] (.boolean false) (by decide) (by simp)
  exact ⟨t, sequence, (at_end _ (holds _) (called_calling _ _)).mpr (by decide),
    (at_key _ 1 (holds _) (called_calling _ _) (by decide) (by decide)).mpr (by decide),
    (remove _ 1 (holds _) (called_calling _ _) (by decide) (by decide)).mpr (by decide),
    (restore _ _ 2 (holds _) (called_calling _ _) (called_calling _ _) (by decide) (by decide)).mpr (by decide)⟩

-- the value appended to 51 others is stored at 51
theorem insert_end_lost : ∃ t, Sequence t (List.replicate 51 (.boolean true)) ∧
    ¬∃ s', tableInsert (P := Platform.plain) (fun _ => none) (calling t [.table 0, .boolean false]) = .ok (s', 0) ∧
      Holds s' 0 (List.replicate 51 (.boolean true) ++ [.boolean false]) := by
  obtain ⟨t, sequence⟩ :=
    exists_sequence Platform.plain.hashMap (List.replicate 51 (.boolean true)) (by simp) (by decide)
  refine ⟨t, sequence, ?_⟩
  rw [insert_end_iff ⟨t, rfl, sequence⟩ (by decide) (called_calling _ _) (by simp)]
  decide

/-! ## Positions outside -/

theorem Reached.setKey {H : HashMap Value Value keyContext} {t t' : Table H} {n : Nat} {v : Value}
    (reached : Reached t) (usable : (key n).Usable) (run : setKey t n v = .ok t') :
    Reached t' ∧ t'.get (key n) = .ok v := by
  obtain ⟨t₁, set, inv, found⟩ := Table.set_lookup (v := v) reached.inv usable
  rw [Stdlib.setKey, set] at run
  cases run
  refine ⟨.set reached usable set, ?_⟩
  rw [Table.get_eq inv usable, found _ usable, if_pos (Value.eql_refl usable.notNan)]

theorem usable_below {n : Nat} (below : n ≤ 50) : (key n).Usable := by
  cases n with
  | zero =>
      refine ⟨by simp [key], show (F64.floatFromInt 0).isNan = false by decide, ?_⟩
      rintro _ ⟨⟩
      decide
  | succ n => exact Table.key_usable (Nat.succ_pos n) (by omega)

theorem Reached.shiftDown {H : HashMap Value Value keyContext} {t t' : Table H} {i count : Nat} (reached : Reached t)
    (below : ∀ j, i ≤ j → j < i + count → j ≤ 50) (run : shiftDown t i count = .ok t') : Reached t' := by
  induction count generalizing t i with
  | zero =>
      cases run
      exact reached
  | succ count ih =>
      rw [Stdlib.shiftDown] at run
      obtain ⟨t₁, moved, rest⟩ := bind_ok.mp run
      obtain ⟨v, -, set⟩ := bind_ok.mp moved
      refine ih (reached.setKey (usable_below (below i le_rfl (by omega))) set).1 ?_ rest
      intro j above inside
      exact below j (by omega) (by omega)

-- a call that returns clears the last key that `length` sees
theorem remove_clears {t : Table P.hashMap} {x : F64} (located : s.tables[a]? = some t) (reached : Reached t)
    (nonempty : t.length ≠ 0) (called : Called s [.table a, .number x])
    (run : tableRemove parseFloat s = .ok (s', 1)) :
    ∃ t', s'.tables[a]? = some t' ∧ t'.get (key t.length) = .ok .nil := by
  have le := Table.length_le reached.inv.parted
  unfold tableRemove at run
  rw [called.table] at run
  simp only [tableAt, located, ok_bind] at run
  rw [if_neg nonempty] at run
  obtain ⟨pos, -, removal⟩ := bind_ok.mp run
  unfold removeAt at removal
  obtain ⟨v, -, removal⟩ := bind_ok.mp removal
  rw [push_ok called] at removal
  simp only at removal
  obtain ⟨t₁, shifted, removal⟩ := bind_ok.mp removal
  obtain ⟨t', cleared, result⟩ := bind_ok.mp removal
  cases result
  have reached₁ := reached.shiftDown (fun j above inside => by omega) shifted
  exact ⟨t', List.getElem?_set_self (List.getElem?_eq_some_iff.mp located).1,
    (reached₁.setKey (usable_below le) cleared).2⟩

-- whatever the position is
theorem remove_harmless_iff (parseFloat : List UInt8 → Option F64) (s : Machine P) (a : Addr) (vs : List Value) (x : F64)
    (holds : Holds s a vs) (called : Called s [.table a, .number x]) :
    (∃ s', tableRemove parseFloat s = .ok (s', 1) ∧ pushed s' ∉ vs ∧
      ∀ t, s.tables[a]? = some t → ∃ t', s'.tables[a]? = some t' ∧ ∀ q, t'.get q = t.get q) ↔ vs = [] := by
  obtain ⟨t, located, sequence⟩ := holds
  have length := sequence.length
  constructor
  · rintro ⟨s', run, -, unchanged⟩
    by_contra nonempty
    have positive := List.length_pos_of_ne_nil nonempty
    obtain ⟨t', located', cleared⟩ := remove_clears located sequence.stores.reached (by omega) called run
    obtain ⟨t'', located'', same⟩ := unchanged t located
    rw [located'] at located''
    cases located''
    rw [same, sequence.stores.here t.length (by omega) (by omega)] at cleared
    exact content_some sequence.some (by omega) (by omega) (Except.ok.inj cleared)
  · rintro rfl
    refine ⟨{ s with stack := s.stack.set s.top .nil, top := s.top + 1 }, ?_, List.not_mem_nil, ?_⟩
    · unfold tableRemove
      rw [called.table]
      simp only [tableAt, located, ok_bind]
      rw [if_pos (by rw [length]; rfl), pushNil, push_ok called]
      rfl
    · intro t₁ located₁
      exact ⟨t₁, located₁, fun q => rfl⟩

theorem remove_harmless_empty :
    let s : Machine Platform.plain := calling (Table.init _) [.table 0, key 1]
    ∃ s', tableRemove (fun _ => none) s = .ok (s', 1) ∧ pushed s' ∉ ([] : List Value) ∧
      ∀ t, s.tables[0]? = some t → ∃ t', s'.tables[0]? = some t' ∧ ∀ q, t'.get q = t.get q :=
  (remove_harmless_iff (fun _ => none) _ 0 [] (F64.floatFromInt 1) ⟨_, rfl, stores_init _, by simp⟩
    (called_calling _ _)).mpr rfl

-- to remove behind the only value clears it
theorem remove_clears_last : ∃ t, Sequence t [.boolean true] ∧
    let s : Machine Platform.plain := calling t [.table 0, key 2]
    ¬∃ s', tableRemove (fun _ => none) s = .ok (s', 1) ∧ pushed s' ∉ ([.boolean true] : List Value) ∧
      ∀ t, s.tables[0]? = some t → ∃ t', s'.tables[0]? = some t' ∧ ∀ q, t'.get q = t.get q := by
  obtain ⟨t, sequence⟩ := exists_sequence Platform.plain.hashMap [.boolean true] (by simp) (by decide)
  refine ⟨t, sequence, ?_⟩
  rintro s ⟨s', run, -, unchanged⟩
  have length := sequence.length
  obtain ⟨t', located, cleared⟩ :=
    remove_clears (t := t) rfl sequence.stores.reached (by rw [length]; decide) (called_calling _ _) run
  obtain ⟨t'', located', same⟩ := unchanged t rfl
  rw [located] at located'
  cases located'
  rw [same, length, sequence.stores.here _ (by decide) (by decide)] at cleared
  cases cleared

end Calls

end Zua.Stdlib
