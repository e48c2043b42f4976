import Zua.Base.ArrayHashMap
import Zua.Object.Border

/-!
# The hybrid table

`Table` of `table.zig`: the array part holds the integer keys from 1 to its length and never grows by itself, and
every other key is in a map that keeps the order of insertion. A lookup returns the place of a value.
-/

namespace Zua.Hybrid
open Object (Value)

inductive Fault
  | tableIndexIsNil
  | tableIndexIsNan
  | panic
  | timeout
  deriving DecidableEq, Repr

-- the hasher, which is not fixed
structure Wyhash where
  boolean : Bool → UInt32
  bits : UInt64 → UInt32

-- `none` is unreachable
def keyHash (wyhash : Wyhash) : Value → UInt32
  | .boolean b => wyhash.boolean b
  | .number n => wyhash.bits n.bits
  | .lightUserdata addr => UInt32.ofNat (addr ^^^ (addr >>> 32))
  | _ => 0

-- strings are compared by their addresses, and again `none` is unreachable
def keyEql : Value → Value → Bool
  | .boolean a, .boolean b => a == b
  | .number a, .number b => a.eq b
  | .string a, .string b => a.addr == b.addr
  | .table a, .table b => a == b
  | .closure a, .closure b => a == b
  | .cClosure a, .cClosure b => a == b
  | .userdata a, .userdata b => a == b
  | .thread a, .thread b => a == b
  | .lightUserdata a, .lightUserdata b => a == b
  | .nil, .nil => true
  | _, _ => false

def keyContext (wyhash : Wyhash) : KeyContext Value := ⟨keyHash wyhash, keyEql⟩

-- none is InvalidArrayKey
def arrayIndex : Value → Except Fault (Option Nat)
  | .number n =>
      match n.intFromFloat with
      | none => .error .panic
      | some index => .ok (if (F64.floatFromInt index).eq n then some index else none)
  | _ => .ok none

-- the pointers that lookups return
inductive Slot
  | array (index : Nat)
  | map (index : Nat)
  deriving DecidableEq, Repr

variable {wyhash : Wyhash}

structure Table (H : ArrayHashMap Value Value (keyContext wyhash)) where
  array : List Value
  map : H.Map

namespace Table

variable {H : ArrayHashMap Value Value (keyContext wyhash)}

def isLuaIndexInArrayBounds (self : Table H) (luaIndex : Nat) : Bool :=
  0 < luaIndex && luaIndex ≤ self.array.length

def arrayGet (self : Table H) (luaIndex : Nat) : Option Slot :=
  if self.isLuaIndexInArrayBounds luaIndex then some (.array (luaIndex - 1)) else none

def mapGet (self : Table H) (key : Value) : Option Slot := (H.getIndex self.map key).map .map

def get (self : Table H) (key : Value) : Except Fault (Option Slot) :=
  match key with
  | .nil => .ok none
  | .none => .error .panic
  | .number n =>
      match arrayIndex (.number n) with
      | .error fault => .error fault
      | .ok none => .ok (self.mapGet key)
      | .ok (some index) =>
          match self.arrayGet index with
          | some slot => .ok (some slot)
          | none => .ok (self.mapGet key)
  | key => .ok (self.mapGet key)

def isNan : Value → Bool
  | .number n => n.isNan
  | _ => false

def getOrCreate (self : Table H) (key : Value) : Except Fault (Table H × Slot) :=
  match self.get key with
  | .error fault => .error fault
  | .ok (some slot) => .ok (self, slot)
  | .ok none =>
      if key = .nil then .error .tableIndexIsNil
      else if isNan key then .error .tableIndexIsNan
      else
        let result := H.getOrPutValue self.map key .nil
        .ok ({ self with map := result.1 }, .map result.2)

def read (self : Table H) : Slot → Value
  | .array index => self.array.getD index .nil
  | .map index => (((H.entries self.map)[index]?).map Prod.snd).getD .nil

def valueOf (self : Table H) (key : Value) : Except Fault (Option Value) :=
  match self.get key with
  | .error fault => .error fault
  | .ok slot => .ok (slot.map self.read)

variable {t t' : Table H} {k q : Value} {n : F64}

theorem keyEql_symm {a b : Value} (h : keyEql a b = true) : keyEql b a = true := by
  cases a <;> cases b <;> simp only [keyEql, Bool.false_eq_true] at h ⊢
  case number.number => exact F64.eq_symm h
  all_goals
    rw [beq_iff_eq] at h ⊢
    exact h.symm

theorem keyEql_trans {a b c : Value} (h : keyEql a b = true) (h' : keyEql b c = true) : keyEql a c = true := by
  cases a <;> cases b <;> simp only [keyEql, Bool.false_eq_true] at h <;>
    cases c <;> simp only [keyEql, Bool.false_eq_true] at h' ⊢
  case number.number.number => exact F64.eq_trans h h'
  all_goals simp_all

theorem keyEql_refl (some : k ≠ .none) (number : isNan k = false) : keyEql k k = true := by
  cases k <;> simp only [keyEql, beq_self_eq_true]
  case number => exact F64.eq_refl number
  case none => exact absurd rfl some

-- only the two zeros are equal and differ in their hashes
theorem hashed_of_not_zero (number : ∀ n, q = .number n → n.magnitude ≠ 0) : H.Hashed t.map q := by
  intro entry member same
  change keyEql entry.1 q = true at same
  show keyHash wyhash entry.1 = keyHash wyhash q
  cases shape : entry.1 <;> cases q <;> rw [shape] at same <;> simp only [keyEql, Bool.false_eq_true] at same <;>
    simp only [keyHash]
  case number.number a b =>
      rcases F64.bits_eq_of_rank (F64.eq_iff.mp same).2.2 with equal | ⟨-, zero⟩
      · rw [equal]
      · exact absurd zero (number b rfl)
  all_goals rw [beq_iff_eq.mp same]

end Table

end Zua.Hybrid
