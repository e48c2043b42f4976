import Zua.Base.Float64
import Zua.Base.HashMap

/-!
# Values

The values of `object.zig`. Heap objects are addresses; a string also carries its bytes and its hash,
which never change once it exists.
-/

namespace Zua.Object

abbrev Addr := Nat

structure Str where
  addr : Addr
  hash : UInt64
  data : List UInt8
  deriving DecidableEq, Repr, Inhabited

def Str.eql (self other : Str) : Bool :=
  if self.hash ≠ other.hash then false
  else if self.data.length ≠ other.data.length then false
  else self.data == other.data

inductive Value
  | none
  | nil
  | boolean (b : Bool)
  | lightUserdata (addr : Addr)
  | number (n : F64)
  | string (s : Str)
  | table (addr : Addr)
  | closure (addr : Addr)
  | cClosure (addr : Addr)
  | userdata (addr : Addr)
  | thread (addr : Addr)
  deriving DecidableEq, Repr, Inhabited

namespace Value

def isFalsy : Value → Bool
  | .nil => true
  | .boolean b => !b
  | _ => false

-- the object that `markValue` marks
def object? : Value → Option Addr
  | .string s => some s.addr
  | .table a | .closure a | .cClosure a | .userdata a | .thread a => some a
  | _ => Option.none

def eql : Value → Value → Bool
  | .none, .none => true
  | .nil, .nil => true
  | .boolean a, .boolean b => a == b
  | .lightUserdata a, .lightUserdata b => a == b
  | .number a, .number b => a.eq b
  | .string a, .string b => a.eql b
  | .table a, .table b => a == b
  | .closure a, .closure b => a == b
  | .cClosure a, .cClosure b => a == b
  | .userdata a, .userdata b => a == b
  | .thread a, .thread b => a == b
  | _, _ => false

-- every pointer is hashed through `@truncate(@intFromPtr(v))`
def keyHash : Value → UInt32
  | .boolean b => (if b then 1 else 0) + 0x9e3779b9
  | .number n => UInt32.ofNat n.bits.toNat
  | .string s => UInt32.ofNat s.hash.toNat
  | .table a | .closure a | .cClosure a | .userdata a | .thread a | .lightUserdata a => UInt32.ofNat a
  | .nil => 0
  | .none => 1

def keyContext : KeyContext Value := ⟨keyHash, eql⟩

def NotNan : Value → Prop
  | .number n => n.isNan = false
  | _ => True

-- the keys that the table functions are called with
structure Usable (key : Value) : Prop where
  notNil : key ≠ .nil
  notNan : key.NotNan
  small : ∀ n, key = .number n → n.lt F64.twoPow64 = true

theorem Str.eql_iff {a b : Str} : a.eql b = true ↔ a.hash = b.hash ∧ a.data = b.data := by
  unfold Str.eql
  split_ifs with hash length
  · simp [hash]
  · simp only [false_iff, not_and]
    intro _ same
    exact length (congrArg List.length same)
  · simp [not_not.mp hash]

theorem eql_symm {a b : Value} (h : a.eql b = true) : b.eql a = true := by
  cases a <;> cases b <;> simp only [eql, Bool.false_eq_true] at h ⊢
  case number.number => exact F64.eq_symm h
  case string.string =>
      rw [Str.eql_iff] at h ⊢
      exact ⟨h.1.symm, h.2.symm⟩
  all_goals
    rw [beq_iff_eq] at h ⊢
    exact h.symm

theorem eql_trans {a b c : Value} (h : a.eql b = true) (h' : b.eql c = true) : a.eql c = true := by
  cases a <;> cases b <;> simp only [eql, Bool.false_eq_true] at h <;>
    cases c <;> simp only [eql, Bool.false_eq_true] at h' ⊢
  case number.number.number => exact F64.eq_trans h h'
  case string.string.string =>
      rw [Str.eql_iff] at h h' ⊢
      exact ⟨h.1.trans h'.1, h.2.trans h'.2⟩
  all_goals simp_all

theorem eql_refl {a : Value} (number : a.NotNan) : a.eql a = true := by
  cases a <;> simp only [eql, beq_self_eq_true]
  case number => exact F64.eq_refl number
  case string => exact Str.eql_iff.mpr ⟨rfl, rfl⟩

-- `0.0` and `-0.0` differ in the sign bit, which the hash does not read
theorem keyHash_eq {a b : Value} (h : a.eql b = true) : a.keyHash = b.keyHash := by
  cases a <;> cases b <;> simp only [eql, Bool.false_eq_true] at h <;> simp only [keyHash]
  case number.number =>
      apply UInt32.toNat_inj.mp
      simpa using F64.low_eq_of_eq h
  case string.string => rw [(Str.eql_iff.mp h).1]
  all_goals simp_all

theorem keyContext_lawful : keyContext.LawfulOn NotNan where
  refl _ number := eql_refl number
  symm _ _ _ _ := eql_symm
  trans _ _ _ _ _ _ := eql_trans
  hash_eq _ _ _ _ := keyHash_eq

end Value

end Zua.Object
