import Mathlib.Tactic

/-!
# Instructions

The instruction words of `opcodes.zig`. A word has an opcode, `A` (8 bits) and either `B` and `C`
(9 bits each) or `Bx`, the two together; `sBx` is `Bx` in excess 131071.
-/

namespace Zua.Code

inductive OpCode
  | move | loadk | loadbool | loadnil | setupval | getglobal | gettable | setglobal | getupval
  | settable | newtable | self | add | sub | mul | div | mod | pow | unm | not | len | concat
  | jmp | eq | lt | le | test | testset | call | tailcall | return | tforloop | forloop | forprep
  | setlist | closure | vararg
  deriving DecidableEq, Repr, Inhabited

structure Instruction where
  op : OpCode
  a : Nat
  b : Nat
  c : Nat
  deriving DecidableEq, Repr, Inhabited

namespace Instruction

def abx (op : OpCode) (a bx : Nat) : Instruction := ⟨op, a, bx / 512, bx % 512⟩

def bx (i : Instruction) : Nat := i.b * 512 + i.c

def maxSbx : Nat := 131071

def asbx (op : OpCode) (a : Nat) (sbx : Int) : Instruction := abx op a (sbx + maxSbx).toNat

def sbx (i : Instruction) : Int := (i.bx : Int) - maxSbx

@[simp]
theorem abx_op (op : OpCode) (a bx : Nat) : (abx op a bx).op = op := rfl

@[simp]
theorem abx_a (op : OpCode) (a bx : Nat) : (abx op a bx).a = a := rfl

@[simp]
theorem bx_abx (op : OpCode) (a n : Nat) : (abx op a n).bx = n := Nat.div_add_mod' n 512

end Instruction

/-! ## Words

The opcode is in the low 6 bits, then `A`, `C` and `B`. -/

namespace OpCode

def all : List OpCode :=
  [move, loadk, loadbool, loadnil, setupval, getglobal, gettable, setglobal, getupval, settable, newtable,
    self, add, sub, mul, div, mod, pow, unm, not, len, concat, jmp, eq, lt, le, test, testset, call, tailcall,
    .return, tforloop, forloop, forprep, setlist, closure, vararg]

def toNat (op : OpCode) : Nat := all.idxOf op

theorem all_toNat (op : OpCode) : all[op.toNat]? = some op := by
  cases op <;> decide

theorem toNat_lt (op : OpCode) : op.toNat < 64 := by
  cases op <;> decide

end OpCode

namespace Instruction

-- the fields have their width
structure Fits (i : Instruction) : Prop where
  a : i.a < 256
  b : i.b < 512
  c : i.c < 512

def word (i : Instruction) : UInt32 :=
  UInt32.ofNat (i.op.toNat + 64 * (i.a + 256 * (i.c + 512 * i.b)))

-- no instruction has one of the opcodes from 37 on
def ofWord (w : UInt32) : Option Instruction :=
  OpCode.all[w.toNat % 64]?.map fun op =>
    ⟨op, w.toNat / 64 % 256, w.toNat / 64 / 256 / 512, w.toNat / 64 / 256 % 512⟩

theorem ofWord_word {i : Instruction} (fits : i.Fits) : ofWord i.word = some i := by
  obtain ⟨ha, hb, hc⟩ := fits
  have op := i.op.toNat_lt
  have value : i.word.toNat = i.op.toNat + 64 * (i.a + 256 * (i.c + 512 * i.b)) := by
    rw [word, UInt32.toNat_ofNat', Nat.mod_eq_of_lt (by omega)]
  have low : i.word.toNat % 64 = i.op.toNat := by omega
  have fields : i.word.toNat / 64 = i.a + 256 * (i.c + 512 * i.b) := by omega
  rw [ofWord, low, OpCode.all_toNat, fields, show (i.a + 256 * (i.c + 512 * i.b)) % 256 = i.a by omega,
    show (i.a + 256 * (i.c + 512 * i.b)) / 256 = i.c + 512 * i.b by omega,
    show (i.c + 512 * i.b) % 512 = i.c by omega, show (i.c + 512 * i.b) / 512 = i.b by omega]
  rfl

theorem fits_ofWord {w : UInt32} {i : Instruction} (h : ofWord w = some i) : i.Fits := by
  obtain ⟨op, -, rfl⟩ := Option.map_eq_some_iff.mp h
  have bound := w.toNat_lt
  exact ⟨Nat.mod_lt _ (by norm_num), by change _ / 64 / 256 / 512 < 512; omega, Nat.mod_lt _ (by norm_num)⟩

end Instruction

/-! ## Registers and constants in one operand -/

def rkMask : Nat := 256
def rkMaxConstantIndex : Nat := rkMask - 1

def rkIsConstant (val : Nat) : Bool := val &&& rkMask != 0
def rkGetConstantIndex (val : Nat) : Nat := val &&& rkMaxConstantIndex
def constantIndexToRK (val : Nat) : Nat := val ||| rkMask

theorem rk_constant {k : Nat} (h : k ≤ rkMaxConstantIndex) : rkIsConstant (constantIndexToRK k) = true ∧
    rkGetConstantIndex (constantIndexToRK k) = k := by
  have all : ∀ k < 256, rkIsConstant (constantIndexToRK k) = true ∧
      rkGetConstantIndex (constantIndexToRK k) = k := by decide +kernel
  exact all k (Nat.lt_succ_of_le h)

theorem rk_register {r : Nat} (h : r < rkMask) : rkIsConstant r = false := by
  have all : ∀ r < 256, rkIsConstant r = false := by decide +kernel
  exact all r h

end Zua.Code
