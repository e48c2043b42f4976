import Zua.Vm.Calls

/-!
# Instructions that load a register

The code of an expression goes from one instruction to the next, and each of them only puts a value into a register.
-/

namespace Zua.Vm
open Code Object
open Memory (Constant)

variable {P : Platform} {host : Addr → Machine P → Except Stop (Machine P × Int)} {frame : Frame}
  {s s' t : Machine P} {pc : Nat} {i : Instruction}

/-! ## One instruction -/

-- the operator of an instruction with two operands
def operator (P : Platform) : OpCode → F64 → F64 → F64
  | .sub => P.sub
  | .mul => P.mul
  | .div => P.div
  | .mod => P.mod
  | .pow => P.pow
  | _ => P.add

-- the value that an instruction puts into its register
def computed (frame : Frame) (i : Instruction) (s : Machine P) : Except Stop Value :=
  match i.op with
  | .move => s.slot (frame.base + i.b)
  | .loadk => Machine.constant P frame.constants i.bx
  | .loadbool => .ok (.boolean (i.b != 0))
  | .loadnil => .ok .nil
  | .getglobal =>
      match frame.constants[i.bx]? with
      | some (.string name) => getGlobal s name
      | _ => .error .panic
  | .gettable => do
      let t ← s.slot (frame.base + i.b)
      let a ← expectTable t
      let key ← s.getValueRK frame.base frame.constants i.c
      s.tableGet a key
  | .add | .sub | .mul | .div | .mod | .pow => do
      let lhs ← s.getValueRK frame.base frame.constants i.b
      let rhs ← s.getValueRK frame.base frame.constants i.c
      arith (operator P i.op) lhs rhs
  | .unm => do
      let v ← s.slot (frame.base + i.b)
      unm P v
  | .not => do
      let v ← s.slot (frame.base + i.b)
      return .boolean v.isFalsy
  | .len => do
      let v ← s.slot (frame.base + i.b)
      length s v
  | .concat => do
      let data ← stringSlots s (frame.base + i.b) (i.c + 1 - i.b)
      return .string (P.intern data)
  | _ => .error .panic

structure IsLoad (constants : List Constant) (i : Instruction) : Prop where
  fits : i.Fits
  kind : match i.op with
    | .move | .loadk | .gettable | .add | .sub | .mul | .div | .mod | .pow | .unm | .not | .len => True
    | .loadbool => i.c = 0
    | .loadnil => i.b = i.a
    | .getglobal => ∃ name, constants[i.bx]? = some (.string name)
    | .concat => i.b ≤ i.c ∧ i.c < 256
    | _ => False

namespace IsLoad

variable {constants constants' : List Constant}

theorem mono (load : IsLoad constants i) (grows : constants <+: constants') : IsLoad constants' i := by
  obtain ⟨fits, kind⟩ := load
  refine ⟨fits, ?_⟩
  rcases i with ⟨op, a, b, c⟩
  cases op
  case getglobal =>
      obtain ⟨name, found⟩ := kind
      obtain ⟨more, rfl⟩ := grows
      exact ⟨name, by rw [List.getElem?_append_left (List.getElem?_eq_some_iff.mp found).1, found]⟩
  all_goals exact kind

-- the target may be any register, except for `LOADNIL`, where it is the range
theorem moved {reg : Nat} (load : IsLoad constants i) (plain : i.op ≠ .loadnil) (register : reg < 256) :
    IsLoad constants { i with a := reg } := by
  obtain ⟨fits, kind⟩ := load
  refine ⟨⟨register, fits.b, fits.c⟩, ?_⟩
  rcases i with ⟨op, a, b, c⟩
  cases op
  case loadnil => exact (plain rfl).elim
  all_goals exact kind

theorem sets (load : IsLoad constants i) : i.op.opMeta.setsRegisterInA = true := by
  have kind := load.kind
  cases op : i.op <;> rw [op] at kind <;> first | rfl | exact kind.elim

end IsLoad

theorem exec_load {execute : Machine P → Except Stop (Machine P)} (load : IsLoad frame.constants i) :
    exec execute host frame pc i s = (do
      let v ← computed frame i s
      Flow.put s frame pc i.a v) := by
  obtain ⟨⟨small, -, -⟩, kind⟩ := load
  rcases i with ⟨op, a, b, c⟩
  cases op
  all_goals try exact kind.elim
  case loadbool =>
      obtain rfl : c = 0 := kind
      rfl
  case loadnil =>
      obtain rfl : b = a := kind
      have width : b < 256 := small
      simp only [exec, computed, ok_bind, if_neg (show ¬(b + 1 < b ∨ b = 511) by omega), Nat.add_sub_cancel_left,
        Machine.setNils, Flow.put]
      cases s.setSlot (frame.base + b) .nil <;> rfl
  case getglobal =>
      obtain ⟨name, found⟩ := kind
      simp only [exec, computed, found]
  case concat =>
      obtain ⟨le, register⟩ : b ≤ c ∧ c < 256 := kind
      simp only [exec, computed, if_neg (show ¬(c + 1 < b ∨ c = 511) by omega), bind_assoc, pure_bind]
  case not => simp only [exec, computed, bind_assoc, pure_bind]
  all_goals simp only [exec, execArith, computed, operator, bind_assoc]

/-! ## Registers from one on -/

-- only registers from `low` on differ, and nothing above the frame
structure Above (frame : Frame) (size low : Nat) (s s' : Machine P) : Prop where
  rest : s' = { s with stack := s'.stack }
  length : s'.stack.length = s.stack.length
  same : ∀ k, k < frame.base + low ∨ frame.base + size ≤ k → s'.stack[k]? = s.stack[k]?

namespace Above

variable {size low : Nat}

theorem refl (s : Machine P) : Above frame size low s s := ⟨rfl, rfl, fun _ _ => rfl⟩

theorem trans (first : Above frame size low s s') (second : Above frame size low s' t) : Above frame size low s t where
  rest := by
    rw [second.rest, first.rest]
  length := second.length.trans first.length
  same k outside := (second.same k outside).trans (first.same k outside)

theorem mono {low' : Nat} (h : Above frame size low s s') (le : low' ≤ low) : Above frame size low' s s' where
  rest := h.rest
  length := h.length
  same k outside := h.same k (by omega)

theorem slot {r : Nat} (h : Above frame size low s s') (below : r < low) :
    s'.slot (frame.base + r) = s.slot (frame.base + r) := by
  unfold Machine.slot
  rw [h.same _ (.inl (Nat.add_lt_add_left below _))]

theorem tables (h : Above frame size low s s') : s'.tables = s.tables := by rw [h.rest]

theorem tableGet (h : Above frame size low s s') (a : Addr) (key : Value) : s'.tableGet a key = s.tableGet a key := by
  unfold Machine.tableGet
  rw [h.tables]

theorem getGlobal (h : Above frame size low s s') (name : List UInt8) : getGlobal s' name = getGlobal s name := by
  have globals : s'.globals = s.globals := by rw [h.rest]
  unfold Vm.getGlobal
  rw [globals, h.tableGet]

theorem lengthOf (h : Above frame size low s s') (v : Value) : Vm.length s' v = Vm.length s v := by
  unfold Vm.length
  rw [h.tables]

end Above

theorem setSlot_inside {k : Nat} (inside : k < s.stack.length) (v : Value) :
    s.setSlot k v = .ok { s with stack := s.stack.set k v } := if_pos inside

theorem above_set {size low r : Nat} (le : low ≤ r) (lt : r < size) (v : Value) :
    Above frame size low s { s with stack := s.stack.set (frame.base + r) v } where
  rest := rfl
  length := List.length_set
  same k outside := List.getElem?_set_ne (by omega)

theorem slot_set {k : Nat} (inside : k < s.stack.length) (v : Value) :
    ({ s with stack := s.stack.set k v } : Machine P).slot k = .ok v := by
  unfold Machine.slot
  dsimp only
  rw [List.getElem?_set_self inside]

/-! ## A sequence of instructions -/

def runs (frame : Frame) : List Instruction → Machine P → Except Stop (Machine P)
  | [], s => .ok s
  | i :: is, s => do
      let v ← computed frame i s
      let s ← s.setSlot (frame.base + i.a) v
      runs frame is s

theorem runs_append (first second : List Instruction) (s : Machine P) :
    runs frame (first ++ second) s = (do
      let s ← runs frame first s
      runs frame second s) := by
  induction first generalizing s with
  | nil => rfl
  | cons i is ih => simp only [List.cons_append, runs, ih, bind_assoc]

-- the words of the instructions are in the code from `pc` on
def Located (frame : Frame) (pc : Nat) (is : List Instruction) : Prop :=
  is.map Instruction.word <+: frame.code.drop pc

theorem Located.head {is : List Instruction} (h : Located frame pc (i :: is)) : frame.code[pc]? = some i.word := by
  obtain ⟨more, same⟩ := h
  have read := congrArg (·[0]?) same
  simpa using read.symm

theorem Located.tail {is : List Instruction} (h : Located frame pc (i :: is)) : Located frame (pc + 1) is := by
  obtain ⟨more, same⟩ := h
  refine ⟨more, ?_⟩
  rw [← List.drop_drop, ← same]
  rfl

theorem loop_runs {is : List Instruction} (located : Located frame pc is) (loads : ∀ i ∈ is, IsLoad frame.constants i)
    (fuel : Nat) : loop host (is.length + fuel) frame s pc = (do
      let s ← runs frame is s
      loop host fuel frame s (pc + is.length)) := by
  induction is generalizing s pc with
  | nil => simp only [List.length_nil, Nat.zero_add, runs, ok_bind, Nat.add_zero]
  | cons i is ih =>
      have load := loads i List.mem_cons_self
      have read : frame.code[pc]?.bind Instruction.ofWord = some i := by
        rw [located.head]
        exact Instruction.ofWord_word load.fits
      have count : (i :: is).length + fuel = is.length + fuel + 1 := by
        rw [List.length_cons]
        omega
      rw [count, loop_exec read, exec_load load]
      simp only [runs, Flow.put, List.length_cons]
      cases computed frame i s with
      | error e => rfl
      | ok v =>
          simp only [ok_bind]
          cases s.setSlot (frame.base + i.a) v with
          | error e => rfl
          | ok s' =>
              have next := ih (s := s') located.tail fun j member => loads j (List.mem_cons_of_mem _ member)
              rw [show pc + 1 + is.length = pc + (is.length + 1) by omega] at next
              exact next

end Zua.Vm
