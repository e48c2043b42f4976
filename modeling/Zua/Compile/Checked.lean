import Zua.Compile.Scope

/-!
# Code that the verifier accepts

What `checkcode` asks of the instructions, as a property of the words that have been emitted so far. It
stays true while the stack and the constants grow, and every function that emits or patches an
instruction keeps it.
-/

namespace Zua.Compile
open Code Syntax
open Memory (Constant)
open Zua.Lex (Token ch)

/-! ## One instruction -/

section Instructions

variable (registers : Nat) (constants : List Constant)

-- a register or the number of a constant
def Operand (rk : Nat) : Prop :=
  rk < registers ∨ ∃ k ≤ rkMaxConstantIndex, k < constants.length ∧ rk = constantIndexToRK k

def IsName (k : Nat) : Prop := ∃ name, constants[k]? = some (.string name)

def FineOperands (i : Instruction) : Prop :=
  match i.op with
  | .move | .loadnil | .unm | .not | .len => i.b < registers ∧ i.c = 0
  | .loadk => i.bx < constants.length
  | .loadbool => i.c = 0
  | .getglobal | .setglobal => IsName constants i.bx
  | .gettable => i.b < registers ∧ Operand registers constants i.c
  | .settable | .add | .sub | .mul | .div | .mod | .pow =>
      Operand registers constants i.b ∧ Operand registers constants i.c
  | .newtable => True
  | .self => i.a + 1 < registers ∧ i.b < registers ∧ Operand registers constants i.c
  | .concat => i.b < i.c ∧ i.c < registers
  | .call | .tailcall => 0 < i.b ∧ i.a + i.b ≤ registers ∧ i.a + i.c ≤ registers + 1
  | .return => i.c = 0 ∧ i.a + i.b ≤ registers + 1
  | .setlist => i.a + i.b < registers
  | .vararg => i.c = 0 ∧ (i.b = 0 ∨ 2 ≤ i.a + i.b ∧ i.a + i.b ≤ registers + 1)
  | _ => False

-- it passes the check, apart from what has to follow it
structure Fine (i : Instruction) : Prop where
  fits : i.Fits
  a : i.a < registers
  operands : FineOperands registers constants i

end Instructions

variable {registers registers' : Nat} {constants constants' : List Constant} {i : Instruction}

-- all results of a function are left up to the top
def opens (i : Instruction) : Bool :=
  match i.op with
  | .call | .tailcall => i.c == 0
  | .vararg => i.b == 0
  | _ => false

-- the values up to the top are used
def consumes (i : Instruction) : Bool :=
  match i.op with
  | .call | .return | .setlist => i.b == 0
  | _ => false

theorem Operand.mono {rk : Nat} (h : Operand registers constants rk) (le : registers ≤ registers')
    (grows : constants <+: constants') : Operand registers' constants' rk := by
  rcases h with register | ⟨k, small, inside, rfl⟩
  · exact .inl (register.trans_le le)
  · exact .inr ⟨k, small, inside.trans_le grows.length_le, rfl⟩

theorem getElem?_of_initial {α : Type} {l l' : List α} {k : Nat} {a : α} (h : l[k]? = some a) (grows : l <+: l') :
    l'[k]? = some a := by
  obtain ⟨more, rfl⟩ := grows
  rw [List.getElem?_append_left (List.getElem?_eq_some_iff.mp h).1, h]

theorem IsName.mono {k : Nat} (h : IsName constants k) (grows : constants <+: constants') :
    IsName constants' k := by
  obtain ⟨name, found⟩ := h
  exact ⟨name, getElem?_of_initial found grows⟩

theorem FineOperands.mono (h : FineOperands registers constants i) (le : registers ≤ registers')
    (grows : constants <+: constants') : FineOperands registers' constants' i := by
  have length := grows.length_le
  rcases i with ⟨op, a, b, c⟩
  cases op
  case move | loadnil | unm | not | len => exact ⟨h.1.trans_le le, h.2⟩
  case loadk => exact h.trans_le length
  case loadbool | newtable => exact h
  case getglobal | setglobal => exact IsName.mono h grows
  case gettable => exact ⟨h.1.trans_le le, h.2.mono le grows⟩
  case settable | add | sub | mul | div | mod | pow => exact ⟨h.1.mono le grows, h.2.mono le grows⟩
  case self => exact ⟨h.1.trans_le le, h.2.1.trans_le le, h.2.2.mono le grows⟩
  case concat => exact ⟨h.1, h.2.trans_le le⟩
  case call | tailcall => exact ⟨h.1, h.2.1.trans le, h.2.2.trans (Nat.succ_le_succ le)⟩
  case «return» => exact ⟨h.1, h.2.trans (Nat.succ_le_succ le)⟩
  case setlist => exact h.trans_le le
  case vararg => exact ⟨h.1, h.2.imp_right fun h => ⟨h.1, h.2.trans (Nat.succ_le_succ le)⟩⟩
  all_goals exact h.elim

theorem Fine.mono (h : Fine registers constants i) (le : registers ≤ registers')
    (grows : constants <+: constants') : Fine registers' constants' i :=
  ⟨h.fits, h.a.trans_le le, h.operands.mono le grows⟩

theorem Operand.lt {rk : Nat} (h : Operand registers constants rk) (le : registers ≤ 256) : rk < 512 := by
  have all : ∀ k < 256, constantIndexToRK k < 512 := by decide +kernel
  rcases h with register | ⟨k, small, -, rfl⟩
  · omega
  · exact all k (Nat.lt_succ_of_le small)

/-! ## The check of an instruction -/

section Check

variable {f : Function} {pc : Nat}

theorem ensure_ok {condition : Prop} [Decidable condition] {e : CheckError} (h : condition) :
    ensure condition e = .ok () := if_pos h

theorem checkArgMode_operand {rk : Nat} (h : Operand f.maxStack f.constants rk) (le : f.maxStack ≤ 256) :
    f.checkArgMode rk .constantOrRegisterConstant = .ok () := by
  unfold Function.checkArgMode
  dsimp only
  rcases h with register | ⟨k, small, inside, rfl⟩
  · rw [rk_register (show rk < rkMask from register.trans_le le)]
    exact ensure_ok register
  · rw [(rk_constant small).1, (rk_constant small).2]
    exact ensure_ok inside

theorem sum9_ok {x y : Nat} (h : x + y < 512) : Function.sum9 x y = .ok (x + y) := if_pos h

-- what has to follow an instruction whose results are left up to the top
def Followed (f : Function) (pc : Nat) (i : Instruction) : Prop :=
  opens i = true → f.checkopenopNext pc = .ok ()

theorem checkOperands_ok (fine : Fine f.maxStack f.constants i) (le : f.maxStack ≤ 256) :
    f.checkOperands i = .ok () := by
  obtain ⟨-, -, operands⟩ := fine
  rcases i with ⟨op, a, b, c⟩
  have both {x y : Except CheckError Unit} (first : x = .ok ()) (second : y = .ok ()) : (do x; y) = .ok () :=
    seq_ok.mpr ⟨first, second⟩
  cases op
  case move | loadnil | unm | not | len => exact both (ensure_ok operands.1) (ensure_ok operands.2)
  case loadk => exact ensure_ok operands
  case getglobal | setglobal =>
      obtain ⟨name, found⟩ := operands
      exact ensure_ok (List.getElem?_eq_some_iff.mp found).1
  case gettable => exact both (ensure_ok operands.1) (checkArgMode_operand operands.2 le)
  case settable | add | sub | mul | div | mod | pow =>
      exact both (checkArgMode_operand operands.1 le) (checkArgMode_operand operands.2 le)
  case self => exact both (ensure_ok operands.2.1) (checkArgMode_operand operands.2.2 le)
  case concat => exact both (ensure_ok (operands.1.trans operands.2)) (ensure_ok operands.2)
  case «return» => exact both rfl (ensure_ok operands.1)
  case vararg => exact both rfl (ensure_ok operands.1)
  case loadbool | newtable | call | tailcall | setlist => exact both rfl rfl
  all_goals exact operands.elim

theorem checkCall_ok (fine : Fine f.maxStack f.constants i) (le : f.maxStack ≤ 256) (call : i.op = .call ∨ i.op = .tailcall)
    (followed : Followed f pc i) : (do f.checkArguments i; f.checkResults pc i) = .ok () := by
  have operands : 0 < i.b ∧ i.a + i.b ≤ f.maxStack ∧ i.a + i.c ≤ f.maxStack + 1 := by
    have operands := fine.operands
    rcases call with op | op <;> simpa only [FineOperands, op] using operands
  refine seq_ok.mpr ⟨?_, ?_⟩
  · rw [Function.checkArguments, if_pos (by omega), sum9_ok (by omega)]
    exact ensure_ok (by omega)
  · unfold Function.checkResults
    split
    · rename_i none
      apply followed
      rcases call with op | op <;> simp [opens, op, none]
    · split
      · rw [sum9_ok (by omega)]
        exact ensure_ok (by omega)
      · rfl

theorem checkOp_ok (fine : Fine f.maxStack f.constants i) (le : f.maxStack ≤ 256) (followed : Followed f pc i)
    (batch : Function.takesBatch i = true → pc + 1 < f.code.length) : f.checkOp pc i = .ok () := by
  have call := fun h => checkCall_ok fine le h followed
  obtain ⟨-, -, operands⟩ := fine
  rcases i with ⟨op, a, b, c⟩
  cases op
  case loadbool => exact if_neg (not_not_intro operands)
  case getglobal | setglobal =>
      obtain ⟨name, found⟩ := operands
      simp only [Function.checkOp, found]
      rfl
  case self => exact ensure_ok operands.1
  case concat =>
      obtain ⟨less, below⟩ := operands
      refine seq_ok.mpr ⟨ensure_ok ?_, ensure_ok ?_⟩ <;> dsimp only at * <;> omega
  case call => exact call (.inl rfl)
  case tailcall => exact call (.inr rfl)
  case «return» =>
      have inside := operands.2
      dsimp only at inside
      simp only [Function.checkOp, Function.checkReturn]
      split
      · rw [sum9_ok (by omega)]
        exact ensure_ok (by omega)
      · rfl
  case setlist =>
      refine seq_ok.mpr ⟨?_, ensure_ok ?_⟩
      · unfold Function.checkValues
        split
        · exact ensure_ok operands
        · rfl
      · rcases Nat.eq_zero_or_pos c with rfl | positive
        · exact .inr (batch rfl)
        · exact .inl positive.ne'
  case vararg =>
      obtain ⟨-, values⟩ := operands
      simp only [Function.checkOp, Function.checkVararg]
      split
      · rename_i none
        exact followed (by simp [opens, none])
      · dsimp only at values
        rw [sum9_ok (by omega)]
        exact seq_ok.mpr ⟨ensure_ok (by omega), ensure_ok (by omega)⟩
  all_goals rfl

theorem check_ok (fine : Fine f.maxStack f.constants i) (le : f.maxStack ≤ 256) (followed : Followed f pc i)
    (batch : Function.takesBatch i = true → pc + 1 < f.code.length) : f.check pc i = .ok () := by
  have test : f.checkTest pc i = .ok () := by
    have operands := fine.operands
    rcases i with ⟨op, a, b, c⟩
    cases op
    all_goals first
      | rfl
      | exact operands.elim
  refine seq_ok.mpr ⟨ensure_ok fine.a, seq_ok.mpr ⟨checkOperands_ok fine le, ?_⟩⟩
  exact seq_ok.mpr ⟨test, checkOp_ok fine le followed batch⟩

end Check

/-! ## All the words -/

-- what the instruction at `index` needs after it is there
structure Complete (code : List Word) (index : Nat) (i : Instruction) : Prop where
  consumed : opens i = true → ∃ next, code[index + 1]? = some (.instr next) ∧ consumes next = true
  batch : Function.takesBatch i = true → ∃ n, code[index + 1]? = some (.batch n)

-- the words are checked, apart from one instruction that is not complete yet
structure Coded (exempt : Option Nat) (fs : Func) : Prop where
  instrs : ∀ index i, fs.code[index]? = some (.instr i) → exempt ≠ some index →
    Fine fs.maxStackSize.val fs.constants i ∧ Complete fs.code index i
  batches : ∀ index n, fs.code[index]? = some (.batch n) → ∃ before i, index = before + 1 ∧
    fs.code[before]? = some (.instr i) ∧ Function.takesBatch i = true

-- a batch number is not an instruction
def skipped : List Word → Nat
  | .batch _ :: _ => 1
  | _ => 0

section Accepted

variable {f : Function} {fs : Func} (coded : Coded none fs) (code : f.code = fs.code.map Word.encode)
  (stack : f.maxStack = fs.maxStackSize.val) (same : f.constants = fs.constants)

include coded code stack same in
theorem check_at {pc : Nat} (located : fs.code[pc]? = some (.instr i)) : f.check pc i = .ok () := by
  obtain ⟨fine, complete⟩ := coded.instrs pc i located (Option.some_ne_none _).symm
  have word {index : Nat} {w : Word} (there : fs.code[index]? = some w) : f.code[index]? = some w.encode := by
    rw [code, List.getElem?_map, there]
    rfl
  have small : f.maxStack ≤ 256 := by
    have below : fs.maxStackSize.val < 250 := fs.maxStackSize.lt
    omega
  refine check_ok (by rwa [stack, same]) small ?_ ?_
  · intro open'
    obtain ⟨next, there, uses⟩ := complete.consumed open'
    have fits := (coded.instrs (pc + 1) next there (Option.some_ne_none _).symm).1.fits
    have read : f.instruction (pc + 1) = .ok next := by
      rw [Function.instruction, word there]
      dsimp only [Option.bind_some, Word.encode]
      rw [Instruction.ofWord_word fits]
    rw [Function.checkopenopNext, read, ok_bind]
    unfold consumes at uses
    unfold Function.checkopenop
    split at uses <;> simp_all [ensure]
  · intro long
    obtain ⟨n, there⟩ := complete.batch long
    exact (List.getElem?_eq_some_iff.mp (word there)).1

include coded code stack same in
theorem symbexecFrom_ok (words : List Word) :
    ∀ pc, fs.code.drop pc = words → f.symbexecFrom pc (skipped words) (words.map Word.encode) = .ok () := by
  induction words with
  | nil => exact fun pc _ => rfl
  | cons w words ih =>
      intro pc rest
      have located : fs.code[pc]? = some w := by
        have head := congrArg List.head? rest
        rwa [List.head?_drop] at head
      have tail : fs.code.drop (pc + 1) = words := by
        rw [← List.drop_drop, rest, List.drop_one, List.tail_cons]
      have next : fs.code[pc + 1]? = words.head? := by rw [← tail, List.head?_drop]
      cases w with
      | batch n =>
          -- the word after a batch number is none
          have one : skipped words = 0 := by
            cases words with
            | nil => rfl
            | cons w words =>
                cases w with
                | instr i => rfl
                | batch m =>
                    obtain ⟨before, i, same, found, -⟩ := coded.batches (pc + 1) m next
                    obtain rfl : pc = before := by omega
                    rw [located] at found
                    cases found
          have onward := ih (pc + 1) tail
          rw [one] at onward
          rw [List.map_cons, skipped, Function.symbexecFrom, if_pos Nat.one_pos]
          exact onward
      | instr i =>
          obtain ⟨fine, complete⟩ := coded.instrs pc i located (Option.some_ne_none _).symm
          have skips : (if Function.takesBatch i then 1 else 0) = skipped words := by
            cases words with
            | nil =>
                rw [if_neg]
                · rfl
                · intro long
                  obtain ⟨n, there⟩ := complete.batch long
                  rw [next] at there
                  cases there
            | cons w words =>
                cases w with
                | instr j =>
                    rw [if_neg]
                    · rfl
                    · intro long
                      obtain ⟨n, there⟩ := complete.batch long
                      rw [next] at there
                      cases there
                | batch m =>
                    obtain ⟨before, j, same, found, long⟩ := coded.batches (pc + 1) m next
                    obtain rfl : pc = before := by omega
                    rw [located] at found
                    cases found
                    rw [if_pos long]
                    rfl
          have decoded : Instruction.ofWord (Word.instr i).encode = some i := Instruction.ofWord_word fine.fits
          have none : skipped (.instr i :: words) = 0 := rfl
          rw [List.map_cons, none, Function.symbexecFrom, if_neg (Nat.lt_irrefl 0), decoded]
          dsimp only
          rw [check_at coded code stack same located, ok_bind, skips]
          exact ih (pc + 1) tail

include coded code stack same in
theorem checkcode_ok (params : f.numParams = 0) (plain : f.varargs = { isVarArg := true }) (some : fs.code ≠ []) :
    f.checkcode = .ok () := by
  have small : f.maxStack ≤ Code.maxStackSize := by
    rw [stack]
    exact fs.maxStackSize.lt.le
  refine seq_ok.mpr ⟨?_, seq_ok.mpr ⟨ensure_ok ?_, ?_⟩⟩
  · refine seq_ok.mpr ⟨ensure_ok small, seq_ok.mpr ⟨ensure_ok (by simp [params]), ensure_ok (by simp [plain])⟩⟩
  · rw [code, List.length_map]
    exact fun none => some (List.length_eq_zero_iff.mp none)
  · have start : skipped fs.code = 0 := by
      cases words : fs.code with
      | nil => rfl
      | cons w rest =>
          cases w with
          | instr i => rfl
          | batch n =>
              obtain ⟨before, i, zero, -⟩ := coded.batches 0 n (by rw [words]; rfl)
              omega
    have accepted := symbexecFrom_ok coded code stack same fs.code 0 rfl
    rw [start] at accepted
    rw [code]
    exact accepted

end Accepted

end Zua.Compile
