import Zua.Compile.Reachable

/-!
# Registers as a stack

A description holds the registers from the first free one on that its value still needs. Every operation gives them
back from the last to the first, so that what is freed is always the last register that is taken.
-/

namespace Zua.Compile
open Code Syntax
open Memory (Constant)
open Zua.Lex (Token ch)

-- what stops compiling, apart from the checks of registers
abbrev Limit (e : Stop) : Prop := e ≠ .assertion ∧ e ≠ .overflow

-- from a stack that is large enough `x` keeps it so, and does not touch the locals or the current expression
def Works {α : Type} (x : FuncM α) (fs : Func) (Q : α → Func → Prop) : Prop :=
  fs.freeRegister ≤ fs.maxStackSize.val → Sat Limit x fs fun a fs' => fs'.freeRegister ≤ fs'.maxStackSize.val ∧
    fs'.numActiveLocalVars = fs.numActiveLocalVars ∧ fs'.curExp = fs.curExp ∧ Q a fs'

namespace Works

variable {α β : Type} {fs : Func} {Q : α → Func → Prop}

theorem pure {a : α} (h : Q a fs) : Works (Pure.pure a) fs Q := fun upper => ⟨upper, rfl, rfl, h⟩

theorem throw {e : Stop} (limit : Limit e) : Works (MonadExcept.throw e : FuncM α) fs Q := fun _ => limit

theorem bind {x : FuncM α} {f : α → FuncM β} {R : β → Func → Prop} (first : Works x fs Q)
    (rest : ∀ a fs', fs'.numActiveLocalVars = fs.numActiveLocalVars → Q a fs' → Works (f a) fs' R) :
    Works (x >>= f) fs R := by
  intro upper
  refine Sat.bind (Sat.mono (first upper) ?_)
  rintro a fs' ⟨upper, number, same, h⟩
  refine Sat.mono (rest a fs' number h upper) ?_
  rintro b fs'' ⟨upper, number', same', h'⟩
  exact ⟨upper, number'.trans number, same'.trans same, h'⟩

theorem mono {x : FuncM α} {R : α → Func → Prop} (h : Works x fs Q)
    (weaker : ∀ a fs', fs'.numActiveLocalVars = fs.numActiveLocalVars → Q a fs' → R a fs') : Works x fs R := by
  intro upper
  refine Sat.mono (h upper) ?_
  rintro a fs' ⟨upper, number, same, holds⟩
  exact ⟨upper, number, same, weaker a fs' number holds⟩

theorem get {f : Func → FuncM α} (h : fs.freeRegister ≤ fs.maxStackSize.val → Works (f fs) fs Q) :
    Works (MonadState.get >>= f) fs Q := fun upper => h upper upper

theorem modify {f : Func → Func} {Q : Unit → Func → Prop}
    (upper : fs.freeRegister ≤ fs.maxStackSize.val → (f fs).freeRegister ≤ (f fs).maxStackSize.val)
    (number : (f fs).numActiveLocalVars = fs.numActiveLocalVars) (same : (f fs).curExp = fs.curExp) (h : Q () (f fs)) :
    Works (modifyGet fun fs => ((), f fs)) fs Q := fun le => ⟨upper le, number, same, h⟩

end Works

/-! ## The registers of a description -/

variable {low high mid : Nat} {fs : Func} {e : ExpDesc} {r : Nat}

-- the register of a local, or the register `low`, which is then taken
def Slot (fs : Func) (low high r : Nat) : Prop := r < fs.numActiveLocalVars ∧ high = low ∨ r = low ∧ high = low + 1

def Key (fs : Func) (low high rk : Nat) : Prop := rkIsConstant rk = true ∧ high = low ∨ Slot fs low high rk

theorem Slot.le (slot : Slot fs low high r) : low ≤ high := by
  rcases slot with ⟨-, rfl⟩ | ⟨-, rfl⟩
  · exact le_rfl
  · exact Nat.le_succ _

theorem Key.le (key : Key fs low high r) : low ≤ high := by
  rcases key with ⟨-, rfl⟩ | slot
  · exact le_rfl
  · exact Slot.le slot

def InstrAt (fs : Func) (index : Nat) (p : Instruction → Prop) : Prop :=
  ∃ i, fs.code[index]? = some (.instr i) ∧ p i

-- the registers from `low` to the first free one are those of the description
def Temps (low : Nat) (fs : Func) : ExpDesc → Prop
  | .void | .nil | .true | .false | .constantIndex _ | .number _ | .global _ => fs.freeRegister = low
  | .localRegister r => r < fs.numActiveLocalVars ∧ fs.freeRegister = low
  | .upvalueIndex _ => False
  | .indexed table key => ∃ mid, Slot fs low mid table ∧ Key fs mid fs.freeRegister key
  -- the operands of a comparison are never given back, and its value cannot be loaded
  | .jmp _ => True
  | .relocable index => fs.freeRegister = low ∧ InstrAt fs index fun i =>
      i.op.opMeta.setsRegisterInA = true ∧ (i.op = .concat → i.b = low)
  | .nonreloc r => Slot fs low fs.freeRegister r
  | .call index => fs.freeRegister = low + 1 ∧ InstrAt fs index fun i => i.op = .call ∧ i.a = low
  | .vararg index => fs.freeRegister = low ∧ InstrAt fs index fun i => i.op = .vararg

-- the descriptions that `dischargevars` leaves
def isDischarged : ExpDesc → Bool
  | .localRegister _ | .upvalueIndex _ | .global _ | .indexed _ _ | .call _ | .vararg _ => false
  | _ => true

namespace Func

theorem reserveregs_works (n : Nat) : Works (reserveregs n) fs fun _ fs' =>
    fs'.freeRegister = fs.freeRegister + n ∧ fs'.code = fs.code ∧ fs'.constants = fs.constants := by
  intro upper
  have checked : Sat Limit (checkstack n) fs fun _ fs' => fs.freeRegister + n ≤ fs'.maxStackSize.val ∧
      fs' = { fs with maxStackSize := fs'.maxStackSize } := by
    refine Sat.bind (Sat.get ?_)
    dsimp only
    split
    · exact Sat.throw (by decide)
    split
    · rename_i fits
      exact Sat.pure ⟨fits, rfl⟩
    split
    · exact Sat.throw (by decide)
    · exact Sat.set ⟨le_rfl, rfl⟩
  refine Sat.bind (checked.mono ?_)
  rintro _ fs' ⟨room, same⟩
  refine Sat.modify ?_
  rw [same]
  exact ⟨room, rfl, rfl, rfl, rfl, rfl⟩

theorem not_constant (fs : Func) {r : Nat} (small : r < fs.maxStackSize.val) : rkIsConstant r = false := by
  have limit := fs.maxStackSize.lt
  have : Code.maxStackSize = 250 := rfl
  exact rk_register (show r < 256 by omega)

-- the last register of a description is given back
theorem freereg_works {fs : Func} {low r : Nat} (locals : fs.numActiveLocalVars ≤ low) (key : Key fs low fs.freeRegister r) :
    Works (freereg r) fs fun _ fs' => fs' = { fs with freeRegister := low } := by
  refine Works.get fun upper => ?_
  rcases key with ⟨constant, same⟩ | ⟨small, same⟩ | ⟨rfl, same⟩
  · rw [constant]
    refine Works.pure ?_
    rw [← same]
  · have other : ¬((!rkIsConstant r) && decide (fs.numActiveLocalVars ≤ r)) = true := by
      simp [small]
    rw [if_neg other]
    refine Works.pure ?_
    rw [← same]
  · split
    · rw [if_neg (by omega), if_neg (by omega)]
      intro _
      refine Sat.set ⟨?_, rfl, rfl, ?_⟩
      · dsimp only
        omega
      · rw [same, Nat.add_sub_cancel]
    · rename_i other
      have := not_constant fs (r := r) (by omega)
      simp [this, locals] at other

theorem emitWord_works (w : Word) : Works (emitWord w) fs fun index fs' =>
    index = fs.code.length ∧ fs' = { fs with code := fs.code ++ [w] } :=
  fun upper => ⟨upper, rfl, rfl, rfl, rfl⟩

theorem emitABC_works (op : OpCode) (a b c : Nat) : Works (emitABC op a b c) fs fun index fs' =>
    index = fs.code.length ∧ fs' = { fs with code := fs.code ++ [.instr ⟨op, a, b, c⟩] } := emitWord_works _

theorem emitABx_works (op : OpCode) (a bx : Nat) : Works (emitABx op a bx) fs fun index fs' =>
    index = fs.code.length ∧ fs' = { fs with code := fs.code ++ [.instr (.abx op a bx)] } := emitWord_works _

theorem emitNil_works (start : Nat) {n : Nat} (positive : n ≠ 0) : Works (emitNil start n) fs fun _ fs' =>
    fs'.freeRegister = fs.freeRegister := by
  refine Works.get fun _ => ?_
  rw [if_neg positive]
  split
  · exact .pure rfl
  · refine .bind (emitABC_works _ _ _ _) ?_
    rintro index fs' - ⟨-, rfl⟩
    exact .pure rfl

theorem getcode_works (index : Nat) : Works (getcode index) fs fun i fs' =>
    fs.code[index]? = some (.instr i) ∧ fs' = fs := by
  refine Works.get fun _ => ?_
  split
  · exact .pure ⟨‹_›, rfl⟩
  · exact .throw (by decide)

theorem patch_works (index : Nat) (f : Instruction → Instruction) : Works (patch index f) fs fun _ fs' =>
    ∃ i, fs.code[index]? = some (.instr i) ∧ fs' = { fs with code := fs.code.set index (.instr (f i)) } := by
  refine .bind (getcode_works index) ?_
  rintro i fs' - ⟨found, rfl⟩
  exact .modify id rfl rfl ⟨i, found, rfl⟩

theorem putConstant_works (constant : Constant) : Works (putConstant constant) fs fun k fs' =>
    fs' = { fs with constants := fs'.constants } ∧ k ≤ fs.constants.length := by
  refine Works.get fun _ => ?_
  split
  · rename_i index found
    exact .pure ⟨rfl, (List.findIdx?_eq_some_iff_findIdx_eq.mp found).1.le⟩
  split
  · exact .throw (by decide)
  · exact fun upper => ⟨upper, rfl, rfl, rfl, le_rfl⟩

end Func

theorem InstrAt.set {index : Nat} {q : Instruction → Prop} {i j : Instruction} (found : fs.code[index]? = some (.instr i))
    (h : q j) : InstrAt { fs with code := fs.code.set index (.instr j) } index q :=
  ⟨j, List.getElem?_set_self (List.getElem?_eq_some_iff.mp found).1, h⟩

theorem InstrAt.last {i : Instruction} {q : Instruction → Prop} (h : q i) :
    InstrAt { fs with code := fs.code ++ [.instr i] } fs.code.length q :=
  ⟨i, List.getElem?_concat_length, h⟩

namespace Func

theorem setoneret_works (temps : Temps low fs e) : Works (setoneret e) fs fun e' fs' =>
    Temps low fs' e' ∧ (e.hasmultret = true → isDischarged e' = true) ∧ (e.hasmultret = false → e' = e ∧ fs' = fs) := by
  cases e with
  | call index =>
      obtain ⟨free, i, found, -, register⟩ := temps
      refine .bind (getcode_works index) ?_
      rintro j fs' - ⟨found', rfl⟩
      cases found.symm.trans found'
      exact .pure ⟨.inr ⟨register, free⟩, fun _ => rfl, fun h => Bool.noConfusion h⟩
  | vararg index =>
      obtain ⟨free, i, found, op⟩ := temps
      refine .bind (patch_works index _) ?_
      rintro _ fs' - ⟨j, found', rfl⟩
      cases found.symm.trans found'
      refine .pure ⟨⟨free, .set found ⟨?_, fun concat => ?_⟩⟩, fun _ => rfl, fun h => Bool.noConfusion h⟩
      · show (OpCode.opMeta i.op).setsRegisterInA = true
        rw [op]
        rfl
      · cases op.symm.trans concat
  | _ => exact .pure ⟨temps, fun h => Bool.noConfusion h, fun _ => ⟨rfl, rfl⟩⟩

theorem dischargevars_works (locals : fs.numActiveLocalVars ≤ low) (temps : Temps low fs e) :
    Works (dischargevars e) fs fun e' fs' => Temps low fs' e' ∧ isDischarged e' = true ∧
      (isDischarged e = false → e.hasmultret = false → fs'.freeRegister = low) := by
  cases e with
  | localRegister r => exact .pure ⟨.inl ⟨temps.1, temps.2⟩, rfl, fun _ _ => temps.2⟩
  | upvalueIndex i => exact temps.elim
  | global k =>
      refine .bind (emitABx_works _ _ _) ?_
      rintro index fs' - ⟨rfl, rfl⟩
      exact .pure ⟨⟨temps, .last ⟨rfl, fun h => OpCode.noConfusion h⟩⟩, rfl, fun _ _ => temps⟩
  | indexed table key =>
      obtain ⟨mid, slot, keySlot⟩ := temps
      refine .bind (freereg_works (locals.trans (Slot.le slot)) keySlot) ?_
      rintro _ fs' - rfl
      refine .bind (freereg_works locals (.inr slot)) ?_
      rintro _ fs' - rfl
      refine .bind (emitABC_works _ _ _ _) ?_
      rintro index fs' - ⟨rfl, rfl⟩
      exact .pure ⟨⟨rfl, .last ⟨rfl, fun h => OpCode.noConfusion h⟩⟩, rfl, fun _ _ => rfl⟩
  | call index =>
      refine (setoneret_works temps).mono ?_
      rintro e' fs' - ⟨temps, discharged, -⟩
      exact ⟨temps, discharged rfl, fun _ h => Bool.noConfusion h⟩
  | vararg index =>
      refine (setoneret_works temps).mono ?_
      rintro e' fs' - ⟨temps, discharged, -⟩
      exact ⟨temps, discharged rfl, fun _ h => Bool.noConfusion h⟩
  | _ => exact .pure ⟨temps, rfl, fun h => Bool.noConfusion h⟩

theorem dischargevars_discharged (h : isDischarged e = true) : dischargevars e = Pure.pure e := by
  cases e with
  | localRegister | upvalueIndex | global | indexed | call | vararg => cases h
  | _ => rfl

-- what loading a description into a register relies on
def Loads (fs : Func) (e : ExpDesc) : Prop :=
  isDischarged e = true ∧ ∀ index, e = .relocable index → InstrAt fs index fun i => i.op.opMeta.setsRegisterInA = true

def isJump : ExpDesc → Bool
  | .jmp _ => true
  | _ => false

theorem discharge2reg_works (loads : Loads fs e) (reg : Nat) : Works (discharge2reg e reg) fs fun d fs' =>
    fs'.freeRegister = fs.freeRegister ∧ (isJump e = true → d = e) ∧
      (isJump e = false → e ≠ .void → d = .nonreloc reg) := by
  unfold discharge2reg
  rw [dischargevars_discharged loads.1, pure_bind]
  have emit (op : OpCode) (a b c : Nat) (plain : isJump e = false) :
      Works (emitABC op a b c >>= fun _ => Pure.pure (.nonreloc reg)) fs fun d fs' =>
        fs'.freeRegister = fs.freeRegister ∧ (isJump e = true → d = e) ∧
          (isJump e = false → e ≠ .void → d = .nonreloc reg) := by
    refine .bind (emitABC_works _ _ _ _) ?_
    rintro index fs' - ⟨-, rfl⟩
    exact .pure ⟨rfl, fun h => Bool.noConfusion (plain.symm.trans h), fun _ _ => rfl⟩
  cases e with
  | nil =>
      refine .bind (emitNil_works reg Nat.one_ne_zero) ?_
      rintro _ fs' - free
      exact .pure ⟨free, fun h => Bool.noConfusion h, fun _ _ => rfl⟩
  | «true» => exact emit _ _ _ _ rfl
  | «false» => exact emit _ _ _ _ rfl
  | constantIndex k =>
      refine .bind (emitABx_works _ _ _) ?_
      rintro index fs' - ⟨-, rfl⟩
      exact .pure ⟨rfl, fun h => Bool.noConfusion h, fun _ _ => rfl⟩
  | number n =>
      refine .bind (putConstant_works _) ?_
      rintro k fs₁ - ⟨same, -⟩
      refine .bind (emitABx_works _ _ _) ?_
      rintro index fs₂ - ⟨-, rfl⟩
      refine .pure ⟨?_, fun h => Bool.noConfusion h, fun _ _ => rfl⟩
      rw [same]
  | relocable index =>
      obtain ⟨i, found, sets⟩ := loads.2 index rfl
      refine .bind (getcode_works index) ?_
      rintro j fs' - ⟨found', rfl⟩
      cases found.symm.trans found'
      rw [if_pos sets]
      refine .bind (patch_works index _) ?_
      rintro _ fs' - ⟨j, -, rfl⟩
      exact .pure ⟨rfl, fun h => Bool.noConfusion h, fun _ _ => rfl⟩
  | nonreloc r =>
      dsimp only
      split
      · exact .pure ⟨rfl, fun h => Bool.noConfusion h, fun _ _ => rfl⟩
      · exact emit _ _ _ _ rfl
  | void => exact .pure ⟨rfl, fun h => Bool.noConfusion h, fun _ h => (h rfl).elim⟩
  | jmp => exact .pure ⟨rfl, fun _ => rfl, fun h => Bool.noConfusion h⟩
  | localRegister | upvalueIndex | global | indexed | call | vararg => cases loads.1

theorem exp2reg_works (loads : Loads fs e) (reg : Nat) : Works (exp2reg e reg) fs fun d fs' =>
    d = .nonreloc reg ∧ fs'.freeRegister = fs.freeRegister ∧ isJump e = false := by
  refine .bind (discharge2reg_works loads reg) ?_
  rintro d fs' - ⟨free, jump, -⟩
  cases h : isJump e with
  | true =>
      rw [jump h]
      cases e with
      | jmp index => exact .throw (by decide)
      | _ => cases h
  | false =>
      split
      · exact .throw (by decide)
      · exact .pure ⟨rfl, free, rfl⟩

end Func

theorem Temps.loads (temps : Temps low fs e) (discharged : isDischarged e = true) : Func.Loads fs e := by
  refine ⟨discharged, ?_⟩
  rintro index rfl
  obtain ⟨-, i, found, sets, -⟩ := temps
  exact ⟨i, found, sets⟩

open Func in
theorem Temps.literal {constant : Constant} (temps : Temps low fs e) (literal : literal? e = some constant) :
    fs.freeRegister = low := by
  cases e with
  | nil | «true» | «false» | number => exact temps
  | _ => cases literal

namespace Func

theorem freeexp_works (locals : fs.numActiveLocalVars ≤ low) (temps : Temps low fs e) (discharged : isDischarged e = true) :
    Works (freeexp e) fs fun _ fs' => fs' = { fs with freeRegister := fs'.freeRegister } ∧
      (isJump e = false → fs'.freeRegister = low) := by
  cases e with
  | nonreloc r =>
      refine (freereg_works locals (.inr temps)).mono ?_
      rintro _ fs' - rfl
      exact ⟨rfl, fun _ => rfl⟩
  | jmp => exact .pure ⟨rfl, fun h => Bool.noConfusion h⟩
  | relocable => exact .pure ⟨rfl, fun _ => temps.1⟩
  | void | nil | «true» | «false» | constantIndex | number => exact .pure ⟨rfl, fun _ => temps⟩
  | localRegister | upvalueIndex | global | indexed | call | vararg => cases discharged

theorem exp2nextreg_works (locals : fs.numActiveLocalVars ≤ low) (temps : Temps low fs e) :
    Works (exp2nextreg e) fs fun result fs' => result = (low, .nonreloc low) ∧ fs'.freeRegister = low + 1 := by
  refine .bind (dischargevars_works locals temps) ?_
  rintro d fs₁ number₁ ⟨temps, discharged, -⟩
  have loads := temps.loads discharged
  refine .bind (freeexp_works (by rw [number₁]; exact locals) temps discharged) ?_
  rintro _ fs₂ - ⟨same, free⟩
  refine .bind (reserveregs_works 1) ?_
  rintro _ fs₃ - ⟨reserved, code, -⟩
  refine Works.get fun _ => ?_
  refine .bind (exp2reg_works (e := d) ⟨discharged, ?_⟩ _) ?_
  · rw [same] at code
    intro index is
    obtain ⟨i, found, sets⟩ := loads.2 index is
    exact ⟨i, by rw [code]; exact found, sets⟩
  · rintro e' fs₄ - ⟨rfl, kept, plain⟩
    have last := free plain
    have low_eq : fs₃.freeRegister - 1 = low := by rw [reserved, last, Nat.add_sub_cancel]
    refine .pure ⟨by rw [low_eq], by rw [kept, reserved, last]⟩

theorem exp2anyreg_works (locals : fs.numActiveLocalVars ≤ low) (temps : Temps low fs e) :
    Works (exp2anyreg e) fs fun result fs' => result.2 = .nonreloc result.1 ∧ Slot fs' low fs'.freeRegister result.1 := by
  refine .bind (dischargevars_works locals temps) ?_
  rintro d fs₁ number₁ ⟨temps, discharged, -⟩
  have next (e : ExpDesc) (temps : Temps low fs₁ e) : Works (exp2nextreg e) fs₁ fun result fs' =>
      result.2 = .nonreloc result.1 ∧ Slot fs' low fs'.freeRegister result.1 := by
    refine (exp2nextreg_works (by rw [number₁]; exact locals) temps).mono ?_
    rintro _ fs₂ - ⟨rfl, free⟩
    exact ⟨rfl, .inr ⟨rfl, free⟩⟩
  cases d with
  | nonreloc r => exact .pure ⟨rfl, temps⟩
  | _ => exact next _ temps

end Func

def isConstant : ExpDesc → Bool
  | .nil | .true | .false | .number _ | .constantIndex _ => true
  | _ => false

-- an operand of an instruction, and the description that still holds its register
def AsRK (fs : Func) (low high rk : Nat) (e : ExpDesc) : Prop :=
  isConstant e = true ∧ rkIsConstant rk = true ∧ high = low ∨ e = .nonreloc rk ∧ Slot fs low high rk

namespace Func

theorem isConstant_literal {constant : Constant} (literal : literal? e = some constant) : isConstant e = true := by
  cases e with
  | nil | «true» | «false» | number => rfl
  | _ => cases literal

theorem exp2RK_works (locals : fs.numActiveLocalVars ≤ low) (temps : Temps low fs e) :
    Works (exp2RK e) fs fun result fs' => AsRK fs' low fs'.freeRegister result.1 result.2 := by
  refine .bind (dischargevars_works locals temps) ?_
  rintro d fs₁ number₁ ⟨temps, discharged, -⟩
  have any : Works (exp2anyreg d) fs₁ fun result fs' => AsRK fs' low fs'.freeRegister result.1 result.2 :=
    (exp2anyreg_works (by rw [number₁]; exact locals) temps).mono fun _ _ _ h => .inr h
  refine Works.get fun _ => ?_
  split
  · rename_i constant literal
    split
    · rename_i small
      refine .bind (putConstant_works constant) ?_
      rintro k fs₂ - ⟨same, le⟩
      have free : fs₂.freeRegister = fs₁.freeRegister := by rw [same]
      exact .pure (.inl ⟨isConstant_literal literal, (rk_constant (le.trans small)).1, free.trans (temps.literal literal)⟩)
    · exact any
  · split
    · rename_i k _ small
      exact .pure (.inl ⟨rfl, (rk_constant small).1, temps⟩)
    · exact any
  · exact any

theorem indexed_works {table key : ExpDesc} {t : Nat} (locals : fs.numActiveLocalVars ≤ low) (is : table = .nonreloc t)
    (slot : Slot fs low mid t) (temps : Temps mid fs key) :
    Works (indexed table key) fs fun e' fs' => Temps low fs' e' := by
  refine .bind (exp2RK_works (locals.trans (Slot.le slot)) temps) ?_
  rintro ⟨rk, e⟩ fs' number rk
  rw [is]
  refine .pure ⟨mid, ?_, ?_⟩
  · unfold Slot
    rw [number]
    exact slot
  · rcases rk with ⟨-, constant, free⟩ | ⟨-, slot⟩
    · exact .inl ⟨constant, free⟩
    · exact .inr slot

theorem handleSelf_works {k : Nat} (locals : fs.numActiveLocalVars ≤ low) (temps : Temps low fs e) :
    Works (handleSelf e (.constantIndex k)) fs fun e' fs' => e' = .nonreloc low ∧ fs'.freeRegister = low + 2 := by
  refine .bind (exp2anyreg_works locals temps) ?_
  rintro ⟨r, e⟩ fs₁ number₁ ⟨is, slot⟩
  obtain rfl : e = .nonreloc r := is
  refine .bind (freereg_works (by rw [number₁]; exact locals) (.inr slot)) ?_
  rintro _ fs₂ number₂ rfl
  refine Works.get fun _ => ?_
  refine .bind (reserveregs_works 2) ?_
  rintro _ fs₃ number₃ ⟨free, -, -⟩
  have locals₃ : fs₃.numActiveLocalVars ≤ low + 2 := by rw [number₃, number₂, number₁]; omega
  refine .bind (exp2RK_works locals₃ (show Temps (low + 2) fs₃ (.constantIndex k) from free)) ?_
  rintro ⟨rk, key⟩ fs₄ number₄ asRK
  refine .bind (emitABC_works _ _ _ _) ?_
  rintro index fs₅ number₅ ⟨-, rfl⟩
  have freed : Works (freeexp key) { fs₄ with code := fs₄.code ++ [.instr ⟨.self, low, r, rk⟩] } fun _ fs' =>
      fs'.freeRegister = low + 2 := by
    rcases asRK with ⟨plain, -, same⟩ | ⟨is, slot⟩
    · cases key with
      | nonreloc r => cases plain
      | _ => exact .pure same
    · obtain rfl : key = .nonreloc rk := is
      have taken : Key { fs₄ with code := fs₄.code ++ [.instr ⟨.self, low, r, rk⟩] } (low + 2) fs₄.freeRegister rk :=
        .inr slot
      refine (freereg_works ?_ taken).mono ?_
      · rw [number₅, number₄]
        exact locals₃
      · rintro _ fs' - rfl
        rfl
  refine .bind freed ?_
  rintro _ fs₆ - free
  exact .pure ⟨rfl, free⟩

theorem discharge2reg_after {Q : ExpDesc → Func → Prop} (reg : Nat) (first : Works (dischargevars e) fs fun d fs' =>
    isDischarged d = true ∧ Works (discharge2reg d reg) fs' Q) : Works (discharge2reg e reg) fs Q := by
  refine .bind first ?_
  rintro d fs' - ⟨discharged, rest⟩
  unfold discharge2reg at rest
  rw [dischargevars_discharged discharged, pure_bind] at rest
  exact rest

-- the value goes to the register of a local
theorem storeLocal_works (locals : fs.numActiveLocalVars ≤ low) (temps : Temps low fs e) (single : e.hasmultret = false)
    (r : Nat) : Works (do freeexp e; exp2reg e r) fs fun _ fs' => fs'.freeRegister = low := by
  cases discharged : isDischarged e with
  | true =>
      have loads := temps.loads discharged
      refine .bind (freeexp_works locals temps discharged) ?_
      rintro _ fs₁ - ⟨same, free⟩
      refine (exp2reg_works (e := e) ⟨discharged, fun index is => ?_⟩ r).mono ?_
      · obtain ⟨i, found, sets⟩ := loads.2 index is
        exact ⟨i, by rw [same]; exact found, sets⟩
      · rintro d fs₂ - ⟨-, kept, plain⟩
        exact kept.trans (free plain)
  | false =>
      have nothing : freeexp e = Pure.pure () := by
        cases e with
        | nonreloc => cases discharged
        | _ => rfl
      rw [nothing, pure_bind]
      refine .bind (Q := fun _ fs' => fs'.freeRegister = low) (discharge2reg_after r ?_) ?_
      · refine (dischargevars_works locals temps).mono ?_
        rintro d fs₁ - ⟨temps, is, free⟩
        refine ⟨is, (discharge2reg_works (temps.loads is) r).mono ?_⟩
        rintro _ fs₂ - ⟨kept, -, -⟩
        exact kept.trans (free discharged single)
      · rintro d fs₂ - free
        split
        · exact .throw (by decide)
        · exact .pure free

-- the variable that a name stands for
def Variable (fs : Func) : ExpDesc → Prop
  | .localRegister r => r < fs.numActiveLocalVars
  | .global _ => True
  | _ => False

theorem Variable.frame {fs' : Func} (named : Variable fs e) (number : fs'.numActiveLocalVars = fs.numActiveLocalVars) :
    Variable fs' e := by
  cases e with
  | localRegister r => exact lt_of_lt_of_eq named number.symm
  | global => trivial
  | _ => exact named

theorem storevar_works {var : ExpDesc} (named : Variable fs var) (locals : fs.numActiveLocalVars ≤ low)
    (temps : Temps low fs e) (single : e.hasmultret = false) :
    Works (storevar var e) fs fun _ fs' => fs'.freeRegister = low := by
  cases var with
  | localRegister r => exact storeLocal_works locals temps single r
  | global k =>
      refine .bind (exp2anyreg_works locals temps) ?_
      rintro ⟨r, e⟩ fs₁ number₁ ⟨is, slot⟩
      obtain rfl : e = .nonreloc r := is
      refine .bind (emitABx_works _ _ _) ?_
      rintro index fs₂ number₂ ⟨-, rfl⟩
      refine .bind (freereg_works (show fs₁.numActiveLocalVars ≤ low by rw [number₁]; exact locals) (.inr slot)) ?_
      rintro _ fs₃ - rfl
      exact .pure rfl
  | _ => cases named

/-! ## Operators -/

theorem discharge2anyreg_works {index : Nat} (temps : Temps low fs (.relocable index)) :
    Works (discharge2anyreg (.relocable index)) fs fun d fs' => d = .nonreloc low ∧ fs'.freeRegister = low + 1 := by
  have loads := temps.loads rfl
  refine .bind (reserveregs_works 1) ?_
  rintro _ fs₁ - ⟨free, code, -⟩
  refine Works.get fun _ => ?_
  have loads₁ : Loads fs₁ (.relocable index) := by
    refine ⟨rfl, fun k is => ?_⟩
    obtain ⟨i, found, sets⟩ := loads.2 k is
    exact ⟨i, by rw [code]; exact found, sets⟩
  refine (discharge2reg_works loads₁ _).mono ?_
  rintro d fs₂ - ⟨kept, -, result⟩
  rw [result rfl ExpDesc.noConfusion, kept, free, temps.1, Nat.add_sub_cancel]
  exact ⟨rfl, rfl⟩

theorem codenot_works (locals : fs.numActiveLocalVars ≤ low) (temps : Temps low fs e) :
    Works (codenot e) fs fun d fs' => Temps low fs' d := by
  refine .bind (dischargevars_works locals temps) ?_
  rintro d fs₁ number₁ ⟨temps, discharged, -⟩
  have locals₁ : fs₁.numActiveLocalVars ≤ low := by rw [number₁]; exact locals
  have negated {fs : Func} {r : Nat} (locals : fs.numActiveLocalVars ≤ low) (slot : Slot fs low fs.freeRegister r) :
      Works (do freeexp (.nonreloc r); let index ← emitABC .not 0 r 0; return .relocable index) fs fun d fs' =>
        Temps low fs' d := by
    refine .bind (freereg_works locals (.inr slot)) ?_
    rintro _ fs₂ - rfl
    refine .bind (emitABC_works _ _ _ _) ?_
    rintro index fs₃ - ⟨rfl, rfl⟩
    exact .pure ⟨rfl, .last ⟨rfl, fun h => OpCode.noConfusion h⟩⟩
  cases d with
  | nil | «false» | constantIndex | number | «true» => exact .pure temps
  | jmp => exact .throw (by decide)
  | nonreloc r => exact negated locals₁ temps
  | relocable index =>
      refine .bind (discharge2anyreg_works temps) ?_
      rintro d fs₂ number₂ ⟨rfl, free⟩
      exact negated (by rw [number₂]; exact locals₁) (.inr ⟨rfl, free⟩)
  | void | localRegister | upvalueIndex | global | indexed | call | vararg => exact .throw (by decide)

variable (A : F64.Arithmetic)

theorem constfolding_works (op : OpCode) (e1 : ExpDesc) (e2 : Option ExpDesc) : Works (constfolding A op e1 e2) fs
    fun folded fs' => fs' = fs ∧ (folded.isSome = true → e1.isnumeral = true ∧ ∀ e ∈ e2, e.isnumeral = true) := by
  have folds (v1 v2 : F64) (numerals : e1.isnumeral = true ∧ ∀ e ∈ e2, e.isnumeral = true) : Works (fold A op v1 v2) fs
      fun folded fs' => fs' = fs ∧ (folded.isSome = true → e1.isnumeral = true ∧ ∀ e ∈ e2, e.isnumeral = true) := by
    unfold fold
    split
    all_goals first
      | exact .pure ⟨rfl, fun _ => numerals⟩
      | exact .throw (by decide)
  unfold constfolding
  split
  · exact folds _ _ ⟨rfl, fun e is => by cases is; rfl⟩
  · exact folds _ _ ⟨rfl, fun e is => by cases is⟩
  · exact .pure ⟨rfl, fun h => Bool.noConfusion h⟩

theorem freeRK_works (fs : Func) {rk : Nat} (locals : fs.numActiveLocalVars ≤ low) (asRK : AsRK fs low fs.freeRegister rk e) :
    Works (freeexp e) fs fun _ fs' => fs' = { fs with freeRegister := low } := by
  rcases asRK with ⟨plain, -, same⟩ | ⟨rfl, slot⟩
  · rw [← same]
    cases e with
    | nil | «true» | «false» | number | constantIndex => exact .pure rfl
    | _ => cases plain
  · exact freereg_works locals (.inr slot)

-- without a register there is nothing to give back
theorem freeIdle_works (fs : Func) {rk : Nat} (asRK : AsRK fs low low rk e) : Works (freeexp e) fs fun _ fs' => fs' = fs := by
  rcases asRK with ⟨plain, -, -⟩ | ⟨rfl, slot⟩
  · cases e with
    | nil | «true» | «false» | number | constantIndex => exact .pure rfl
    | _ => cases plain
  · have small : rk < fs.numActiveLocalVars := by
      rcases slot with ⟨small, -⟩ | ⟨-, wrong⟩
      · exact small
      · omega
    refine Works.get fun _ => ?_
    rw [if_neg (by simp [small])]
    exact .pure rfl

theorem AsRK.frame {fs' : Func} {rk : Nat} (number : fs'.numActiveLocalVars = fs.numActiveLocalVars)
    (asRK : AsRK fs low high rk e) : AsRK fs' low high rk e := by
  unfold AsRK Slot at *
  rw [number]
  exact asRK

-- what is below takes a register, or nothing
theorem AsRK.cases {rk : Nat} (asRK : AsRK fs low high rk e) : high = low ∨ rk = low ∧ high = low + 1 := by
  rcases asRK with ⟨-, -, same⟩ | ⟨-, ⟨-, same⟩ | taken⟩
  · exact .inl same
  · exact .inl same
  · exact .inr taken

theorem freeDown_works {a b : Nat} {below above : ExpDesc} (locals : fs.numActiveLocalVars ≤ low)
    (first : AsRK fs low mid a below) (second : AsRK fs mid fs.freeRegister b above) :
    Works (do freeexp above; freeexp below) fs fun _ fs' => fs'.freeRegister = low := by
  have le : low ≤ mid := by rcases AsRK.cases first with rfl | ⟨-, rfl⟩ <;> omega
  refine .bind (freeRK_works fs (locals.trans le) second) ?_
  rintro _ fs₁ - rfl
  refine (freeRK_works { fs with freeRegister := mid } locals (AsRK.frame rfl first)).mono ?_
  rintro _ fs₂ - rfl
  rfl

-- the other order is taken when one of them has no register
theorem freeUp_works {a b : Nat} {below above : ExpDesc} (locals : fs.numActiveLocalVars ≤ low)
    (first : AsRK fs low mid a below) (second : AsRK fs mid fs.freeRegister b above) (order : b ≤ a) :
    Works (do freeexp below; freeexp above) fs fun _ fs' => fs'.freeRegister = low := by
  rcases AsRK.cases first with rfl | ⟨rfl, rfl⟩
  · refine .bind (freeIdle_works fs first) ?_
    rintro _ fs₁ - rfl
    refine (freeRK_works _ locals second).mono ?_
    rintro _ fs₂ - rfl
    rfl
  · have idle : fs.freeRegister = a + 1 := by rcases AsRK.cases second with same | ⟨rfl, -⟩ <;> omega
    rw [idle] at second
    refine .bind (freeRK_works fs locals (by rw [idle]; exact first)) ?_
    rintro _ fs₁ - rfl
    refine (freeIdle_works { fs with freeRegister := a } (AsRK.frame rfl second)).mono ?_
    rintro _ fs₂ - rfl
    rfl

theorem freeBoth_works {o1 o2 : Nat} {e1 e2 : ExpDesc} (locals : fs.numActiveLocalVars ≤ low)
    (held : AsRK fs low mid o1 e1 ∧ AsRK fs mid fs.freeRegister o2 e2 ∨
      AsRK fs low mid o2 e2 ∧ AsRK fs mid fs.freeRegister o1 e1) :
    Works (freeBoth o1 o2 e1 e2) fs fun _ fs' => fs'.freeRegister = low := by
  unfold freeBoth
  split
  · rename_i less
    rcases held with ⟨first, second⟩ | ⟨first, second⟩
    · exact freeUp_works locals first second less.le
    · exact freeDown_works locals first second
  · rename_i le
    rcases held with ⟨first, second⟩ | ⟨first, second⟩
    · exact freeDown_works locals first second
    · exact freeUp_works locals first second (Nat.le_of_not_lt le)

-- the left operand waits while the right one is generated
def Waits (fs : Func) (low mid : Nat) (e : ExpDesc) : Prop :=
  isConstant e = true ∧ mid = low ∨ ∃ r, e = .nonreloc r ∧ Slot fs low mid r

theorem Waits.frame {fs' : Func} (number : fs'.numActiveLocalVars = fs.numActiveLocalVars) (waits : Waits fs low mid e) :
    Waits fs' low mid e := by
  unfold Waits Slot at *
  rw [number]
  exact waits

theorem Waits.le (waits : Waits fs low mid e) : low ≤ mid := by
  rcases waits with ⟨-, rfl⟩ | ⟨r, -, slot⟩
  · exact le_rfl
  · exact Slot.le slot

theorem isConstant_temps (constant : isConstant e = true) : Temps fs.freeRegister fs e := by
  cases e with
  | nil | «true» | «false» | number | constantIndex => rfl
  | _ => cases constant

theorem AsRK.waits {rk : Nat} (asRK : AsRK fs low high rk e) : Waits fs low high e := by
  rcases asRK with ⟨constant, -, same⟩ | held
  · exact .inl ⟨constant, same⟩
  · exact .inr ⟨rk, held⟩

theorem exp2RK_nonreloc_works (r : Nat) : Works (exp2RK (.nonreloc r)) fs fun result fs' =>
    result = (r, .nonreloc r) ∧ fs' = fs := fun upper => ⟨upper, rfl, rfl, rfl, rfl⟩

-- a constant that has become too far away to be an operand is loaded above the right operand
theorem waiting_works {o2 : Nat} {e1 e2 : ExpDesc} (locals : fs.numActiveLocalVars ≤ low) (waits : Waits fs low mid e1)
    (second : AsRK fs mid fs.freeRegister o2 e2) : Works (exp2RK e1) fs fun result fs' =>
      (e1 = .nonreloc low → result.1 = low) ∧ ∃ between,
        AsRK fs' low between result.1 result.2 ∧ AsRK fs' between fs'.freeRegister o2 e2 ∨
          AsRK fs' low between o2 e2 ∧ AsRK fs' between fs'.freeRegister result.1 result.2 := by
  rcases waits with ⟨constant, rfl⟩ | ⟨r, rfl, slot⟩
  · have above : mid ≤ fs.freeRegister := by rcases AsRK.cases second with same | ⟨-, same⟩ <;> omega
    refine (exp2RK_works (locals.trans above) (isConstant_temps constant)).mono ?_
    rintro ⟨o1, e⟩ fs' number first
    refine ⟨?_, fs.freeRegister, .inr ⟨AsRK.frame number second, first⟩⟩
    rintro rfl
    cases constant
  · refine (exp2RK_nonreloc_works r).mono ?_
    rintro _ fs' - ⟨rfl, rfl⟩
    refine ⟨?_, mid, .inl ⟨.inr ⟨rfl, slot⟩, second⟩⟩
    rintro ⟨⟩
    rfl

-- an operator gives back its operands, and its value is not in a register yet
theorem codearith_works {op : OpCode} {e1 e2 : ExpDesc} (sets : op.opMeta.setsRegisterInA = true)
    (locals : fs.numActiveLocalVars ≤ low) (waits : Waits fs low mid e1) (temps : Temps mid fs e2)
    (left : op = .concat → e1 = .nonreloc low) :
    Works (codearith A op e1 (some e2)) fs fun d fs' => Temps low fs' d := by
  refine .bind (constfolding_works A op e1 (some e2)) ?_
  rintro folded fs' - ⟨rfl, numerals⟩
  cases folded with
  | some r =>
      obtain ⟨first, second⟩ := numerals rfl
      have numeral := second e2 rfl
      refine .pure ?_
      have free : fs'.freeRegister = mid := by
        cases e2 with
        | number => exact temps
        | _ => cases numeral
      rcases waits with ⟨-, rfl⟩ | ⟨r, rfl, -⟩
      · exact free
      · cases first
  | none =>
      refine .bind (exp2RK_works (locals.trans waits.le) temps) ?_
      rintro ⟨o2, e2⟩ fs₁ number₁ second
      have locals₁ : fs₁.numActiveLocalVars ≤ low := by rw [number₁]; exact locals
      refine .bind (waiting_works locals₁ (waits.frame number₁) second) ?_
      rintro ⟨o1, e1⟩ fs₂ number₂ ⟨same, between, held⟩
      refine .bind (freeBoth_works (by rw [number₂]; exact locals₁) held) ?_
      rintro _ fs₃ - free
      refine .bind (emitABC_works _ _ _ _) ?_
      rintro index fs₄ - ⟨rfl, rfl⟩
      exact .pure ⟨free, .last ⟨sets, fun concat => same (left concat)⟩⟩

theorem codearith_unary_works {op : OpCode} (sets : op.opMeta.setsRegisterInA = true) (other : op ≠ .concat)
    (locals : fs.numActiveLocalVars ≤ low) (held : Slot fs low fs.freeRegister r) :
    Works (codearith A op (.nonreloc r) none) fs fun d fs' => Temps low fs' d := by
  refine .bind (constfolding_works A op (.nonreloc r) none) ?_
  rintro folded fs' - ⟨rfl, numeral⟩
  cases folded with
  | some _ => cases (numeral rfl).1
  | none =>
      refine .bind (exp2RK_nonreloc_works r) ?_
      rintro _ fs₁ - ⟨rfl, rfl⟩
      refine .bind (freereg_works locals (.inr held)) ?_
      rintro _ fs₂ - rfl
      refine .bind (emitABC_works _ _ _ _) ?_
      rintro index fs₃ - ⟨rfl, rfl⟩
      exact .pure ⟨rfl, .last ⟨sets, fun concat => (other concat).elim⟩⟩

theorem unaryOperator_works (op : Token) (locals : fs.numActiveLocalVars ≤ low) (temps : Temps low fs e) :
    Works (unaryOperator A op e) fs fun d fs' => Temps low fs' d := by
  have loaded {op : OpCode} (sets : op.opMeta.setsRegisterInA = true) (other : op ≠ .concat) :
      Works (exp2anyreg e >>= fun d => codearith A op d.2 none) fs fun d fs' => Temps low fs' d := by
    refine .bind (exp2anyreg_works locals temps) ?_
    rintro ⟨r, e⟩ fs₁ number₁ ⟨is, slot⟩
    obtain rfl : e = .nonreloc r := is
    exact codearith_unary_works A sets other (by rw [number₁]; exact locals) slot
  unfold unaryOperator
  split
  · exact codenot_works locals temps
  split
  · split
    · rename_i numeral
      cases e with
      | number n => exact .pure temps
      | _ => cases numeral
    · exact loaded rfl (by decide)
  split
  · exact loaded rfl (by decide)
  · exact .throw (by decide)

theorem arithmeticOp_not_concat {op : Token} (concat : op.id = .concat) : arithmeticOp op = none := by
  unfold arithmeticOp
  rw [concat]
  rfl

theorem leftOperand_works (op : Token) (locals : fs.numActiveLocalVars ≤ low) (temps : Temps low fs e) :
    Works (leftOperand op e) fs fun d fs' => Waits fs' low fs'.freeRegister d ∧ (op.id = .concat → d = .nonreloc low) := by
  have operand (other : op.id ≠ .concat) : Works (exp2RK e >>= fun d => pure d.2) fs fun d fs' =>
      Waits fs' low fs'.freeRegister d ∧ (op.id = .concat → d = .nonreloc low) := by
    refine .bind (exp2RK_works locals temps) ?_
    rintro ⟨rk, e⟩ fs₁ - asRK
    exact .pure ⟨AsRK.waits asRK, fun concat => (other concat).elim⟩
  unfold leftOperand
  split
  · exact .throw (by decide)
  split
  · rename_i arithmetic
    have other : op.id ≠ .concat := by
      intro concat
      rw [arithmeticOp_not_concat concat] at arithmetic
      cases arithmetic
    split
    · rename_i numeral
      cases e with
      | number n => exact .pure ⟨.inl ⟨rfl, temps⟩, fun concat => (other concat).elim⟩
      | _ => cases numeral
    · exact operand other
  split
  · refine .bind (exp2nextreg_works locals temps) ?_
    rintro _ fs₁ - ⟨rfl, free⟩
    refine .bind (exp2RK_nonreloc_works low) ?_
    rintro _ fs₂ - ⟨rfl, rfl⟩
    exact .pure ⟨.inr ⟨low, rfl, .inr ⟨rfl, free⟩⟩, fun _ => rfl⟩
  · exact operand ‹_›

theorem concatOperand_works (temps : Temps mid fs e) : Works (concatOperand e) fs fun operand fs' => fs' = fs ∧
    ∀ index i, operand = some (index, i) → e = .relocable index ∧ fs.code[index]? = some (.instr i) ∧ i.op = .concat ∧
      i.b = mid := by
  cases e with
  | relocable index =>
      obtain ⟨-, i, found, -, starts⟩ := temps
      refine .bind (getcode_works index) ?_
      rintro j fs' - ⟨found', rfl⟩
      cases found.symm.trans found'
      refine .pure ⟨rfl, ?_⟩
      intro k j is
      split at is
      · cases is
        exact ⟨rfl, found, ‹_›, starts ‹_›⟩
      · cases is
  | _ => exact .pure ⟨rfl, fun _ _ is => by cases is⟩

-- the operands of a concatenation that is continued follow each other
theorem codeconcat_works {e2 : ExpDesc} (locals : fs.numActiveLocalVars ≤ low) (temps : Temps (low + 1) fs e2) :
    Works (codeconcat A (.nonreloc low) e2) fs fun d fs' => Temps low fs' d := by
  refine .bind (dischargevars_works (Nat.le_succ_of_le locals) temps) ?_
  rintro d fs₁ number₁ ⟨temps, -, -⟩
  have locals₁ : fs₁.numActiveLocalVars ≤ low := by rw [number₁]; exact locals
  refine .bind (concatOperand_works temps) ?_
  rintro operand fs₂ - ⟨rfl, merges⟩
  cases operand with
  | some operand =>
      obtain ⟨index, i⟩ := operand
      obtain ⟨rfl, found, concat, starts⟩ := merges index i rfl
      dsimp only
      rw [if_pos starts.symm]
      refine .bind (freereg_works locals₁ (.inr (.inr ⟨rfl, temps.1⟩))) ?_
      rintro _ fs₃ - rfl
      refine .bind (patch_works index _) ?_
      rintro _ fs₄ - ⟨j, found', rfl⟩
      cases found.symm.trans found'
      refine .pure ⟨rfl, .set found ⟨?_, fun _ => rfl⟩⟩
      show i.op.opMeta.setsRegisterInA = true
      rw [concat]
      rfl
  | none =>
      refine .bind (exp2nextreg_works (Nat.le_succ_of_le locals₁) temps) ?_
      rintro _ fs₃ number₃ ⟨rfl, free⟩
      exact codearith_works A rfl (by rw [number₃]; exact locals₁) (.inr ⟨low, rfl, .inr ⟨rfl, rfl⟩⟩) (.inr ⟨rfl, free⟩)
        fun _ => rfl

theorem foldable_sets {op : OpCode} (known : op ∈ foldable) : op.opMeta.setsRegisterInA = true ∧ op ≠ .concat := by
  fin_cases known <;> exact ⟨rfl, by decide⟩

theorem arithmeticOp_char {op : Token} {code : OpCode} (found : arithmeticOp op = some code) : op.id = .singleChar := by
  unfold arithmeticOp at found
  split at found
  · assumption
  · cases found

-- the operators whose value is computed by one instruction
def isComputed (op : Token) : Bool := (arithmeticOp op).isSome || op.id == .concat

theorem binaryOperator_works {op : Token} {e1 e2 : ExpDesc} (computed : isComputed op = true)
    (locals : fs.numActiveLocalVars ≤ low) (waits : Waits fs low mid e1) (left : op.id = .concat → e1 = .nonreloc low)
    (temps : Temps mid fs e2) : Works (binaryOperator A op e1 e2) fs fun d fs' => Temps low fs' d := by
  unfold binaryOperator
  by_cases concat : op.id = .concat
  · obtain rfl := left concat
    have after : mid = low + 1 := by
      rcases waits with ⟨wrong, -⟩ | ⟨r, ⟨rfl⟩, ⟨small, -⟩ | ⟨-, same⟩⟩
      · cases wrong
      · omega
      · exact same
    rw [after] at temps
    simp only [concat, reduceCtorEq, or_self, if_false, if_true]
    exact codeconcat_works A locals temps
  · obtain ⟨code, found⟩ : ∃ code, arithmeticOp op = some code := by
      simp only [isComputed, Bool.or_eq_true, beq_iff_eq, concat, or_false] at computed
      exact Option.isSome_iff_exists.mp computed
    have sets := foldable_sets (arithmeticOp_foldable found)
    simp only [arithmeticOp_char found, found, reduceCtorEq, or_self, if_false]
    exact codearith_works A sets.1 locals waits temps fun wrong => (sets.2 wrong).elim

/-! ## Comparisons -/

-- a register that is given back may not be the last one here, and then compiling stops
def Inside (fs fs' : Func) : Prop :=
  fs.freeRegister ≤ fs.maxStackSize.val → fs'.freeRegister ≤ fs'.maxStackSize.val ∧
    fs'.numActiveLocalVars = fs.numActiveLocalVars ∧ fs'.curExp = fs.curExp

theorem inside_reflexive : Reflexive Inside where
  refl _ upper := ⟨upper, rfl, rfl⟩
  trans first second upper := by
    obtain ⟨upper, number, same⟩ := first upper
    obtain ⟨upper, number', same'⟩ := second upper
    exact ⟨upper, number'.trans number, same'.trans same⟩

theorem works_inside {α : Type} {x : FuncM α} {Q : Func → α → Func → Prop} (works : ∀ fs, Works x fs (Q fs)) :
    Keeps Inside x := by
  intro fs
  unfold Sat
  split
  · rename_i a fs' run
    intro upper
    have holds := works fs upper
    unfold Sat at holds
    rw [run] at holds
    exact ⟨holds.1, holds.2.1, holds.2.2.1⟩
  · trivial

theorem freereg_inside (reg : Nat) : Keeps Inside (freereg reg) := by
  refine Keeps.getBind fun fs => ?_
  split
  · split
    · trivial
    split
    · trivial
    · exact fun upper => ⟨(Nat.sub_le _ _).trans upper, rfl, rfl⟩
  · exact fun upper => ⟨upper, rfl, rfl⟩

theorem freeexp_inside (e : ExpDesc) : Keeps Inside (freeexp e) := by
  cases e with
  | nonreloc r => exact freereg_inside r
  | _ => exact .pure inside_reflexive _

theorem dischargevars_inside (e : ExpDesc) : Keeps Inside (dischargevars e) := by
  cases e with
  | upvalueIndex => exact .throw _
  | global k => exact .bind inside_reflexive (works_inside fun _ => emitABx_works _ _ _) fun _ => .pure inside_reflexive _
  | indexed table key =>
      refine .bind inside_reflexive (freereg_inside key) fun _ => ?_
      refine .bind inside_reflexive (freereg_inside table) fun _ => ?_
      exact .bind inside_reflexive (works_inside fun _ => emitABC_works _ _ _ _) fun _ => .pure inside_reflexive _
  | call index => exact .bind inside_reflexive (works_inside fun _ => getcode_works _) fun _ => .pure inside_reflexive _
  | vararg index => exact .bind inside_reflexive (works_inside fun _ => patch_works _ _) fun _ => .pure inside_reflexive _
  | _ => exact .pure inside_reflexive _

theorem discharge2reg_inside (e : ExpDesc) (reg : Nat) : Keeps Inside (discharge2reg e reg) := by
  have emit (op : OpCode) (a b c : Nat) : Keeps Inside (emitABC op a b c >>= fun _ => Pure.pure (ExpDesc.nonreloc reg)) :=
    .bind inside_reflexive (works_inside fun _ => emitABC_works _ _ _ _) fun _ => .pure inside_reflexive _
  refine .bind inside_reflexive (dischargevars_inside e) fun d => ?_
  cases d with
  | nil =>
      refine .bind inside_reflexive (works_inside fun _ => emitNil_works reg Nat.one_ne_zero) fun _ => ?_
      exact .pure inside_reflexive _
  | «true» => exact emit _ _ _ _
  | «false» => exact emit _ _ _ _
  | constantIndex k => exact .bind inside_reflexive (works_inside fun _ => emitABx_works _ _ _) fun _ => .pure inside_reflexive _
  | number n =>
      refine .bind inside_reflexive (works_inside fun _ => putConstant_works _) fun _ => ?_
      exact .bind inside_reflexive (works_inside fun _ => emitABx_works _ _ _) fun _ => .pure inside_reflexive _
  | relocable index =>
      refine .bind inside_reflexive (works_inside fun _ => getcode_works _) fun i => ?_
      split
      · exact .bind inside_reflexive (works_inside fun _ => patch_works _ _) fun _ => .pure inside_reflexive _
      · exact .throw _
  | nonreloc r =>
      dsimp only
      split
      · exact .pure inside_reflexive _
      · exact emit _ _ _ _
  | void | jmp => exact .pure inside_reflexive _
  | _ => exact .throw _

theorem exp2nextreg_inside (e : ExpDesc) : Keeps Inside (exp2nextreg e) := by
  refine .bind inside_reflexive (dischargevars_inside e) fun e => ?_
  refine .bind inside_reflexive (freeexp_inside e) fun _ => ?_
  refine .bind inside_reflexive (works_inside fun _ => reserveregs_works 1) fun _ => ?_
  refine .bind inside_reflexive (.get inside_reflexive) fun fs => ?_
  refine .bind inside_reflexive (.bind inside_reflexive (discharge2reg_inside e _) fun d => ?_) fun _ => ?_
  · split
    · exact .throw _
    · exact .pure inside_reflexive _
  · exact .pure inside_reflexive _

theorem exp2anyreg_inside (e : ExpDesc) : Keeps Inside (exp2anyreg e) := by
  refine .bind inside_reflexive (dischargevars_inside e) fun d => ?_
  split
  · exact .pure inside_reflexive _
  · exact exp2nextreg_inside d

theorem exp2RK_inside (e : ExpDesc) : Keeps Inside (exp2RK e) := by
  refine .bind inside_reflexive (dischargevars_inside e) fun d => ?_
  refine .bind inside_reflexive (.get inside_reflexive) fun fs => ?_
  split
  · split
    · exact .bind inside_reflexive (works_inside fun _ => putConstant_works _) fun _ => .pure inside_reflexive _
    · exact exp2anyreg_inside _
  · split
    · exact .pure inside_reflexive _
    · exact exp2anyreg_inside _
  · exact exp2anyreg_inside _

theorem comparison_inside (op : OpCode) (invert : Bool) (e1 e2 : ExpDesc) :
    Sat (fun _ => True) (comparison op invert e1 e2) fs fun d fs' => Inside fs fs' ∧ isJump d = true := by
  refine Sat.bind ((exp2RK_inside e1 fs).mono ?_)
  intro left fs₁ first
  refine Sat.bind ((exp2RK_inside e2 fs₁).mono ?_)
  intro right fs₂ second
  have both := inside_reflexive.trans first second
  exact ⟨fun upper => both upper, rfl⟩

theorem binaryOperator_inside {op : Token} {e1 e2 : ExpDesc} (other : isComputed op = false) :
    Sat (fun _ => True) (binaryOperator A op e1 e2) fs fun d fs' => Inside fs fs' ∧ isJump d = true := by
  simp only [isComputed, Bool.or_eq_false_iff, beq_eq_false_iff_ne, Option.isSome_eq_false_iff, Option.isNone_iff_eq_none]
    at other
  unfold binaryOperator
  rw [if_neg other.2, other.1]
  dsimp only
  repeat' split
  all_goals first
    | exact Sat.throw trivial
    | exact comparison_inside _ _ _ _

/-! ## Lists of values -/

-- the results from `low` on are there, as many as the context asks for
theorem setreturns_works (temps : Temps low fs e) (many : e.hasmultret = true) (num : Option Nat) :
    Works (setreturns e num) fs fun _ fs' => fs'.freeRegister = low + 1 ∧
      ∀ index, e = .call index → Temps low fs' e := by
  unfold setreturns
  split
  · exact .throw (by decide)
  · cases e with
    | call index =>
        obtain ⟨free, i, found, op, register⟩ := temps
        refine (patch_works index _).mono ?_
        rintro _ fs' - ⟨j, found', rfl⟩
        cases found.symm.trans found'
        refine ⟨free, ?_⟩
        rintro k ⟨⟩
        exact ⟨free, .set found ⟨op, register⟩⟩
    | vararg index =>
        refine Works.get fun _ => ?_
        refine .bind (patch_works index _) ?_
        rintro _ fs₁ - ⟨i, -, rfl⟩
        refine (reserveregs_works 1).mono ?_
        rintro _ fs₂ - ⟨reserved, -, -⟩
        exact ⟨reserved.trans (congrArg (· + 1) temps.1), fun k is => by cases is⟩
    | _ => cases many

theorem fillNil_works (n : Nat) : Works (fillNil n) fs fun _ fs' => fs'.freeRegister = fs.freeRegister + n := by
  unfold fillNil
  split
  · rename_i zero
    rw [zero]
    exact .pure rfl
  · refine Works.get fun _ => ?_
    refine .bind (reserveregs_works n) ?_
    rintro _ fs₁ - ⟨reserved, -, -⟩
    refine (emitNil_works _ ‹_›).mono ?_
    rintro _ fs₂ - same
    exact same.trans reserved

theorem reserveMore_works (extra : Nat) : Works (reserveMore extra) fs fun _ fs' =>
    fs'.freeRegister = fs.freeRegister + (extra - 1) := by
  unfold reserveMore
  split
  · exact (reserveregs_works _).mono fun _ _ _ reserved => reserved.1
  · have none : extra - 1 = 0 := by omega
    rw [none]
    exact .pure rfl

theorem exp2nextregUnlessVoid_works (locals : fs.numActiveLocalVars ≤ low) (temps : Temps low fs e) :
    Works (exp2nextregUnlessVoid e) fs fun _ fs' => fs'.freeRegister = if e = .void then low else low + 1 := by
  have loaded (value : e ≠ .void) : Works (exp2nextreg e >>= fun d => pure d.2) fs fun _ fs' =>
      fs'.freeRegister = if e = .void then low else low + 1 := by
    rw [if_neg value]
    refine .bind (exp2nextreg_works locals temps) ?_
    rintro _ fs₁ - ⟨rfl, free⟩
    exact .pure free
  cases e with
  | void => exact .pure temps
  | _ => exact loaded ExpDesc.noConfusion

-- the last value is given a register, and after it come as many as are missing
theorem adjustAssign_works (numVars numValues : Nat) (locals : fs.numActiveLocalVars ≤ low) (temps : Temps low fs e)
    (value : e ≠ .void) : Works (adjustAssign numVars numValues e) fs fun _ fs' =>
      fs'.freeRegister = low + 1 + (numVars - numValues) := by
  unfold adjustAssign
  split
  · rename_i many
    refine .bind (setreturns_works temps many _) ?_
    rintro _ fs₁ - ⟨free, -⟩
    refine .bind (reserveMore_works _) ?_
    rintro _ fs₂ - more
    refine .pure ?_
    rw [more, free]
    omega
  · refine .bind (exp2nextregUnlessVoid_works locals temps) ?_
    rintro _ fs₁ - free
    rw [if_neg value] at free
    refine .bind (fillNil_works _) ?_
    rintro _ fs₂ - filled
    refine .pure ?_
    rw [filled, free]

theorem adjustVoid_works (numVars : Nat) : Works (adjustAssign numVars 0 .void) fs fun _ fs' =>
    fs'.freeRegister = fs.freeRegister + numVars := by
  refine .bind (Q := fun _ fs' => fs' = fs) (.pure rfl) ?_
  rintro _ fs₁ - rfl
  refine .bind (fillNil_works numVars) ?_
  rintro _ fs₂ - filled
  exact .pure filled

theorem setlist_works (base numValues : Nat) (toStore : Option Nat) (inside : base < fs.freeRegister) :
    Works (setlist base numValues toStore) fs fun _ fs' => fs'.freeRegister = base + 1 := by
  have emitted (batch stored : Nat) : Works (emitSetlist base batch stored) fs fun _ fs' =>
      fs'.freeRegister = fs.freeRegister := by
    unfold emitSetlist
    split
    · refine (emitABC_works _ _ _ _).mono ?_
      rintro _ fs' - ⟨-, rfl⟩
      rfl
    · refine .bind (emitABC_works _ _ _ _) ?_
      rintro _ fs₁ - ⟨-, rfl⟩
      refine (emitWord_works _).mono ?_
      rintro _ fs₂ - ⟨-, rfl⟩
      rfl
  refine .bind (emitted _ _) ?_
  rintro _ fs₁ - same
  refine .modify (fun upper => ?_) rfl rfl rfl
  dsimp only
  omega

end Func

end Zua.Compile
