import Zua.Compile.Nested

/-!
# Local variables in scope

Which variables are active changes with local statements only. What a name is resolved to is followed here
through a whole chunk and compared with the blocks of the source.
-/

namespace Zua.Compile
open Code Syntax
open Zua.Lex (Token)

/-! ## Emitting code keeps the active variables -/

structure SameScope (fs fs' : Func) : Prop where
  number : fs'.numActiveLocalVars = fs.numActiveLocalVars
  active : fs'.activeLocalVars = fs.activeLocalVars
  locals : fs'.localVars = fs.localVars

-- what holds after each change that emitting code makes
structure Steps (R : Func → Func → Prop) : Prop where
  reflexive : Reflexive R
  emit : ∀ fs w, R fs { fs with code := fs.code ++ [w] }
  patch : ∀ fs index w, R fs { fs with code := fs.code.set index w }
  registers : ∀ fs size n, R fs { fs with maxStackSize := size, freeRegister := n }
  constants : ∀ fs constants, R fs { fs with constants }

theorem sameScope_reflexive : Reflexive SameScope where
  refl _ := ⟨rfl, rfl, rfl⟩
  trans h h' := ⟨h'.number.trans h.number, h'.active.trans h.active, h'.locals.trans h.locals⟩

theorem sameScope_steps : Steps SameScope where
  reflexive := sameScope_reflexive
  emit _ _ := ⟨rfl, rfl, rfl⟩
  patch _ _ _ := ⟨rfl, rfl, rfl⟩
  registers _ _ _ := ⟨rfl, rfl, rfl⟩
  constants _ _ := ⟨rfl, rfl, rfl⟩

namespace Func

section Steps

variable {R : Func → Func → Prop} (steps : Steps R)
include steps

theorem emitWord_keeps (w : Word) : Keeps R (emitWord w) := fun fs => steps.emit fs w

theorem emitABC_keeps (op : OpCode) (a b c : Nat) : Keeps R (emitABC op a b c) := emitWord_keeps steps _

theorem emitABx_keeps (op : OpCode) (a bx : Nat) : Keeps R (emitABx op a bx) := emitWord_keeps steps _

theorem checkstack_keeps (n : Nat) : Keeps R (checkstack n) := by
  refine Keeps.getBind fun fs => ?_
  dsimp only
  split
  · trivial
  · split
    · exact steps.reflexive.refl fs
    · split
      · trivial
      · exact steps.registers fs _ _

theorem reserveregs_keeps (n : Nat) : Keeps R (reserveregs n) :=
  .bind steps.reflexive (checkstack_keeps steps n) fun _ => .modify fun fs => steps.registers fs _ _

theorem freereg_keeps (reg : Nat) : Keeps R (freereg reg) := by
  refine Keeps.getBind fun fs => ?_
  split
  · split
    · trivial
    · split
      · trivial
      · exact steps.registers fs _ _
  · exact steps.reflexive.refl fs

theorem freeexp_keeps (e : ExpDesc) : Keeps R (freeexp e) := by
  unfold freeexp
  split
  · exact freereg_keeps steps _
  · exact .pure steps.reflexive _

theorem emitNil_keeps (start n : Nat) : Keeps R (emitNil start n) := by
  refine Keeps.getBind fun fs => ?_
  split
  · trivial
  · split
    · exact steps.reflexive.refl fs
    · exact (Keeps.bind steps.reflexive (emitABC_keeps steps _ _ _ _) fun _ => .pure steps.reflexive _) fs

theorem getcode_keeps (index : Nat) : Keeps R (getcode index) := by
  refine Keeps.getBind fun fs => ?_
  split
  · exact steps.reflexive.refl fs
  · trivial

theorem patch_keeps (index : Nat) (f : Instruction → Instruction) : Keeps R (patch index f) :=
  .bind steps.reflexive (getcode_keeps steps index) fun _ => .modify fun fs => steps.patch fs _ _

theorem putConstant_keeps (constant : Memory.Constant) : Keeps R (putConstant constant) := by
  refine Keeps.getBind fun fs => ?_
  split
  · exact steps.reflexive.refl fs
  · split
    · trivial
    · exact steps.constants fs _

theorem setoneret_keeps (e : ExpDesc) : Keeps R (setoneret e) := by
  unfold setoneret
  split
  · exact .bind steps.reflexive (getcode_keeps steps _) fun _ => .pure steps.reflexive _
  · exact .bind steps.reflexive (patch_keeps steps _ _) fun _ => .pure steps.reflexive _
  · exact .pure steps.reflexive _

theorem dischargevars_keeps (e : ExpDesc) : Keeps R (dischargevars e) := by
  unfold dischargevars
  split
  · exact .pure steps.reflexive _
  · exact .throw _
  · exact .bind steps.reflexive (emitABx_keeps steps _ _ _) fun _ => .pure steps.reflexive _
  · refine .bind steps.reflexive (freereg_keeps steps _) fun _ => ?_
    refine .bind steps.reflexive (freereg_keeps steps _) fun _ => ?_
    exact .bind steps.reflexive (emitABC_keeps steps _ _ _ _) fun _ => .pure steps.reflexive _
  · exact setoneret_keeps steps _
  · exact setoneret_keeps steps _
  · exact .pure steps.reflexive _

theorem discharge2reg_keeps (e : ExpDesc) (reg : Nat) : Keeps R (discharge2reg e reg) := by
  have done {e : ExpDesc} : Keeps R (pure e : FuncM ExpDesc) := .pure steps.reflexive e
  refine .bind steps.reflexive (dischargevars_keeps steps e) fun e => ?_
  split
  · exact .bind steps.reflexive (emitNil_keeps steps _ _) fun _ => done
  · exact .bind steps.reflexive (emitABC_keeps steps _ _ _ _) fun _ => done
  · exact .bind steps.reflexive (emitABC_keeps steps _ _ _ _) fun _ => done
  · exact .bind steps.reflexive (emitABx_keeps steps _ _ _) fun _ => done
  · refine .bind steps.reflexive (putConstant_keeps steps _) fun _ => ?_
    exact .bind steps.reflexive (emitABx_keeps steps _ _ _) fun _ => done
  · refine .bind steps.reflexive (getcode_keeps steps _) fun i => ?_
    split
    · exact .bind steps.reflexive (patch_keeps steps _ _) fun _ => done
    · exact .throw _
  · split
    · exact done
    · exact .bind steps.reflexive (emitABC_keeps steps _ _ _ _) fun _ => done
  · exact done
  · exact done
  · exact .throw _

theorem exp2reg_keeps (e : ExpDesc) (reg : Nat) : Keeps R (exp2reg e reg) := by
  refine .bind steps.reflexive (discharge2reg_keeps steps e reg) fun e => ?_
  split
  · exact .throw _
  · exact .pure steps.reflexive _

theorem exp2nextreg_keeps (e : ExpDesc) : Keeps R (exp2nextreg e) := by
  refine .bind steps.reflexive (dischargevars_keeps steps e) fun e => ?_
  refine .bind steps.reflexive (freeexp_keeps steps e) fun _ => ?_
  refine .bind steps.reflexive (reserveregs_keeps steps 1) fun _ => ?_
  refine .bind steps.reflexive (.get steps.reflexive) fun _ => ?_
  exact .bind steps.reflexive (exp2reg_keeps steps _ _) fun _ => .pure steps.reflexive _

theorem exp2anyreg_keeps (e : ExpDesc) : Keeps R (exp2anyreg e) := by
  refine .bind steps.reflexive (dischargevars_keeps steps e) fun e => ?_
  split
  · exact .pure steps.reflexive _
  · exact exp2nextreg_keeps steps _

theorem discharge2anyreg_keeps (e : ExpDesc) : Keeps R (discharge2anyreg e) := by
  unfold discharge2anyreg
  split
  · exact .pure steps.reflexive _
  · refine .bind steps.reflexive (reserveregs_keeps steps 1) fun _ => ?_
    exact .bind steps.reflexive (.get steps.reflexive) fun _ => discharge2reg_keeps steps _ _

theorem exp2RK_keeps (e : ExpDesc) : Keeps R (exp2RK e) := by
  refine .bind steps.reflexive (dischargevars_keeps steps e) fun e => ?_
  refine .bind steps.reflexive (.get steps.reflexive) fun fs => ?_
  split
  · split
    · exact .bind steps.reflexive (putConstant_keeps steps _) fun _ => .pure steps.reflexive _
    · exact exp2anyreg_keeps steps _
  · split
    · exact .pure steps.reflexive _
    · exact exp2anyreg_keeps steps _
  · exact exp2anyreg_keeps steps _

theorem indexed_keeps (table key : ExpDesc) : Keeps R (indexed table key) := by
  refine .bind steps.reflexive (exp2RK_keeps steps key) fun ⟨_, _⟩ => ?_
  dsimp only
  split
  · exact .pure steps.reflexive _
  · exact .throw _

theorem handleSelf_keeps (e key : ExpDesc) : Keeps R (handleSelf e key) := by
  refine .bind steps.reflexive (exp2anyreg_keeps steps e) fun result => ?_
  refine .bind steps.reflexive (freeexp_keeps steps _) fun _ => ?_
  refine .bind steps.reflexive (.get steps.reflexive) fun _ => ?_
  refine .bind steps.reflexive (reserveregs_keeps steps 2) fun _ => ?_
  split
  · refine .bind steps.reflexive (exp2RK_keeps steps key) fun _ => ?_
    refine .bind steps.reflexive (emitABC_keeps steps _ _ _ _) fun _ => ?_
    exact .bind steps.reflexive (freeexp_keeps steps _) fun _ => .pure steps.reflexive _
  · exact .throw _

theorem storevar_keeps (var e : ExpDesc) : Keeps R (storevar var e) := by
  unfold storevar
  split
  · exact .bind steps.reflexive (freeexp_keeps steps e) fun _ => exp2reg_keeps steps _ _
  · refine .bind steps.reflexive (exp2anyreg_keeps steps e) fun _ => ?_
    refine .bind steps.reflexive (emitABx_keeps steps _ _ _) fun _ => ?_
    exact .bind steps.reflexive (freeexp_keeps steps _) fun _ => .pure steps.reflexive _
  · exact .throw _
  · exact .throw _
  · exact .throw _

theorem codenot_keeps (e : ExpDesc) : Keeps R (codenot e) := by
  refine .bind steps.reflexive (dischargevars_keeps steps e) fun e => ?_
  split
  all_goals first
    | exact .pure steps.reflexive _
    | exact .throw _
    | refine .bind steps.reflexive (discharge2anyreg_keeps steps _) fun e => ?_
      refine .bind steps.reflexive (freeexp_keeps steps e) fun _ => ?_
      split
      · exact .bind steps.reflexive (emitABC_keeps steps _ _ _ _) fun _ => .pure steps.reflexive _
      · exact .throw _

variable (A : F64.Arithmetic)

theorem constfolding_keeps (op : OpCode) (e1 : ExpDesc) (e2 : Option ExpDesc) :
    Keeps R (constfolding A op e1 e2) := by
  have folds (v1 v2 : F64) : Keeps R (fold A op v1 v2) := by
    unfold fold
    split
    all_goals first
      | exact .pure steps.reflexive _
      | exact .throw _
  unfold constfolding
  split
  · exact folds _ _
  · exact folds _ _
  · exact .pure steps.reflexive _

theorem freeBoth_keeps (o1 o2 : Nat) (e1 e2 : ExpDesc) : Keeps R (freeBoth o1 o2 e1 e2) := by
  unfold freeBoth
  split
  · exact .bind steps.reflexive (freeexp_keeps steps _) fun _ => freeexp_keeps steps _
  · exact .bind steps.reflexive (freeexp_keeps steps _) fun _ => freeexp_keeps steps _

theorem codearith_keeps (op : OpCode) (e1 : ExpDesc) (e2 : Option ExpDesc) :
    Keeps R (codearith A op e1 e2) := by
  refine .bind steps.reflexive (constfolding_keeps steps A op e1 e2) fun folded => ?_
  split
  · exact .pure steps.reflexive _
  · refine .bind steps.reflexive (exp2RK_keeps steps e1) fun _ => ?_
    refine .bind steps.reflexive (freeexp_keeps steps _) fun _ => ?_
    exact .bind steps.reflexive (emitABC_keeps steps _ _ _ _) fun _ => .pure steps.reflexive _
  · refine .bind steps.reflexive (exp2RK_keeps steps _) fun _ => ?_
    refine .bind steps.reflexive (exp2RK_keeps steps _) fun _ => ?_
    refine .bind steps.reflexive (freeBoth_keeps steps _ _ _ _) fun _ => ?_
    exact .bind steps.reflexive (emitABC_keeps steps _ _ _ _) fun _ => .pure steps.reflexive _

theorem unaryOperator_keeps (op : Token) (e : ExpDesc) : Keeps R (unaryOperator A op e) := by
  unfold unaryOperator
  split
  · exact codenot_keeps steps e
  · split
    · split
      · exact codearith_keeps steps A _ _ _
      · exact .bind steps.reflexive (exp2anyreg_keeps steps e) fun _ => codearith_keeps steps A _ _ _
    · split
      · exact .bind steps.reflexive (exp2anyreg_keeps steps e) fun _ => codearith_keeps steps A _ _ _
      · exact .throw _

theorem leftOperand_keeps (op : Token) (e : ExpDesc) : Keeps R (leftOperand op e) := by
  unfold leftOperand
  split
  · exact .throw _
  · split
    · split
      · exact .pure steps.reflexive _
      · exact .bind steps.reflexive (exp2RK_keeps steps e) fun _ => .pure steps.reflexive _
    · split
      · refine .bind steps.reflexive (exp2nextreg_keeps steps e) fun _ => ?_
        exact .bind steps.reflexive (exp2RK_keeps steps _) fun _ => .pure steps.reflexive _
      · exact .bind steps.reflexive (exp2RK_keeps steps e) fun _ => .pure steps.reflexive _

theorem codeconcat_keeps (e1 e2 : ExpDesc) : Keeps R (codeconcat A e1 e2) := by
  refine .bind steps.reflexive (dischargevars_keeps steps e2) fun e2 => ?_
  have operand : Keeps R (concatOperand e2) := by
    unfold concatOperand
    split
    · exact .bind steps.reflexive (getcode_keeps steps _) fun _ => .pure steps.reflexive _
    · exact .pure steps.reflexive _
  refine .bind steps.reflexive operand fun operand => ?_
  split
  · split
    · refine .bind steps.reflexive (freereg_keeps steps _) fun _ => ?_
      exact .bind steps.reflexive (patch_keeps steps _ _) fun _ => .pure steps.reflexive _
    · exact .throw _
  · exact .throw _
  · exact .bind steps.reflexive (exp2nextreg_keeps steps _) fun _ => codearith_keeps steps A _ _ _

theorem comparison_keeps (op : OpCode) (invert : Bool) (e1 e2 : ExpDesc) :
    Keeps R (comparison op invert e1 e2) := by
  refine .bind steps.reflexive (exp2RK_keeps steps e1) fun _ => ?_
  refine .bind steps.reflexive (exp2RK_keeps steps e2) fun _ => ?_
  exact .bind steps.reflexive (emitABC_keeps steps _ _ _ _) fun _ => .pure steps.reflexive _

theorem binaryOperator_keeps (op : Token) (e1 e2 : ExpDesc) : Keeps R (binaryOperator A op e1 e2) := by
  unfold binaryOperator
  repeat' split
  all_goals first
    | exact .throw _
    | exact codeconcat_keeps steps A _ _
    | exact comparison_keeps steps _ _ _ _
    | exact codearith_keeps steps A _ _ _

theorem setreturns_keeps (e : ExpDesc) (num : Option Nat) : Keeps R (setreturns e num) := by
  unfold setreturns
  split
  · exact .throw _
  · split
    · exact patch_keeps steps _ _
    · refine .bind steps.reflexive (.get steps.reflexive) fun _ => ?_
      exact .bind steps.reflexive (patch_keeps steps _ _) fun _ => reserveregs_keeps steps 1
    · exact .pure steps.reflexive _

theorem exp2nextregUnlessVoid_keeps (e : ExpDesc) : Keeps R (exp2nextregUnlessVoid e) := by
  unfold exp2nextregUnlessVoid
  split
  · exact .pure steps.reflexive _
  · exact .bind steps.reflexive (exp2nextreg_keeps steps _) fun _ => .pure steps.reflexive _

theorem adjustAssign_keeps (numVars numValues : Nat) (e : ExpDesc) :
    Keeps R (adjustAssign numVars numValues e) := by
  have more (extra : Nat) : Keeps R (reserveMore extra) := by
    unfold reserveMore
    split
    · exact reserveregs_keeps steps _
    · exact .pure steps.reflexive _
  have fills (n : Nat) : Keeps R (fillNil n) := by
    unfold fillNil
    split
    · exact .pure steps.reflexive _
    · refine .bind steps.reflexive (.get steps.reflexive) fun _ => ?_
      exact .bind steps.reflexive (reserveregs_keeps steps _) fun _ => emitNil_keeps steps _ _
  unfold adjustAssign
  split
  · refine .bind steps.reflexive (setreturns_keeps steps _ _) fun _ => ?_
    exact .bind steps.reflexive (more _) fun _ => .pure steps.reflexive _
  · refine .bind steps.reflexive (exp2nextregUnlessVoid_keeps steps e) fun _ => ?_
    exact .bind steps.reflexive (fills _) fun _ => .pure steps.reflexive _

theorem setlist_keeps (base numValues : Nat) (toStore : Option Nat) :
    Keeps R (setlist base numValues toStore) := by
  have emits (base batch toStore : Nat) : Keeps R (emitSetlist base batch toStore) := by
    unfold emitSetlist
    split
    · exact emitABC_keeps steps _ _ _ _
    · exact .bind steps.reflexive (emitABC_keeps steps _ _ _ _) fun _ => emitWord_keeps steps _
  exact .bind steps.reflexive (emits _ _ _) fun _ => .modify fun fs => steps.registers fs _ _

end Steps

end Func

end Zua.Compile
