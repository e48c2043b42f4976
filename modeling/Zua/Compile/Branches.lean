import Zua.Compile.Reachable

/-!
# Tests and jumps

The offset of a jump is filled in when the place that it goes to is reached. Expressions and the statements without
blocks add no test and no jump, and they patch none: what they patch is an instruction that leaves a value open.
-/

namespace Zua.Compile
open Code Syntax Parse
open Memory (Constant)
open Zua.Lex (Token ch)

variable {code code' code'' : List Word} {k : Nat} {i j : Instruction}

def branches (op : OpCode) : Bool := op == .jmp || op == .test

def BranchAt (code : List Word) (k : Nat) (i : Instruction) : Prop :=
  code[k]? = some (.instr i) ∧ branches i.op = true

theorem BranchAt.lt (branch : BranchAt code k i) : k < code.length := (List.getElem?_eq_some_iff.mp branch.1).1

theorem BranchAt.unique (first : BranchAt code k i) (second : BranchAt code k j) : i = j := by
  have same := first.1.symm.trans second.1
  cases same
  rfl

theorem branchAt_append {w : Word} : BranchAt (code ++ [w]) k i ↔
    BranchAt code k i ∨ k = code.length ∧ w = .instr i ∧ branches i.op = true := by
  unfold BranchAt
  rcases Nat.lt_trichotomy k code.length with inside | rfl | behind
  · rw [List.getElem?_append_left inside]
    simp [inside.ne]
  · simp
  · have ended : (code ++ [w])[k]? = none := by
      apply List.getElem?_eq_none
      simp
      omega
    have ended' : code[k]? = none := List.getElem?_eq_none behind.le
    simp [ended, ended', behind.ne']

theorem branchAt_set {w : Word} {index : Nat} (other : k ≠ index) : BranchAt (code.set index w) k i ↔ BranchAt code k i := by
  unfold BranchAt
  rw [List.getElem?_set_ne other.symm]

-- there is a word, and it is no branch
def Unbranched (code : List Word) (k : Nat) : Prop := k < code.length ∧ ∀ i, ¬BranchAt code k i

theorem Unbranched.of_flat (found : code[k]? = some (.instr i)) (flat : branches i.op = false) : Unbranched code k := by
  refine ⟨(List.getElem?_eq_some_iff.mp found).1, ?_⟩
  rintro j ⟨found', branch⟩
  cases found.symm.trans found'
  exact Bool.noConfusion (flat.symm.trans branch)

structure SameBranches (code code' : List Word) : Prop where
  longer : code.length ≤ code'.length
  same : ∀ k i, BranchAt code' k i ↔ BranchAt code k i

namespace SameBranches

theorem refl (code : List Word) : SameBranches code code := ⟨le_rfl, fun _ _ => Iff.rfl⟩

theorem trans (first : SameBranches code code') (second : SameBranches code' code'') : SameBranches code code'' :=
  ⟨first.longer.trans second.longer, fun k i => (second.same k i).trans (first.same k i)⟩

theorem emit {w : Word} (flat : ∀ i, w = .instr i → branches i.op = false) : SameBranches code (code ++ [w]) := by
  refine ⟨by simp, fun k i => branchAt_append.trans (or_iff_left ?_)⟩
  rintro ⟨-, same, branch⟩
  exact Bool.noConfusion ((flat i same).symm.trans branch)

theorem patch {index : Nat} (found : code[index]? = some (.instr i)) (flat : branches i.op = false)
    (flat' : branches j.op = false) : SameBranches code (code.set index (.instr j)) := by
  refine ⟨by simp, fun k i' => ?_⟩
  by_cases here : k = index
  · subst here
    have set : (code.set k (.instr j))[k]? = some (.instr j) :=
      List.getElem?_set_self (List.getElem?_eq_some_iff.mp found).1
    exact iff_of_false ((Unbranched.of_flat set flat').2 i') ((Unbranched.of_flat found flat).2 i')
  · exact branchAt_set here

end SameBranches

theorem Unbranched.keep (flat : Unbranched code k) (same : SameBranches code code') : Unbranched code' k :=
  ⟨flat.1.trans_le same.longer, fun i branch => flat.2 i ((same.same k i).mp branch)⟩

-- the instruction whose number of results is still open is no branch
def Clear (code : List Word) (e : ExpDesc) : Prop := ∀ k, e = .call k ∨ e = .vararg k → Unbranched code k

-- a description that stands for one value
abbrev Once (e : ExpDesc) : Prop := e.hasmultret = false

theorem Once.clear {e : ExpDesc} (once : Once e) : Clear code e := by
  rintro k (rfl | rfl)
  · cases once
  · cases once

theorem Unbranched.call (flat : Unbranched code k) : Clear code (.call k) := by
  rintro k' (same | same)
  · cases same
    exact flat
  · cases same

theorem Unbranched.vararg (flat : Unbranched code k) : Clear code (.vararg k) := by
  rintro k' (same | same)
  · cases same
  · cases same
    exact flat

theorem Clear.keep {e : ExpDesc} (clear : Clear code e) (same : SameBranches code code') : Clear code' e :=
  fun k is => (clear k is).keep same

/-! ## Emitting code -/

-- `x` adds no branches and patches none
def Flat {α : Type} (x : FuncM α) (fs : Func) (Q : α → Func → Prop) : Prop :=
  Sat (fun _ => True) x fs fun a fs' => SameBranches fs.code fs'.code ∧ fs'.curExp = fs.curExp ∧ Q a fs'

namespace Flat

variable {α β : Type} {fs : Func} {Q : α → Func → Prop}

theorem pure {a : α} (h : Q a fs) : Flat (Pure.pure a) fs Q := ⟨.refl _, rfl, h⟩

theorem throw (e : Stop) : Flat (MonadExcept.throw e : FuncM α) fs Q := trivial

theorem bind {x : FuncM α} {f : α → FuncM β} {R : β → Func → Prop} (first : Flat x fs Q)
    (rest : ∀ a fs', SameBranches fs.code fs'.code → Q a fs' → Flat (f a) fs' R) : Flat (x >>= f) fs R := by
  refine Sat.bind (Sat.mono first ?_)
  rintro a fs' ⟨same, exp, h⟩
  refine Sat.mono (rest a fs' same h) ?_
  rintro b fs'' ⟨same', exp', h'⟩
  exact ⟨same.trans same', exp'.trans exp, h'⟩

theorem mono {x : FuncM α} {R : α → Func → Prop} (h : Flat x fs Q) (weaker : ∀ a fs', Q a fs' → R a fs') : Flat x fs R :=
  Sat.mono h fun a fs' ⟨same, exp, holds⟩ => ⟨same, exp, weaker a fs' holds⟩

theorem lift {x : Except Stop α} : Flat (liftM x : FuncM α) fs fun _ _ => True := by
  cases x with
  | error e => trivial
  | ok a => exact pure trivial

theorem get {f : Func → FuncM α} (h : Flat (f fs) fs Q) : Flat (MonadState.get >>= f) fs Q := h

theorem modifies {f : Func → Func} {Q : Unit → Func → Prop} (code : (f fs).code = fs.code)
    (exp : (f fs).curExp = fs.curExp) (h : Q () (f fs)) : Flat (modify f) fs Q := ⟨by rw [code]; exact .refl _, exp, h⟩

end Flat

namespace Func

variable {fs : Func} {e : ExpDesc}

theorem emitWord_flat {w : Word} (flat : ∀ i, w = .instr i → branches i.op = false) :
    Flat (emitWord w) fs fun index fs' => index = fs.pc ∧ fs'.code = fs.code ++ [w] := ⟨.emit flat, rfl, rfl, rfl⟩

theorem emitInstruction_flat (flat : branches i.op = false) : Flat (emitInstruction i) fs fun index fs' =>
    Unbranched fs'.code index := by
  refine (emitWord_flat (by rintro _ ⟨⟩; exact flat)).mono ?_
  rintro index fs' ⟨rfl, code⟩
  rw [code]
  refine ⟨by simp [pc], fun j branch => ?_⟩
  rcases branchAt_append.mp branch with before | ⟨-, same, branch⟩
  · exact before.lt.ne rfl
  · cases same
    exact Bool.noConfusion (flat.symm.trans branch)

theorem emitABC_flat {op : OpCode} (flat : branches op = false) (a b c : Nat) : Flat (emitABC op a b c) fs fun index fs' =>
    Unbranched fs'.code index := emitInstruction_flat flat

theorem emitABx_flat {op : OpCode} (flat : branches op = false) (a bx : Nat) : Flat (emitABx op a bx) fs fun index fs' =>
    Unbranched fs'.code index := emitInstruction_flat flat

theorem checkstack_flat (n : Nat) : Flat (checkstack n) fs fun _ _ => True := by
  refine .get ?_
  dsimp only
  split
  · exact .throw _
  split
  · exact .pure trivial
  split
  · exact .throw _
  · exact ⟨.refl _, rfl, trivial⟩

theorem reserveregs_flat (n : Nat) : Flat (reserveregs n) fs fun _ _ => True :=
  (checkstack_flat n).bind fun _ _ _ _ => .modifies rfl rfl trivial

theorem freereg_flat (reg : Nat) : Flat (freereg reg) fs fun _ _ => True := by
  refine .get ?_
  split
  · split
    · exact .throw _
    split
    · exact .throw _
    · exact ⟨.refl _, rfl, trivial⟩
  · exact .pure trivial

theorem freeexp_flat (e : ExpDesc) : Flat (freeexp e) fs fun _ _ => True := by
  cases e with
  | nonreloc r => exact freereg_flat r
  | _ => exact .pure trivial

theorem emitNil_flat (start n : Nat) : Flat (emitNil start n) fs fun _ _ => True := by
  refine .get ?_
  split
  · exact .throw _
  split
  · exact .pure trivial
  · exact (emitABC_flat rfl _ _ _).bind fun _ _ _ _ => .pure trivial

theorem getcode_flat (index : Nat) : Flat (getcode index) fs fun i fs' => fs' = fs ∧ fs.code[index]? = some (.instr i) := by
  refine .get ?_
  split
  · rename_i found
    exact .pure ⟨rfl, found⟩
  · exact .throw _

theorem patch_flat {index : Nat} {f : Instruction → Instruction} (flat : Unbranched fs.code index)
    (op : ∀ i, branches i.op = false → branches (f i).op = false) : Flat (patch index f) fs fun _ _ => True := by
  refine (getcode_flat index).bind ?_
  rintro i _ - ⟨rfl, found⟩
  have plain : branches i.op = false := by
    cases branch : branches i.op with
    | false => rfl
    | true => exact (flat.2 i ⟨found, branch⟩).elim
  exact ⟨.patch found plain (op i plain), rfl, trivial⟩

theorem putConstant_flat (constant : Constant) : Flat (putConstant constant) fs fun _ _ => True := by
  refine .get ?_
  split
  · exact .pure trivial
  split
  · exact .throw _
  · exact ⟨.refl _, rfl, trivial⟩

/-! ## Expressions -/

theorem setoneret_flat (clear : Clear fs.code e) : Flat (setoneret e) fs fun d _ => Once d := by
  cases e with
  | call index => exact (getcode_flat index).bind fun _ _ _ _ => .pure rfl
  | vararg index => exact (patch_flat (clear index (.inr rfl)) (by exact fun _ flat => flat)).bind fun _ _ _ _ => .pure rfl
  | _ => exact .pure rfl

theorem dischargevars_flat (clear : Clear fs.code e) : Flat (dischargevars e) fs fun d _ => Once d := by
  cases e with
  | upvalueIndex i => exact .throw _
  | global k => exact (emitABx_flat rfl _ _).bind fun _ _ _ _ => .pure rfl
  | indexed table key =>
      refine (freereg_flat key).bind fun _ _ _ _ => (freereg_flat table).bind fun _ _ _ _ => ?_
      exact (emitABC_flat rfl _ _ _).bind fun _ _ _ _ => .pure rfl
  | call index => exact setoneret_flat clear
  | vararg index => exact setoneret_flat clear
  | _ => exact .pure rfl

-- an instruction that sets its register is no branch
theorem flat_of_setsRegister {op : OpCode} (sets : op.opMeta.setsRegisterInA = true) : branches op = false := by
  cases op <;> first
    | rfl
    | cases sets

theorem discharge2reg_flat (clear : Clear fs.code e) (reg : Nat) : Flat (discharge2reg e reg) fs fun d _ => Once d := by
  have done {r : Nat} {fs : Func} : Flat (pure (.nonreloc r) : FuncM ExpDesc) fs fun d _ => Once d := .pure rfl
  refine (dischargevars_flat clear).bind fun d fs₁ _ once => ?_
  cases d with
  | nil => exact (emitNil_flat reg 1).bind fun _ _ _ _ => done
  | false => exact (emitABC_flat rfl _ _ _).bind fun _ _ _ _ => done
  | true => exact (emitABC_flat rfl _ _ _).bind fun _ _ _ _ => done
  | constantIndex k => exact (emitABx_flat rfl _ _).bind fun _ _ _ _ => done
  | number n => exact (putConstant_flat _).bind fun _ _ _ _ => (emitABx_flat rfl _ _).bind fun _ _ _ _ => done
  | relocable index =>
      refine (getcode_flat index).bind ?_
      rintro i fs₂ - ⟨rfl, found⟩
      split
      · rename_i sets
        have flat : Unbranched fs₂.code index := .of_flat found (flat_of_setsRegister sets)
        exact (patch_flat flat (by exact fun _ flat => flat)).bind fun _ _ _ _ => done
      · exact .throw _
  | nonreloc r =>
      dsimp only
      split
      · exact done
      · exact (emitABC_flat rfl _ _ _).bind fun _ _ _ _ => done
  | void | jmp _ => exact .pure rfl
  | _ => exact .throw _

theorem exp2reg_flat (clear : Clear fs.code e) (reg : Nat) : Flat (exp2reg e reg) fs fun d _ => Once d := by
  refine (discharge2reg_flat clear reg).bind fun d fs₁ _ once => ?_
  split
  · exact .throw _
  · exact .pure rfl

theorem exp2nextreg_flat (clear : Clear fs.code e) : Flat (exp2nextreg e) fs fun r _ => Once r.2 := by
  refine (dischargevars_flat clear).bind fun d fs₁ _ once => ?_
  refine (freeexp_flat d).bind fun _ fs₂ _ _ => (reserveregs_flat 1).bind fun _ fs₃ _ _ => .get ?_
  exact (exp2reg_flat once.clear _).bind fun _ _ _ once => .pure once

theorem exp2anyreg_flat (clear : Clear fs.code e) : Flat (exp2anyreg e) fs fun r _ => Once r.2 := by
  refine (dischargevars_flat clear).bind fun d fs₁ _ once => ?_
  split
  · exact .pure rfl
  · exact exp2nextreg_flat once.clear

theorem discharge2anyreg_flat (once : Once e) : Flat (discharge2anyreg e) fs fun d _ => Once d := by
  unfold discharge2anyreg
  split
  · exact .pure rfl
  · exact (reserveregs_flat 1).bind fun _ _ _ _ => .get (discharge2reg_flat once.clear _)

theorem exp2RK_flat (clear : Clear fs.code e) : Flat (exp2RK e) fs fun r _ => Once r.2 := by
  refine (dischargevars_flat clear).bind fun d fs₁ _ once => .get ?_
  split
  · split
    · exact (putConstant_flat _).bind fun _ _ _ _ => .pure once
    · exact exp2anyreg_flat once.clear
  · split
    · exact .pure rfl
    · exact exp2anyreg_flat once.clear
  · exact exp2anyreg_flat once.clear

theorem indexed_flat (table : ExpDesc) {key : ExpDesc} (clear : Clear fs.code key) :
    Flat (indexed table key) fs fun d _ => Once d := by
  refine (exp2RK_flat clear).bind ?_
  rintro ⟨rk, d⟩ fs₁ - -
  dsimp only
  split
  · exact .pure rfl
  · exact .throw _

theorem handleSelf_flat {key : ExpDesc} (clear : Clear fs.code e) (once : Once key) :
    Flat (handleSelf e key) fs fun d _ => Once d := by
  refine (exp2anyreg_flat clear).bind fun r fs₁ _ _ => (freeexp_flat r.2).bind fun _ fs₂ _ _ => .get ?_
  refine (reserveregs_flat 2).bind fun _ fs₃ _ _ => ?_
  split
  · refine (exp2RK_flat once.clear).bind fun r fs₄ _ _ => (emitABC_flat rfl _ _ _).bind fun _ fs₅ _ _ => ?_
    exact (freeexp_flat r.2).bind fun _ _ _ _ => .pure rfl
  · exact .throw _

theorem storevar_flat (var : ExpDesc) (clear : Clear fs.code e) : Flat (storevar var e) fs fun d _ => Once d := by
  cases var with
  | localRegister r => exact (freeexp_flat e).bind fun _ _ same _ => exp2reg_flat (clear.keep same) r
  | global k =>
      refine (exp2anyreg_flat clear).bind fun r _ _ once => (emitABx_flat rfl _ _).bind fun _ _ _ _ => ?_
      exact (freeexp_flat r.2).bind fun _ _ _ _ => .pure once
  | _ => exact .throw _

/-! ## Operators -/

theorem codenot_flat (clear : Clear fs.code e) : Flat (codenot e) fs fun d _ => Once d := by
  refine (dischargevars_flat clear).bind fun d _ _ once => ?_
  cases d with
  | nil | false | constantIndex _ | number _ | true => exact .pure rfl
  | relocable _ | nonreloc _ =>
      refine (discharge2anyreg_flat once).bind fun d _ _ _ => (freeexp_flat d).bind fun _ _ _ _ => ?_
      split
      · exact (emitABC_flat rfl _ _ _).bind fun _ _ _ _ => .pure rfl
      · exact .throw _
  | _ => exact .throw _

variable (A : F64.Arithmetic)

theorem constfolding_flat (op : OpCode) (e1 : ExpDesc) (e2 : Option ExpDesc) :
    Flat (constfolding A op e1 e2) fs fun _ _ => True := by
  have folds (v1 v2 : F64) : Flat (fold A op v1 v2) fs fun _ _ => True := by
    cases op <;> first
      | exact .pure trivial
      | exact .throw _
  unfold constfolding
  split
  · exact folds _ _
  · exact folds _ _
  · exact .pure trivial

theorem freeBoth_flat (o1 o2 : Nat) (e1 e2 : ExpDesc) : Flat (freeBoth o1 o2 e1 e2) fs fun _ _ => True := by
  unfold freeBoth
  split
  · exact (freeexp_flat e1).bind fun _ _ _ _ => freeexp_flat e2
  · exact (freeexp_flat e2).bind fun _ _ _ _ => freeexp_flat e1

theorem codearith_flat {op : OpCode} (flat : branches op = false) {e1 : ExpDesc} {e2 : Option ExpDesc}
    (clear : Clear fs.code e1) (clear' : ∀ e, e2 = some e → Clear fs.code e) :
    Flat (codearith A op e1 e2) fs fun d _ => Once d := by
  refine (constfolding_flat A op e1 e2).bind fun folded fs₁ same _ => ?_
  split
  · exact .pure rfl
  · refine (exp2RK_flat (clear.keep same)).bind fun r _ _ _ => (freeexp_flat r.2).bind fun _ _ _ _ => ?_
    exact (emitABC_flat flat _ _ _).bind fun _ _ _ _ => .pure rfl
  · refine (exp2RK_flat ((clear' _ rfl).keep same)).bind fun r₂ fs₂ same' _ => ?_
    refine (exp2RK_flat ((clear.keep same).keep same')).bind fun r₁ _ _ _ => ?_
    refine (freeBoth_flat r₁.1 r₂.1 r₁.2 r₂.2).bind fun _ _ _ _ => ?_
    exact (emitABC_flat flat _ _ _).bind fun _ _ _ _ => .pure rfl

theorem unaryOperator_flat (op : Token) (clear : Clear fs.code e) : Flat (unaryOperator A op e) fs fun d _ => Once d := by
  have inRegister {code : OpCode} (flat : branches code = false) :
      Flat (exp2anyreg e >>= fun discharged => codearith A code discharged.2 none) fs fun d _ => Once d :=
    (exp2anyreg_flat clear).bind fun _ _ _ once => codearith_flat A flat once.clear (by rintro _ ⟨⟩)
  unfold unaryOperator
  split
  · exact codenot_flat clear
  split
  · split
    · exact codearith_flat A rfl clear (by rintro _ ⟨⟩)
    · exact inRegister rfl
  split
  · exact inRegister rfl
  · exact .throw _

theorem leftOperand_flat (op : Token) (clear : Clear fs.code e) : Flat (leftOperand op e) fs fun d _ => Once d := by
  unfold leftOperand
  split
  · exact .throw _
  split
  · split
    · rename_i number
      cases e with
      | number n => exact .pure rfl
      | _ => cases number
    · exact (exp2RK_flat clear).bind fun _ _ _ once => .pure once
  split
  · exact (exp2nextreg_flat clear).bind fun _ _ _ once => (exp2RK_flat once.clear).bind fun _ _ _ once => .pure once
  · exact (exp2RK_flat clear).bind fun _ _ _ once => .pure once

theorem codeconcat_flat {e1 e2 : ExpDesc} (once : Once e1) (clear : Clear fs.code e2) :
    Flat (codeconcat A e1 e2) fs fun d _ => Once d := by
  refine (dischargevars_flat clear).bind fun d fs₁ _ once' => ?_
  have operand : Flat (concatOperand d) fs₁ fun operand fs₂ => fs₂ = fs₁ ∧
      ∀ pair, operand = some pair → Unbranched fs₁.code pair.1 := by
    cases d with
    | relocable index =>
        refine (getcode_flat index).bind ?_
        rintro i _ - ⟨rfl, found⟩
        refine .pure ⟨rfl, ?_⟩
        intro pair is
        split at is
        · rename_i concat
          cases is
          exact .of_flat found (by rw [concat]; rfl)
        · cases is
    | _ => exact .pure ⟨rfl, by rintro _ ⟨⟩⟩
  refine operand.bind ?_
  rintro operand fs₂ - ⟨rfl, flat⟩
  split
  · split
    · refine (freereg_flat _).bind fun _ _ same _ => ?_
      exact (patch_flat ((flat _ rfl).keep same) (by exact fun _ flat => flat)).bind fun _ _ _ _ => .pure rfl
    · exact .throw _
  · exact .throw _
  · refine (exp2nextreg_flat once'.clear).bind fun r _ _ once₂ => ?_
    exact codearith_flat A rfl once.clear fun e is => by cases is; exact once₂.clear

theorem comparison_flat {op : OpCode} (flat : branches op = false) (invert : Bool) {e1 e2 : ExpDesc}
    (clear : Clear fs.code e1) (clear' : Clear fs.code e2) : Flat (comparison op invert e1 e2) fs fun d _ => Once d := by
  refine (exp2RK_flat clear).bind fun _ _ same _ => (exp2RK_flat (clear'.keep same)).bind fun _ _ _ _ => ?_
  exact (emitABC_flat flat _ _ _).bind fun _ _ _ _ => .pure rfl

theorem arithmeticOp_flat {op : Token} {code : OpCode} (known : arithmeticOp op = some code) : branches code = false := by
  have all : ∀ code ∈ foldable, branches code = false := by decide
  exact all code (arithmeticOp_foldable known)

theorem binaryOperator_flat (op : Token) {e1 e2 : ExpDesc} (once : Once e1) (clear : Clear fs.code e2) :
    Flat (binaryOperator A op e1 e2) fs fun d _ => Once d := by
  unfold binaryOperator
  split
  · exact .throw _
  split
  · exact codeconcat_flat A once clear
  split
  · exact comparison_flat rfl _ once.clear clear
  split
  · exact comparison_flat rfl _ once.clear clear
  split
  · exact comparison_flat rfl _ once.clear clear
  split
  · exact comparison_flat rfl _ clear once.clear
  split
  · rename_i known
    exact codearith_flat A (arithmeticOp_flat known) once.clear fun e is => by cases is; exact clear
  split
  · exact comparison_flat rfl _ clear once.clear
  split
  · exact comparison_flat rfl _ once.clear clear
  · exact .throw _

/-! ## Lists of values -/

theorem setreturns_flat (clear : Clear fs.code e) (num : Option Nat) : Flat (setreturns e num) fs fun _ _ => True := by
  unfold setreturns
  split
  · exact .throw _
  split
  · exact patch_flat (clear _ (.inl rfl)) fun _ flat => flat
  · refine .get ((patch_flat (clear _ (.inr rfl)) (by exact fun _ flat => flat)).bind fun _ _ _ _ => ?_)
    exact reserveregs_flat 1
  · exact .pure trivial

theorem exp2nextregUnlessVoid_flat (clear : Clear fs.code e) : Flat (exp2nextregUnlessVoid e) fs fun d _ => Once d := by
  unfold exp2nextregUnlessVoid
  split
  · exact .pure rfl
  · exact (exp2nextreg_flat clear).bind fun _ _ _ once => .pure once

theorem fillNil_flat (n : Nat) : Flat (fillNil n) fs fun _ _ => True := by
  unfold fillNil
  split
  · exact .pure trivial
  · exact .get ((reserveregs_flat n).bind fun _ _ _ _ => emitNil_flat _ _)

theorem adjustAssign_flat (numVars numValues : Nat) (clear : Clear fs.code e) :
    Flat (adjustAssign numVars numValues e) fs fun d fs' => Clear fs'.code d := by
  have more (extra : Nat) {fs : Func} : Flat (reserveMore extra) fs fun _ _ => True := by
    unfold reserveMore
    split
    · exact reserveregs_flat _
    · exact .pure trivial
  unfold adjustAssign
  split
  · refine (setreturns_flat clear _).bind fun _ _ same _ => (more _).bind fun _ _ same' _ => ?_
    exact .pure ((clear.keep same).keep same')
  · refine (exp2nextregUnlessVoid_flat clear).bind fun _ _ _ once => (fillNil_flat _).bind fun _ _ _ _ => ?_
    exact .pure once.clear

theorem setlist_flat (base numValues : Nat) (toStore : Option Nat) : Flat (setlist base numValues toStore) fs fun _ _ => True := by
  have emitted (batch stored : Nat) : Flat (emitSetlist base batch stored) fs fun _ _ => True := by
    unfold emitSetlist
    split
    · exact (emitABC_flat rfl _ _ _).mono fun _ _ _ => trivial
    · refine (emitABC_flat rfl _ _ _).bind fun _ _ _ _ => ?_
      exact (emitWord_flat fun _ is => Word.noConfusion is).mono fun _ _ _ => trivial
  exact (emitted _ _).bind fun _ _ _ _ => .modifies rfl rfl trivial

/-! ## Local variables -/

theorem newLocalvar_flat (name : Token) (index : Nat) : Flat (newLocalvar name index) fs fun _ _ => True := by
  refine .get ?_
  split
  · exact .throw _
  · exact ⟨.refl _, rfl, trivial⟩

theorem findLocalVarByToken_flat (source : List UInt8) (token : Token) :
    Flat (findLocalVarByToken source token) fs fun _ _ => True := .get .lift

end Func

/-! ## Generators -/

structure Quiet (c c' : Compiler) : Prop where
  same : SameBranches c.func.code c'.func.code
  clear : Clear c'.func.code c'.func.curExp

-- the current expression stays clear, whatever is left open
def Calm {α : Type} (x : CompileM α) (c : Compiler) (Q : α → Compiler → Prop) : Prop :=
  Clear c.func.code c.func.curExp → Sat (fun _ => True) x c fun a c' => Quiet c c' ∧ Q a c'

abbrev Quietly {α : Type} (x : CompileM α) : Prop := ∀ c, Calm x c fun _ _ => True

variable {env : Env} {c : Compiler}

namespace Calm

variable {α β : Type} {Q : α → Compiler → Prop}

theorem pure {a : α} (h : Q a c) : Calm (Pure.pure a) c Q := fun clear => ⟨⟨.refl _, clear⟩, h⟩

theorem throw (e : Stop) : Calm (MonadExcept.throw e : CompileM α) c Q := fun _ => trivial

theorem bind {x : CompileM α} {f : α → CompileM β} {R : β → Compiler → Prop} (first : Calm x c Q)
    (rest : ∀ a c', SameBranches c.func.code c'.func.code → Q a c' → Calm (f a) c' R) : Calm (x >>= f) c R := by
  intro clear
  refine Sat.bind ((first clear).mono ?_)
  rintro a c' ⟨quiet, h⟩
  refine (rest a c' quiet.same h quiet.clear).mono ?_
  rintro b c'' ⟨quiet', h'⟩
  exact ⟨⟨quiet.same.trans quiet'.same, quiet'.clear⟩, h'⟩

theorem mono {x : CompileM α} {R : α → Compiler → Prop} (h : Calm x c Q) (weaker : ∀ a c', Q a c' → R a c') :
    Calm x c R := fun clear => (h clear).mono fun a c' ⟨quiet, holds⟩ => ⟨quiet, weaker a c' holds⟩

theorem quiet {x : CompileM α} (h : Calm x c Q) : Calm x c fun _ _ => True := h.mono fun _ _ _ => trivial

theorem same {x : CompileM α} (h : Calm x c Q) : Calm x c fun _ c' => SameBranches c.func.code c'.func.code := fun clear =>
  (h clear).mono fun _ _ ⟨quiet, _⟩ => ⟨quiet, quiet.same⟩

-- what is read is clear
theorem getFunc {f : Func → CompileM α} (h : Clear c.func.code c.func.curExp → Calm (f c.func) c Q) :
    Calm (Compile.getFunc >>= f) c Q := fun clear => h clear clear

theorem onFunc {x : FuncM α} {Q : α → Func → Prop} (flat : Flat x c.func Q) :
    Calm (onFunc x) c fun a c' => Q a c'.func := by
  intro clear
  refine sat_onFunc (Sat.mono flat ?_)
  rintro a fs' ⟨same, exp, h⟩
  refine ⟨⟨same, ?_⟩, h⟩
  show Clear fs'.code fs'.curExp
  rw [exp]
  exact clear.keep same

theorem setExp {e : ExpDesc} (clear : Clear c.func.code e) :
    Calm (Compile.setExp e) c fun _ c' => c'.func.code = c.func.code ∧ c'.func.curExp = e :=
  fun _ => ⟨⟨.refl _, clear⟩, rfl, rfl⟩

theorem modifyFunc {f : Func → Func} (code : (f c.func).code = c.func.code) (exp : (f c.func).curExp = c.func.curExp) :
    Calm (Compile.onFunc (modify f)) c fun _ _ => True :=
  onFunc (Q := fun _ _ => True) (.modifies code exp trivial)

theorem onExp {f : ExpDesc → FuncM ExpDesc} {P : ExpDesc → Prop} (flat : Clear c.func.code c.func.curExp →
    Flat (f c.func.curExp) c.func fun d fs' => Clear fs'.code d ∧ P d) : Calm (onExp f) c fun _ c' => P c'.func.curExp := by
  refine getFunc fun clear => (onFunc (flat clear)).bind ?_
  rintro d c' - ⟨clear', h⟩
  refine (setExp clear').mono ?_
  rintro _ c'' ⟨-, same⟩
  rwa [same]

theorem onExpOnce {f : ExpDesc → FuncM ExpDesc} (flat : ∀ e, Clear c.func.code e →
    Flat (f e) c.func fun d _ => Once d) : Calm (Compile.onExp f) c fun _ c' => Once c'.func.curExp :=
  onExp fun clear => (flat _ clear).mono fun _ _ once => ⟨once.clear, once⟩

theorem onExpReg {f : ExpDesc → FuncM (Nat × ExpDesc)} (flat : ∀ e, Clear c.func.code e →
    Flat (f e) c.func fun r _ => Once r.2) : Calm (onExpReg f) c fun _ c' => Once c'.func.curExp := by
  refine getFunc fun clear => (onFunc (flat _ clear)).bind ?_
  rintro ⟨r, d⟩ c' - once
  refine (setExp once.clear).bind ?_
  rintro _ c'' - ⟨-, same⟩
  refine pure ?_
  rw [same]
  exact once

theorem nextReg : Calm nextReg c fun _ c' => Once c'.func.curExp := onExpReg fun _ => Func.exp2nextreg_flat

theorem anyReg : Calm (Compile.onExpReg Func.exp2anyreg) c fun _ c' => Once c'.func.curExp :=
  onExpReg fun _ => Func.exp2anyreg_flat

theorem emitABC {op : OpCode} (flat : branches op = false) (a b d : Nat) :
    Calm (Compile.onFunc (Func.emitABC op a b d)) c fun index c' => Unbranched c'.func.code index :=
  onFunc (Func.emitABC_flat flat a b d)

theorem emitABx {op : OpCode} (flat : branches op = false) (a bx : Nat) :
    Calm (Compile.onFunc (Func.emitABx op a bx)) c fun index c' => Unbranched c'.func.code index :=
  onFunc (Func.emitABx_flat flat a bx)

theorem emitReturn (first : Nat) (num : Option Nat) : Calm (do let _ ← Compile.onFunc (Func.emitReturn first num)) c
    fun _ _ => True := (emitABC rfl _ _ _).bind fun _ _ _ _ => pure trivial

theorem reserveregs (n : Nat) : Calm (Compile.onFunc (Func.reserveregs n)) c fun _ _ => True :=
  onFunc (Func.reserveregs_flat n)

theorem genName (token : Token) : Calm (genName env token) c fun _ _ => True := onFunc (Func.putConstant_flat _)

theorem genLiteral (token : Token) : Calm (genLiteral env token) c fun _ _ => True := by
  have single {e : ExpDesc} (once : Once e) {c : Compiler} : Calm (Compile.setExp e) c fun _ _ => True :=
    (setExp once.clear).quiet
  unfold Compile.genLiteral
  split
  · split
    · exact (onFunc (Func.putConstant_flat _)).bind fun _ _ _ _ => single rfl
    · exact throw _
  · split
    · exact single rfl
    · exact throw _
  · exact single rfl
  · exact single rfl
  · exact single rfl
  · exact (emitABC rfl _ _ _).bind fun _ _ _ flat => (setExp flat.vararg).quiet
  · exact (genName token).bind fun _ _ _ _ => single rfl
  · exact throw _

theorem genIdentifier (token : Token) : Calm (genIdentifier env token) c fun _ _ => True := by
  refine (onFunc (Func.findLocalVarByToken_flat _ token)).bind fun found c₁ _ _ => ?_
  have recorded : Calm (recordBinding token found) c₁ fun _ _ => True := fun clear => ⟨⟨.refl _, clear⟩, trivial⟩
  refine recorded.bind fun _ c₂ _ _ => ?_
  split
  · exact (setExp (Once.clear rfl)).quiet
  · exact (genName token).bind fun _ _ _ _ => (setExp (Once.clear rfl)).quiet

theorem genField (field separator : Token) : Calm (genField env field separator) c fun _ _ => True := by
  unfold Compile.genField
  split
  · refine (genName field).bind fun _ _ _ _ => ?_
    exact (onExpOnce fun _ clear => Func.handleSelf_flat clear rfl).quiet
  · refine anyReg.bind fun _ _ _ _ => (genName field).bind fun _ _ _ _ => ?_
    exact (onExpOnce fun e _ => Func.indexed_flat e (Once.clear rfl)).quiet

theorem genCallInstruction (base : Nat) (isStatement : Bool) :
    Calm (genCallInstruction base isStatement) c fun _ _ => True := by
  refine getFunc fun _ => ?_
  split
  · exact throw _
  · refine (emitABC rfl _ _ _).bind fun _ _ _ flat => (setExp flat.call).bind fun _ _ _ _ => ?_
    exact modifyFunc rfl rfl

theorem calledRegister : Calm calledRegister c fun _ _ => True := by
  refine getFunc fun _ => ?_
  split
  · exact pure trivial
  · exact throw _

theorem declareLocals (names : List Token) (index : Nat) : Calm (declareLocals names index) c fun _ _ => True := by
  induction names generalizing index c with
  | nil => exact pure trivial
  | cons name names ih => exact (onFunc (Func.newLocalvar_flat name index)).bind fun _ _ _ _ => ih (index + 1)

theorem localNames (targets : List Node) :
    Calm (targets.mapM fun target => (localName target : CompileM Token)) c fun _ _ => True := by
  induction targets generalizing c with
  | nil => exact pure trivial
  | cons target targets ih =>
      rw [List.mapM_cons]
      have name : Calm (localName target : CompileM Token) c fun _ _ => True := by
        cases target <;> first
          | exact pure trivial
          | exact fun _ => trivial
      exact name.bind fun _ _ _ _ => ih.bind fun _ _ _ _ => pure trivial

theorem storeFrom (targets : List ExpDesc) (n : Nat) : Calm (storeFrom targets n) c fun _ _ => True := by
  induction n generalizing c with
  | zero => exact pure trivial
  | succ n ih =>
      refine getFunc fun _ => ?_
      split
      · exact throw _
      split
      · exact throw _
      · refine (onFunc (Func.storevar_flat _ (Once.clear rfl))).bind fun _ _ _ once => ?_
        exact (setExp once.clear).bind fun _ _ _ _ => ih

theorem genStores (targets : List ExpDesc) (numValues : Nat) : Calm (genStores targets numValues) c fun _ _ => True := by
  have drops (n : Nat) {c : Compiler} : Calm (dropRegisters n) c fun _ _ => True := by
    refine getFunc fun _ => ?_
    split
    · exact throw _
    · exact modifyFunc rfl rfl
  unfold Compile.genStores
  dsimp only
  split
  · exact throw _
  split
  · refine (onExp (P := fun _ => True) fun clear => ?_).bind fun _ _ _ _ => (drops _).bind fun _ _ _ _ => storeFrom _ _
    exact (Func.adjustAssign_flat _ _ clear).mono fun _ _ clear => ⟨clear, trivial⟩
  split
  · exact throw _
  · refine (onExpOnce fun _ => Func.setoneret_flat).bind fun _ _ _ _ => ?_
    exact (onExpOnce fun _ => Func.storevar_flat _).bind fun _ _ _ _ => storeFrom _ _

theorem genReturnValues (numValues : Nat) : Calm (genReturnValues numValues) c fun _ _ => True := by
  refine getFunc fun clear => ?_
  split
  · refine (onFunc (Func.setreturns_flat clear none)).bind fun _ c₁ same _ => ?_
    split
    · rename_i index is
      split
      · have flat : Unbranched c₁.func.code index := (clear index (.inl is)).keep same
        refine (onFunc (Func.patch_flat flat (by exact fun _ _ => rfl))).bind fun _ _ _ _ => ?_
        refine (onFunc (Func.getcode_flat index)).bind fun i _ _ _ => ?_
        split
        · exact emitReturn _ _
        · exact throw _
      · exact emitReturn _ _
    · exact emitReturn _ _
  split
  · exact anyReg.bind fun _ _ _ _ => emitReturn _ _
  · refine nextReg.bind fun _ _ _ _ => getFunc fun _ => ?_
    split
    · exact emitReturn _ _
    · exact throw _

theorem flushField {tableReg : Nat} {st : FieldState} (clear : Clear c.func.code st.arrayValueExp) :
    Calm (flushField tableReg st) c fun st' c' => Clear c'.func.code st'.arrayValueExp := by
  unfold Compile.flushField
  split
  · exact pure clear
  · refine (onFunc (Func.exp2nextreg_flat clear)).bind fun _ _ _ _ => ?_
    split
    · exact (onFunc (Func.setlist_flat _ _ _)).bind fun _ _ _ _ => pure (Once.clear rfl)
    · exact pure (Once.clear rfl)

theorem flushLast {tableReg : Nat} {st : FieldState} (clear : Clear c.func.code st.arrayValueExp) :
    Calm (flushLast tableReg st) c fun _ _ => True := by
  unfold Compile.flushLast
  split
  · exact pure trivial
  split
  · refine (onFunc (Func.setreturns_flat clear none)).bind fun _ _ _ _ => ?_
    exact (onFunc (Func.setlist_flat _ _ _)).bind fun _ _ _ _ => pure trivial
  · refine (onFunc (Func.exp2nextregUnlessVoid_flat clear)).bind fun _ _ _ _ => ?_
    exact (onFunc (Func.setlist_flat _ _ _)).bind fun _ _ _ _ => pure trivial

theorem storeField (tableReg freeReg keyRk : Nat) : Calm (storeField tableReg freeReg keyRk) c fun _ _ => True := by
  refine (onExpReg fun _ => Func.exp2RK_flat).bind fun _ _ _ _ => (emitABC rfl _ _ _).bind fun _ _ _ _ => ?_
  exact modifyFunc rfl rfl

theorem genClosure (name : Option Node) (isLocal : Bool) : Calm (genClosure env name isLocal) c fun _ _ => True := by
  unfold Compile.genClosure
  refine getFunc fun _ => ?_
  split
  · refine (emitABx rfl _ _).bind fun _ _ _ _ => (setExp (Once.clear rfl)).bind fun _ _ _ _ => ?_
    exact reserveregs 1
  split
  · have closed {c : Compiler} (r : Nat) : Calm (do
        let _ ← Compile.onFunc (Func.emitABx .closure r 0)
        Compile.onFunc (Func.reserveregs 1)
        Compile.onFunc (Func.adjustlocalvars 1)) c fun _ _ => True :=
      (emitABx rfl _ _).bind fun _ _ _ _ => (reserveregs 1).bind fun _ _ _ _ => modifyFunc rfl rfl
    split
    · exact (onFunc (Func.newLocalvar_flat _ 0)).bind fun _ _ _ _ => closed _
    · exact closed _
  · refine (emitABx rfl _ _).bind fun _ _ _ _ => (reserveregs 1).bind fun _ _ _ _ => ?_
    split
    · refine (genName _).bind fun _ _ _ _ => (setExp (Once.clear rfl)).bind fun _ _ _ _ => ?_
      exact (emitABx rfl _ _).bind fun _ _ _ _ => pure trivial
    · exact pure trivial

end Calm

/-! ## Expressions in a tree -/

theorem genArguments_calm {nodes : List Node} (all : ∀ node ∈ nodes, Quietly (genNode env node)) :
    Quietly (genArguments env nodes) := by
  induction nodes with
  | nil =>
      intro c
      rw [genArguments]
      exact .pure trivial
  | cons node rest ih =>
      intro c
      rw [genArguments]
      refine (all node List.mem_cons_self c).bind fun _ c₁ _ _ => Calm.nextReg.bind fun _ c₂ _ _ => ?_
      exact ih (fun node member => all node (List.mem_cons_of_mem _ member)) c₂

theorem genExpList1_calm {nodes : List Node} (all : ∀ node ∈ nodes, Quietly (genNode env node)) :
    Quietly (genExpList1 env nodes) := by
  induction nodes with
  | nil =>
      intro c
      rw [genExpList1]
      exact .pure trivial
  | cons node rest ih =>
      intro c
      rw [genExpList1]
      refine (all node List.mem_cons_self c).bind fun _ c₁ _ _ => ?_
      split
      · exact .pure trivial
      · refine Calm.nextReg.bind fun _ c₂ _ _ => ?_
        exact ih (fun node member => all node (List.mem_cons_of_mem _ member)) c₂

theorem genTargets_calm {nodes : List Node} (all : ∀ node ∈ nodes, Quietly (genNode env node)) :
    Quietly (genTargets env nodes) := by
  induction nodes with
  | nil =>
      intro c
      rw [genTargets]
      exact .pure trivial
  | cons node rest ih =>
      intro c
      rw [genTargets]
      refine (all node List.mem_cons_self c).bind fun _ c₁ _ _ => .getFunc fun _ => ?_
      exact (ih (fun node member => all node (List.mem_cons_of_mem _ member)) c₁).bind fun _ _ _ _ => .pure trivial

theorem genIncrement_calm {increment : Option Node} (given : ∀ e, increment = some e → Quietly (genNode env e)) :
    Quietly (genIncrement env increment) := by
  intro c
  cases increment with
  | none =>
      rw [genIncrement]
      exact (Calm.setExp (Once.clear rfl)).quiet
  | some e =>
      rw [genIncrement]
      exact given e rfl c

theorem genFields_calm {tableReg : Nat} {fields : List Node} (all : ∀ field ∈ fields, Quietly (genTableField env field))
    {st : FieldState} {c : Compiler} (clear : Clear c.func.code st.arrayValueExp) :
    Calm (genFields env tableReg fields st) c fun st' c' => Clear c'.func.code st'.arrayValueExp := by
  induction fields generalizing st c with
  | nil =>
      rw [genFields]
      exact .pure clear
  | cons field rest ih =>
      rw [genFields]
      refine .getFunc fun before => (Calm.flushField clear).bind fun st₁ c₁ same₁ clear₁ => ?_
      refine (all field List.mem_cons_self c₁).bind fun positional c₂ same₂ _ => .getFunc fun value => ?_
      refine (Calm.setExp ((before.keep same₁).keep same₂)).bind ?_
      rintro _ c₃ - ⟨code, -⟩
      refine ih (fun field member => all field (List.mem_cons_of_mem _ member)) ?_
      rw [code]
      cases positional with
      | true => exact value
      | false => exact clear₁.keep same₂

theorem genTable_calm {fields : List Node} {openToken closeToken : Token}
    (all : ∀ field ∈ fields, Quietly (genTableField env field)) :
    Quietly (genNode env (.tableConstructor fields openToken closeToken)) := by
  intro c
  rw [genNode]
  refine (Calm.emitABC rfl _ _ _).bind fun index c₁ _ flat => ?_
  refine (Calm.setExp (Once.clear rfl)).bind fun _ c₂ same₂ _ => Calm.nextReg.bind fun tableReg c₃ same₃ _ => ?_
  refine (genFields_calm all (Once.clear rfl)).bind fun st c₄ same₄ clear => ?_
  refine (Calm.flushLast clear).bind fun st c₅ same₅ _ => ?_
  split
  · exact .pure trivial
  · have flat : Unbranched c₅.func.code index := (((flat.keep same₂).keep same₃).keep same₄).keep same₅
    exact .onFunc (Q := fun _ _ => True) (Func.patch_flat flat fun _ flat => flat)

theorem genCall_calm {callee : Node} {arguments : List Node} {openArgs closeArgs : Option Token} {isStatement : Bool}
    (called : Quietly (genNode env callee)) (all : ∀ argument ∈ arguments, Quietly (genNode env argument)) :
    Quietly (genNode env (.call callee arguments openArgs closeArgs isStatement)) := by
  intro c
  rw [genNode]
  refine (called c).bind fun _ c₁ _ _ => ?_
  have calls {c : Compiler} : Calm (do
      let base ← calledRegister
      genArguments env arguments
      genCallInstruction base isStatement) c fun _ _ => True :=
    Calm.calledRegister.bind fun base _ _ _ => (genArguments_calm all _).bind fun _ _ _ _ => .genCallInstruction base _
  split
  · exact calls
  · exact Calm.nextReg.bind fun _ _ _ _ => calls

-- the code of a function is its own, and it is put aside
theorem genFunction_calm {name : Option Node} {parameters : List Token} {body : List Node} {isLocal : Bool} :
    Quietly (genNode env (.functionDeclaration name parameters body isLocal)) := by
  intro c clear
  rw [genNode]
  refine Sat.bind (Sat.get (Sat.bind (Sat.set ?_)))
  refine Sat.last fun _ _ => Sat.last fun _ _ => Sat.last fun _ _ => Sat.last fun _ child => Sat.bind (Sat.modify ?_)
  have closed : Calm (genClosure env name isLocal) { child with func := c.func } fun _ _ => True := .genClosure name isLocal
  exact (closed clear).mono fun _ c' ⟨quiet, _⟩ => ⟨⟨quiet.same, quiet.clear⟩, trivial⟩

theorem recField_calm {key value : Node} (first : Quietly (genNode env key)) (second : Quietly (genNode env value)) :
    Quietly (genTableField env (.tableField (some key) value)) := by
  intro c
  rw [genTableField]
  refine .getFunc fun _ => ?_
  have register : Calm (registerOf c.func.curExp : CompileM Nat) c fun _ _ => True := by
    cases c.func.curExp <;> first
      | exact .pure trivial
      | exact fun _ => trivial
  refine register.bind fun tableReg c₁ _ _ => (first c₁).bind fun _ c₂ _ _ => ?_
  refine (Calm.onExpReg fun _ => Func.exp2RK_flat).bind fun keyRk c₃ _ _ => (second c₃).bind fun _ c₄ _ _ => ?_
  exact (Calm.storeField _ _ _).bind fun _ _ _ _ => .pure trivial

def Unjumping (env : Env) : Role → Node → Prop
  | .expression, node | .callee, node | .key, node | .target, node => Quietly (genNode env node)
  | .field, node => Quietly (genTableField env node)
  | _, _ => True

theorem Shaped.unjumping {role : Role} {node : Node} (shaped : Shaped role node) : Unjumping env role node := by
  induction shaped with
  | literal _ =>
      intro c
      rw [genNode]
      exact .genLiteral _
  | identifier _ =>
      intro c
      rw [genNode]
      exact .genIdentifier _
  | fieldAccess _ _ operand =>
      intro c
      rw [genNode]
      exact (operand c).bind fun _ _ _ _ => .genField _ _
  | indexAccess _ _ operand index =>
      intro c
      rw [genNode]
      refine (operand c).bind fun _ c₁ _ _ => Calm.anyReg.bind fun _ c₂ _ _ => .getFunc fun _ => ?_
      refine (Calm.setExp (Once.clear rfl)).bind fun _ c₃ _ _ => (index c₃).bind fun _ c₄ _ _ => ?_
      refine (Calm.onExpOnce fun _ => Func.dischargevars_flat).bind fun _ c₅ _ _ => ?_
      exact (Calm.onExpOnce fun _ => Func.indexed_flat _).quiet
  | call _ _ _ called arguments => exact genCall_calm called arguments
  | function _ _ => exact genFunction_calm
  | tableConstructor _ fields => exact genTable_calm fields
  | unaryExpression _ _ argument =>
      intro c
      rw [genNode]
      exact (argument c).bind fun _ _ _ _ => (Calm.onExpOnce fun _ => Func.unaryOperator_flat _ _).quiet
  | binaryExpression _ _ _ left right =>
      intro c
      rw [genNode]
      refine (left c).bind fun _ c₁ _ _ => (Calm.onExpOnce fun _ => Func.leftOperand_flat _).bind fun _ c₂ _ once => ?_
      refine .getFunc fun _ => (right c₂).bind fun _ c₃ _ _ => ?_
      exact (Calm.onExpOnce fun _ => Func.binaryOperator_flat _ _ once).quiet
  | groupedExpression _ expression =>
      intro c
      rw [genNode]
      exact expression c
  | callee _ expression => exact expression
  | method _ _ operand =>
      intro c
      rw [genNode]
      exact (operand c).bind fun _ _ _ _ => .genField _ _
  | key _ expression => exact expression
  | nameKey _ =>
      intro c
      rw [genNode]
      exact .genLiteral _
  | listField _ value =>
      intro c
      rw [genTableField]
      exact (value c).bind fun _ _ _ _ => .pure trivial
  | recField _ _ key value => exact recField_calm key value
  | target _ _ expression => exact expression
  | _ => exact trivial

theorem shaped_calm {nodes : List Node} (shaped : AllShaped .expression nodes) :
    ∀ node ∈ nodes, Quietly (genNode env node) := fun node member => Shaped.unjumping (shaped node member)

-- the statements without blocks, apart from breaks
def isUnjumping : Node → Bool
  | .call _ _ _ _ _ | .assignmentStatement _ _ _ | .returnStatement _ | .functionDeclaration _ _ _ _ => true
  | _ => false

theorem statement_calm {node : Node} (shaped : Shaped .statement node) (plain : isUnjumping node = true) :
    Quietly (genNode env node) := by
  intro c
  cases shaped with
  | callStatement callee arguments =>
      exact genCall_calm (Shaped.unjumping callee) (shaped_calm arguments) c
  | assignment _ targets values =>
      rw [genNode]
      have stored : ∀ target ∈ _, Quietly (genNode env target) := fun target member => Shaped.unjumping (targets target member)
      refine (genTargets_calm stored c).bind fun exps c₁ _ _ => ?_
      refine (genExpList1_calm (shaped_calm values) c₁).bind fun _ c₂ _ _ => ?_
      exact .genStores exps _
  | localStatement _ values =>
      rw [genNode]
      refine (Calm.localNames _).bind fun names c₁ _ _ => (Calm.declareLocals names 0).bind fun _ c₂ _ _ => ?_
      refine (genExpList1_calm (shaped_calm values) c₂).bind fun _ c₃ _ _ => ?_
      have rest (n m : Nat) {c : Compiler} : Calm (do
          onExp (Func.adjustAssign n m)
          onFunc (Func.adjustlocalvars n)) c fun _ _ => True := by
        refine (Calm.onExp (P := fun _ => True) fun clear => ?_).bind fun _ _ _ _ => Calm.modifyFunc rfl rfl
        exact (Func.adjustAssign_flat n m clear).mono fun _ _ clear => ⟨clear, trivial⟩
      split
      · exact (Calm.setExp (Once.clear rfl)).bind fun _ _ _ _ => rest _ _
      · exact rest _ _
  | returnStatement values =>
      rw [genNode]
      split
      · exact .emitReturn _ _
      split
      · exact .throw _
      · refine (genExpList1_calm (shaped_calm values) c).bind fun _ c₁ _ _ => ?_
        exact .genReturnValues _
  | functionStatement _ _ => exact genFunction_calm c
  | localFunction _ => exact genFunction_calm c
  | _ => cases plain

end Zua.Compile
