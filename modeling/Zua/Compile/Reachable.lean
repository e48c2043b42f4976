import Zua.Compile.Scope
import Zua.Parse.Shape

/-!
# Unreachable branches

The generators rely on the shape of the trees that the parser returns. On such a tree none of the branches is taken
that `compiler.zig` marks as unreachable.
-/

namespace Zua.Compile
open Code Syntax Parse
open Memory (Constant)
open Zua.Lex (Token ch bytes Lexer)

variable {σ α β : Type}

abbrev Gives (P : α → Prop) (x : StateT σ (Except Stop) α) : Prop := Yields (fun e => e ≠ .unreachable) P x

abbrev Clean (x : StateT σ (Except Stop) α) : Prop := Gives (fun _ => True) x

theorem Clean.pure (a : α) : Clean (Pure.pure a : StateT σ (Except Stop) α) := Yields.pure trivial

theorem Clean.bind {P : β → Prop} {x : StateT σ (Except Stop) α} {f : α → StateT σ (Except Stop) β} (first : Clean x)
    (rest : ∀ a, Gives P (f a)) : Gives P (x >>= f) := Yields.bind first fun a _ => rest a

theorem Gives.clean {P : α → Prop} {x : StateT σ (Except Stop) α} (gives : Gives P x) : Clean x :=
  gives.mono fun _ _ => trivial

/-! ## Registers, instructions and constants -/

namespace Func

theorem checkstack_clean (n : Nat) : Clean (checkstack n) := by
  refine Clean.bind Yields.get fun fs => ?_
  dsimp only
  split
  · exact Yields.throw (by decide)
  split
  · exact Clean.pure _
  split
  · exact Yields.throw (by decide)
  · exact Yields.set _

theorem reserveregs_clean (n : Nat) : Clean (reserveregs n) :=
  (checkstack_clean n).bind fun _ => Yields.modify _

theorem freereg_clean (reg : Nat) : Clean (freereg reg) := by
  refine Clean.bind Yields.get fun fs => ?_
  split
  · split
    · exact Yields.throw (by decide)
    split
    · exact Yields.throw (by decide)
    · exact Yields.set _
  · exact Clean.pure _

theorem freeexp_clean (e : ExpDesc) : Clean (freeexp e) := by
  cases e with
  | nonreloc r => exact freereg_clean r
  | _ => exact Clean.pure _

theorem emitWord_clean (w : Word) : Clean (emitWord w) :=
  Clean.bind Yields.get fun _ => Clean.bind (Yields.set _) fun _ => Clean.pure _

theorem emitABC_clean (op : OpCode) (a b c : Nat) : Clean (emitABC op a b c) := emitWord_clean _

theorem emitABx_clean (op : OpCode) (a bx : Nat) : Clean (emitABx op a bx) := emitWord_clean _

theorem emitNil_clean (start n : Nat) : Clean (emitNil start n) := by
  refine Clean.bind Yields.get fun fs => ?_
  split
  · exact Yields.throw (by decide)
  split
  · exact Clean.pure _
  · exact (emitABC_clean _ _ _ _).bind fun _ => Clean.pure _

theorem getcode_clean (index : Nat) : Clean (getcode index) := by
  refine Clean.bind Yields.get fun fs => ?_
  split
  · exact Clean.pure _
  · exact Yields.throw (by decide)

theorem patch_clean (index : Nat) (f : Instruction → Instruction) : Clean (patch index f) :=
  (getcode_clean index).bind fun _ => Yields.modify _

theorem putConstant_clean (constant : Constant) : Clean (putConstant constant) := by
  refine Clean.bind Yields.get fun fs => ?_
  split
  · exact Clean.pure _
  split
  · exact Yields.throw (by decide)
  · exact Clean.bind (Yields.set _) fun _ => Clean.pure _

theorem newLocalvar_clean (name : Token) (index : Nat) : Clean (newLocalvar name index) := by
  refine Clean.bind Yields.get fun fs => ?_
  split
  · exact Yields.throw (by decide)
  · exact Yields.set _

theorem removevars_clean : Clean removevars := by
  refine Clean.bind Yields.get fun fs => ?_
  split
  · exact Yields.set _
  · exact Yields.throw (by decide)

theorem searchVar_error {fs : Func} {source name : List UInt8} {n : Nat} {e : Stop}
    (h : fs.searchVar source name n = .error e) : e ≠ .unreachable := by
  induction n with
  | zero => cases h
  | succ n ih =>
      rw [searchVar] at h
      split at h
      · cases h
        decide
      · split at h
        · cases h
        · exact ih h

/-! ## Discharging expressions -/

def IsValue : ExpDesc → Prop
  | .void => False
  | _ => True

-- what `dischargevars` makes of a description
def Discharged : ExpDesc → Prop
  | .localRegister _ | .upvalueIndex _ | .global _ | .indexed _ _ | .call _ | .vararg _ => False
  | _ => True

theorem setoneret_gives (e : ExpDesc) : Gives (fun d => IsValue e → IsValue d) (setoneret e) := by
  cases e with
  | call index => exact (getcode_clean index).bind fun _ => Yields.pure fun _ => trivial
  | vararg index => exact (patch_clean index _).bind fun _ => Yields.pure fun _ => trivial
  | _ => exact Yields.pure id

theorem dischargevars_gives (e : ExpDesc) :
    Gives (fun d => Discharged d ∧ (IsValue e → IsValue d)) (dischargevars e) := by
  cases e with
  | upvalueIndex i => exact Yields.throw (by decide)
  | global k => exact (emitABx_clean _ _ _).bind fun _ => Yields.pure ⟨trivial, fun _ => trivial⟩
  | indexed table key =>
      refine (freereg_clean key).bind fun _ => ?_
      refine (freereg_clean table).bind fun _ => ?_
      exact (emitABC_clean _ _ _ _).bind fun _ => Yields.pure ⟨trivial, fun _ => trivial⟩
  | call index => exact (getcode_clean index).bind fun _ => Yields.pure ⟨trivial, fun _ => trivial⟩
  | vararg index => exact (patch_clean index _).bind fun _ => Yields.pure ⟨trivial, fun _ => trivial⟩
  | localRegister r => exact Yields.pure ⟨trivial, fun _ => trivial⟩
  | _ => exact Yields.pure ⟨trivial, id⟩

theorem discharge2reg_clean (e : ExpDesc) (reg : Nat) : Clean (discharge2reg e reg) := by
  refine Yields.bind (dischargevars_gives e) fun d given => ?_
  obtain ⟨discharged, -⟩ := given
  cases d with
  | nil => exact (emitNil_clean _ _).bind fun _ => Clean.pure _
  | false => exact (emitABC_clean _ _ _ _).bind fun _ => Clean.pure _
  | true => exact (emitABC_clean _ _ _ _).bind fun _ => Clean.pure _
  | constantIndex k => exact (emitABx_clean _ _ _).bind fun _ => Clean.pure _
  | number n => exact (putConstant_clean _).bind fun _ => (emitABx_clean _ _ _).bind fun _ => Clean.pure _
  | relocable index =>
      refine (getcode_clean index).bind fun i => ?_
      split
      · exact (patch_clean _ _).bind fun _ => Clean.pure _
      · exact Yields.throw (by decide)
  | nonreloc r =>
      dsimp only
      split
      · exact Clean.pure _
      · exact (emitABC_clean _ _ _ _).bind fun _ => Clean.pure _
  | void => exact Clean.pure _
  | jmp index => exact Clean.pure _
  | _ => exact discharged.elim

-- a value in a register
theorem exp2reg_gives (e : ExpDesc) (reg : Nat) : Gives (fun d => d = .nonreloc reg) (exp2reg e reg) := by
  refine (discharge2reg_clean e reg).bind fun d => ?_
  split
  · exact Yields.throw (by decide)
  · exact Yields.pure rfl

theorem exp2nextreg_gives (e : ExpDesc) : Gives (fun d => ∃ r, d.2 = .nonreloc r) (exp2nextreg e) := by
  refine (dischargevars_gives e).clean.bind fun d => ?_
  refine (freeexp_clean d).bind fun _ => ?_
  refine (reserveregs_clean 1).bind fun _ => ?_
  refine Clean.bind Yields.get fun fs => ?_
  exact (exp2reg_gives d _).bind fun d same => Yields.pure ⟨_, same⟩

theorem exp2anyreg_clean (e : ExpDesc) : Clean (exp2anyreg e) := by
  refine (dischargevars_gives e).clean.bind fun d => ?_
  split
  · exact Clean.pure _
  · exact (exp2nextreg_gives d).clean

theorem discharge2anyreg_clean (e : ExpDesc) : Clean (discharge2anyreg e) := by
  unfold discharge2anyreg
  split
  · exact Clean.pure _
  · refine (reserveregs_clean 1).bind fun _ => ?_
    exact Clean.bind Yields.get fun fs => discharge2reg_clean e _

theorem exp2RK_clean (e : ExpDesc) : Clean (exp2RK e) := by
  refine (dischargevars_gives e).clean.bind fun d => ?_
  refine Clean.bind Yields.get fun fs => ?_
  split
  · split
    · exact (putConstant_clean _).bind fun _ => Clean.pure _
    · exact exp2anyreg_clean _
  · split
    · exact Clean.pure _
    · exact exp2anyreg_clean _
  · exact exp2anyreg_clean _

theorem indexed_gives (table key : ExpDesc) : Gives (fun d => ∃ r rk, d = .indexed r rk) (indexed table key) := by
  refine (exp2RK_clean key).bind fun rk => ?_
  dsimp only
  split
  · exact Yields.pure ⟨_, _, rfl⟩
  · exact Yields.throw (by decide)

theorem handleSelf_gives (e key : ExpDesc) : Gives IsValue (handleSelf e key) := by
  refine (exp2anyreg_clean e).bind fun d => ?_
  refine (freeexp_clean _).bind fun _ => ?_
  refine Clean.bind Yields.get fun fs => ?_
  refine (reserveregs_clean 2).bind fun _ => ?_
  split
  · refine (exp2RK_clean key).bind fun rk => ?_
    refine (emitABC_clean _ _ _ _).bind fun _ => ?_
    exact (freeexp_clean _).bind fun _ => Yields.pure trivial
  · exact Yields.throw (by decide)

-- the variables that a value can be stored in
def Storable : ExpDesc → Prop
  | .localRegister _ | .global _ | .upvalueIndex _ | .indexed _ _ => True
  | _ => False

theorem storevar_clean {var : ExpDesc} (storable : Storable var) (e : ExpDesc) : Clean (storevar var e) := by
  cases var with
  | localRegister r => exact (freeexp_clean e).bind fun _ => (exp2reg_gives e r).clean
  | global k =>
      refine (exp2anyreg_clean e).bind fun d => ?_
      refine (emitABx_clean _ _ _).bind fun _ => ?_
      exact (freeexp_clean _).bind fun _ => Clean.pure _
  | upvalueIndex i => exact Yields.throw (by decide)
  | indexed table key => exact Yields.throw (by decide)
  | _ => exact storable.elim

/-! ## Operators -/

theorem codenot_gives {e : ExpDesc} (value : IsValue e) : Gives IsValue (codenot e) := by
  refine Yields.bind (dischargevars_gives e) fun d given => ?_
  obtain ⟨discharged, some⟩ := given
  cases d with
  | nil => exact Yields.pure trivial
  | false => exact Yields.pure trivial
  | true => exact Yields.pure trivial
  | constantIndex k => exact Yields.pure trivial
  | number n => exact Yields.pure trivial
  | jmp index => exact Yields.throw (by decide)
  | relocable _ | nonreloc _ =>
      refine (discharge2anyreg_clean _).bind fun d => ?_
      refine (freeexp_clean d).bind fun _ => ?_
      split
      · exact (emitABC_clean _ _ _ _).bind fun _ => Yields.pure trivial
      · exact Yields.throw (by decide)
  | void => exact (some value).elim
  | _ => exact discharged.elim

section
variable (A : F64.Arithmetic)

-- the operators that `constfolding` may be asked about
def foldable : List OpCode := [.add, .sub, .mul, .div, .mod, .pow, .unm, .len]

theorem constfolding_clean {op : OpCode} (known : op ∈ foldable) (e1 : ExpDesc) (e2 : Option ExpDesc) :
    Clean (constfolding A op e1 e2) := by
  have folds (v1 v2 : F64) : Clean (fold A op v1 v2) := by
    fin_cases known <;> exact Clean.pure _
  unfold constfolding
  split
  · exact folds _ _
  · exact folds _ _
  · exact Clean.pure _

theorem codearith_gives (op : OpCode) (e1 : ExpDesc) (e2 : Option ExpDesc) (folds : Clean (constfolding A op e1 e2)) :
    Gives IsValue (codearith A op e1 e2) := by
  refine folds.bind fun folded => ?_
  split
  · exact Yields.pure trivial
  · refine (exp2RK_clean e1).bind fun o => ?_
    refine (freeexp_clean _).bind fun _ => ?_
    exact (emitABC_clean _ _ _ _).bind fun _ => Yields.pure trivial
  · refine (exp2RK_clean _).bind fun o2 => ?_
    refine (exp2RK_clean e1).bind fun o1 => ?_
    have frees : Clean (freeBoth o1.1 o2.1 o1.2 o2.2) := by
      unfold freeBoth
      split
      · exact (freeexp_clean _).bind fun _ => freeexp_clean _
      · exact (freeexp_clean _).bind fun _ => freeexp_clean _
    refine frees.bind fun _ => ?_
    exact (emitABC_clean _ _ _ _).bind fun _ => Yields.pure trivial

theorem unaryOperator_gives {op : Token} (isUnary : isUnaryOperator op = true) {e : ExpDesc} (value : IsValue e) :
    Gives IsValue (unaryOperator A op e) := by
  unfold unaryOperator
  split
  · exact codenot_gives value
  split
  · split
    · exact codearith_gives A _ _ _ (constfolding_clean A (by decide) _ _)
    · refine (exp2anyreg_clean e).bind fun d => ?_
      exact codearith_gives A _ _ _ (constfolding_clean A (by decide) _ _)
  split
  · refine (exp2anyreg_clean e).bind fun d => ?_
    exact codearith_gives A _ _ _ (constfolding_clean A (by decide) _ _)
  · rename_i notNot notMinus notLength
    unfold isUnaryOperator at isUnary
    cases id : op.id <;> simp_all [Token.isChar]

theorem leftOperand_clean (op : Token) (e : ExpDesc) : Clean (leftOperand op e) := by
  unfold leftOperand
  split
  · exact Yields.throw (by decide)
  split
  · split
    · exact Clean.pure _
    · exact (exp2RK_clean e).bind fun _ => Clean.pure _
  split
  · refine (exp2nextreg_gives e).clean.bind fun d => ?_
    exact (exp2RK_clean _).bind fun _ => Clean.pure _
  · exact (exp2RK_clean e).bind fun _ => Clean.pure _

theorem codeconcat_gives (e1 e2 : ExpDesc) : Gives IsValue (codeconcat A e1 e2) := by
  refine (dischargevars_gives e2).clean.bind fun d2 => ?_
  have looks : Clean (concatOperand d2) := by
    unfold concatOperand
    split
    · exact (getcode_clean _).bind fun _ => Clean.pure _
    · exact Clean.pure _
  refine looks.bind fun operand => ?_
  split
  · split
    · refine (freereg_clean _).bind fun _ => ?_
      exact (patch_clean _ _).bind fun _ => Yields.pure trivial
    · exact Yields.throw (by decide)
  · exact Yields.throw (by decide)
  · refine (exp2nextreg_gives d2).bind fun d known => ?_
    -- the right operand is in a register, so that nothing is folded
    obtain ⟨r, same⟩ := known
    refine codearith_gives A _ _ _ ?_
    rw [same]
    cases e1 <;> exact Clean.pure _

theorem comparison_gives (op : OpCode) (invert : Bool) (e1 e2 : ExpDesc) :
    Gives IsValue (comparison op invert e1 e2) := by
  refine (exp2RK_clean e1).bind fun _ => ?_
  refine (exp2RK_clean e2).bind fun _ => ?_
  exact (emitABC_clean _ _ _ _).bind fun _ => Yields.pure trivial

theorem arithmeticOp_foldable {op : Token} {code : OpCode} (found : arithmeticOp op = some code) : code ∈ foldable := by
  unfold arithmeticOp at found
  split at found
  · obtain ⟨c, -, found⟩ := Option.bind_eq_some_iff.mp found
    have member : (c, code) ∈ arithmeticOps := by
      obtain ⟨before, behind, same, -⟩ := List.lookup_eq_some_iff.mp found
      rw [same]
      exact List.mem_append_right _ List.mem_cons_self
    fin_cases member <;> decide
  · cases found

-- what is no comparison, no `and`, no `or` and no concatenation
theorem arithmeticOp_remaining {op : Token} (isBinary : isBinaryOperator op = true) (none : arithmeticOp op = none)
    (char : op.id = .singleChar) : op.isChar (ch '>') = true ∨ op.isChar (ch '<') = true := by
  unfold isBinaryOperator at isBinary
  unfold arithmeticOp at none
  rw [char] at isBinary
  rw [if_pos char] at none
  obtain ⟨c, same, listed⟩ := (Option.any_eq_true _ _).mp isBinary
  rw [same] at none
  unfold Token.isChar
  rw [char, same]
  have member : c ∈ binaryChars := List.contains_iff_mem.mp listed
  fin_cases member <;> first
    | exact .inl rfl
    | exact .inr rfl
    | cases none

theorem binaryOperator_gives {op : Token} (isBinary : isBinaryOperator op = true) (e1 e2 : ExpDesc) :
    Gives IsValue (binaryOperator A op e1 e2) := by
  unfold binaryOperator
  split
  · exact Yields.throw (by decide)
  split
  · exact codeconcat_gives A e1 e2
  split
  · exact comparison_gives _ _ _ _
  split
  · exact comparison_gives _ _ _ _
  split
  · exact comparison_gives _ _ _ _
  split
  · exact comparison_gives _ _ _ _
  split
  · rename_i code found
    exact codearith_gives A _ _ _ (constfolding_clean A (arithmeticOp_foldable found) _ _)
  rename_i notLogic notConcat notEq notNe notLe notGe _ none
  have char : op.id = .singleChar := by
    unfold isBinaryOperator at isBinary
    cases id : op.id <;> simp_all
  rcases arithmeticOp_remaining isBinary none char with greater | less
  · rw [if_pos greater]
    exact comparison_gives _ _ _ _
  · split
    · exact comparison_gives _ _ _ _
    · exact comparison_gives _ _ _ _

end

/-! ## Lists of values -/

theorem setreturns_clean (e : ExpDesc) (num : Option Nat) : Clean (setreturns e num) := by
  unfold setreturns
  split
  · exact Yields.throw (by decide)
  split
  · exact patch_clean _ _
  · refine Clean.bind Yields.get fun fs => ?_
    exact (patch_clean _ _).bind fun _ => reserveregs_clean 1
  · exact Clean.pure _

theorem exp2nextregUnlessVoid_clean (e : ExpDesc) : Clean (exp2nextregUnlessVoid e) := by
  cases e with
  | void => exact Clean.pure _
  | _ => exact (exp2nextreg_gives _).clean.bind fun _ => Clean.pure _

theorem adjustAssign_clean (numVars numValues : Nat) (e : ExpDesc) : Clean (adjustAssign numVars numValues e) := by
  unfold adjustAssign
  split
  · refine (setreturns_clean e _).bind fun _ => ?_
    have more (extra : Nat) : Clean (reserveMore extra) := by
      unfold reserveMore
      split
      · exact reserveregs_clean _
      · exact Clean.pure _
    exact (more _).bind fun _ => Clean.pure _
  · refine (exp2nextregUnlessVoid_clean e).bind fun _ => ?_
    have fills (n : Nat) : Clean (fillNil n) := by
      unfold fillNil
      split
      · exact Clean.pure _
      · refine Clean.bind Yields.get fun fs => ?_
        exact (reserveregs_clean n).bind fun _ => emitNil_clean _ _
    exact (fills _).bind fun _ => Clean.pure _

theorem setlist_clean (base numValues : Nat) (toStore : Option Nat) : Clean (setlist base numValues toStore) := by
  have emits : Clean (emitSetlist base (numValuesToFlushBatchNum numValues) (toStore.getD 0)) := by
    unfold emitSetlist
    split
    · exact emitABC_clean _ _ _ _
    · exact (emitABC_clean _ _ _ _).bind fun _ => emitWord_clean _
  exact emits.bind fun _ => Yields.modify _

end Func

/-! ## The parts of the generators -/

open Func (IsValue Storable)

theorem gives_onFunc {P : α → Prop} {x : FuncM α} (gives : Gives P x) : Gives P (onFunc x) :=
  fun c => sat_onFunc (gives c.func)

theorem getFunc_clean : Clean getFunc := gives_onFunc Yields.get

theorem setExp_clean (e : ExpDesc) : Clean (setExp e) := gives_onFunc (Yields.modify _)

theorem onExp_clean {f : ExpDesc → FuncM ExpDesc} (clean : ∀ e, Clean (f e)) : Clean (onExp f) :=
  getFunc_clean.bind fun _ => Clean.bind (gives_onFunc (clean _)) fun _ => setExp_clean _

theorem onExpReg_clean {f : ExpDesc → FuncM (Nat × ExpDesc)} (clean : ∀ e, Clean (f e)) : Clean (onExpReg f) :=
  getFunc_clean.bind fun _ => Clean.bind (gives_onFunc (clean _)) fun _ => (setExp_clean _).bind fun _ => Clean.pure _

theorem nextReg_clean : Clean nextReg := onExpReg_clean fun e => (Func.exp2nextreg_gives e).clean

-- what the current expression is afterwards
def Sets (P : ExpDesc → Prop) (x : CompileM α) : Prop :=
  ∀ c, Sat (fun e => e ≠ .unreachable) x c fun _ c' => P c'.func.curExp

namespace Sets

variable {P Q : ExpDesc → Prop}

theorem clean {x : CompileM α} (sets : Sets P x) : Clean x := fun c => (sets c).mono fun _ _ _ => trivial

theorem mono {x : CompileM α} (sets : Sets P x) (weaker : ∀ e, P e → Q e) : Sets Q x :=
  fun c => (sets c).mono fun _ _ => weaker _

theorem after {x : CompileM α} {f : α → CompileM β} {R : α → Prop} (first : Gives R x) (rest : ∀ a, R a → Sets P (f a)) :
    Sets P (x >>= f) := by
  intro c
  exact Sat.bind ((first c).mono fun a c' h => rest a h c')

theorem throw {e : Stop} (other : e ≠ .unreachable) : Sets P (MonadExcept.throw e : CompileM α) :=
  fun _ => Sat.throw other

theorem setExp {e : ExpDesc} (h : P e) : Sets P (setExp e) := fun _ => h

theorem onExp {f : ExpDesc → FuncM ExpDesc} (gives : ∀ e, Gives P (f e)) : Sets P (onExp f) := by
  refine after getFunc_clean fun fs _ => ?_
  exact after (gives_onFunc (gives _)) fun e h => setExp h

-- the current expression goes on to be known
theorem thenExp {x : CompileM α} {f : ExpDesc → FuncM ExpDesc} (sets : Sets Q x) (gives : ∀ e, Q e → Gives P (f e)) :
    Sets P (x >>= fun _ => Compile.onExp f) := by
  intro c
  refine Sat.bind ((sets c).mono fun _ c' h => ?_)
  refine Sat.bind (sat_onFunc (Sat.get ?_))
  exact after (gives_onFunc (gives _ h)) (fun e h => setExp h) _

end Sets

theorem nextReg_sets : Sets IsValue nextReg := by
  refine Sets.after getFunc_clean fun fs _ => ?_
  refine Sets.after (gives_onFunc (Func.exp2nextreg_gives _)) fun e register => ?_
  obtain ⟨r, same⟩ := register
  intro c
  refine Sat.bind (sat_onFunc (Sat.modify ?_))
  refine Sat.pure ?_
  rw [same]
  trivial

section
variable (env : Env)

theorem genName_clean (token : Token) : Clean (genName env token) := gives_onFunc (Func.putConstant_clean _)

theorem genLiteral_sets {token : Token} (known : isLiteral token.id = true ∨ token.id = .name) :
    Sets IsValue (genLiteral env token) := by
  unfold genLiteral
  split
  · split
    · exact Sets.after (gives_onFunc (Func.putConstant_clean _)) fun _ _ => Sets.setExp trivial
    · exact Sets.throw (by decide)
  · split
    · exact Sets.setExp trivial
    · exact Sets.throw (by decide)
  · exact Sets.setExp trivial
  · exact Sets.setExp trivial
  · exact Sets.setExp trivial
  · exact Sets.after (gives_onFunc (Func.emitABC_clean _ _ _ _)) fun _ _ => Sets.setExp trivial
  · exact Sets.after (genName_clean env token) fun _ _ => Sets.setExp trivial
  · rename_i noString noNumber noTrue noFalse noNil noEllipsis noName
    rcases known with literal | name
    · unfold isLiteral at literal
      cases id : token.id <;> simp_all
    · exact absurd name noName

theorem genIdentifier_sets (token : Token) : Sets (fun e => IsValue e ∧ Storable e) (genIdentifier env token) := by
  have search : Clean (Func.findLocalVarByToken env.source token) := by
    refine Clean.bind Yields.get fun fs => fun fs' => ?_
    unfold Sat
    have step : (liftM (fs.searchVar env.source (token.slice env.source) fs.numActiveLocalVars) :
        FuncM (Option Nat)) fs' = (fs.searchVar env.source (token.slice env.source) fs.numActiveLocalVars).bind
          fun a => .ok (a, fs') := rfl
    rw [step]
    cases found : fs.searchVar env.source (token.slice env.source) fs.numActiveLocalVars with
    | error e => exact Func.searchVar_error found
    | ok index => trivial
  refine Sets.after (gives_onFunc search) fun found _ => ?_
  refine Sets.after (Yields.modify _) fun _ _ => ?_
  split
  · exact Sets.setExp ⟨trivial, trivial⟩
  · exact Sets.after (genName_clean env token) fun _ _ => Sets.setExp ⟨trivial, trivial⟩

theorem genField_sets (field separator : Token) :
    Sets (fun e => IsValue e ∧ (separator.isChar (ch ':') = false → Storable e)) (genField env field separator) := by
  unfold genField
  split
  · rename_i colon
    refine Sets.after (genName_clean env field) fun k _ => Sets.onExp fun e => ?_
    refine (Func.handleSelf_gives e _).mono fun d some => ⟨some, fun other => ?_⟩
    rw [colon] at other
    cases other
  · refine Sets.after (onExpReg_clean Func.exp2anyreg_clean) fun _ _ => ?_
    refine Sets.after (genName_clean env field) fun k _ => Sets.onExp fun e => ?_
    refine (Func.indexed_gives e _).mono ?_
    rintro _ ⟨r, rk, rfl⟩
    exact ⟨trivial, fun _ => trivial⟩

theorem genCallInstruction_sets (base : Nat) (isStatement : Bool) :
    Sets IsValue (genCallInstruction base isStatement) := by
  refine Sets.after getFunc_clean fun fs _ => ?_
  split
  · exact Sets.throw (by decide)
  · refine Sets.after (gives_onFunc (Func.emitABC_clean _ _ _ _)) fun index _ => ?_
    exact fun c => Sat.bind (sat_onFunc (Sat.modify (sat_onFunc (Sat.modify trivial))))

theorem calledRegister_clean : Clean calledRegister := by
  refine getFunc_clean.bind fun fs => ?_
  split
  · exact Clean.pure _
  · exact Yields.throw (by decide)

theorem declareLocals_clean (names : List Token) (index : Nat) : Clean (declareLocals names index) := by
  induction names generalizing index with
  | nil => exact Clean.pure _
  | cons name names ih => exact Clean.bind (gives_onFunc (Func.newLocalvar_clean name index)) fun _ => ih (index + 1)

theorem localNames_clean {targets : List Node} (names : ∀ target ∈ targets, ∃ token, target = .identifier token) :
    Clean (targets.mapM fun target => (localName target : CompileM Token)) := by
  induction targets with
  | nil => exact Clean.pure _
  | cons target targets ih =>
      rw [List.mapM_cons]
      obtain ⟨token, rfl⟩ := names target List.mem_cons_self
      have rest := ih fun target member => names target (List.mem_cons_of_mem _ member)
      exact Clean.bind (fun _ => trivial) fun _ => rest.bind fun _ => Clean.pure _

theorem storeFrom_clean {targets : List ExpDesc} (storable : ∀ e ∈ targets, Storable e) (n : Nat) :
    Clean (storeFrom targets n) := by
  induction n with
  | zero => exact Clean.pure _
  | succ n ih =>
      refine getFunc_clean.bind fun fs => ?_
      split
      · exact Yields.throw (by decide)
      split
      · exact Yields.throw (by decide)
      · rename_i target found
        refine Clean.bind (gives_onFunc (Func.storevar_clean (storable target ?_) _)) fun e => ?_
        · exact List.mem_of_getElem? found
        · exact (setExp_clean e).bind fun _ => ih

theorem genStores_clean {targets : List ExpDesc} (storable : ∀ e ∈ targets, Storable e) (numValues : Nat) :
    Clean (genStores targets numValues) := by
  have drops (n : Nat) : Clean (dropRegisters n) := by
    refine getFunc_clean.bind fun fs => ?_
    split
    · exact Yields.throw (by decide)
    · exact gives_onFunc (Yields.modify _)
  unfold genStores
  dsimp only
  split
  · exact Yields.throw (by decide)
  split
  · refine (onExp_clean (Func.adjustAssign_clean _ _)).bind fun _ => ?_
    exact (drops _).bind fun _ => storeFrom_clean storable _
  split
  · exact Yields.throw (by decide)
  · rename_i target found
    refine (onExp_clean fun e => (Func.setoneret_gives e).clean).bind fun _ => ?_
    refine (onExp_clean (Func.storevar_clean (storable target (List.mem_of_getLast? found)))).bind fun _ => ?_
    exact storeFrom_clean storable _

theorem genReturnValues_clean (numValues : Nat) : Clean (genReturnValues numValues) := by
  have returns (first : Nat) (num : Option Nat) : Clean (do
      let _ ← onFunc (Func.emitReturn first num) : CompileM Unit) :=
    Clean.bind (gives_onFunc (Func.emitABC_clean _ _ _ _)) fun _ => Clean.pure _
  refine getFunc_clean.bind fun fs => ?_
  split
  · refine Clean.bind (gives_onFunc (Func.setreturns_clean _ _)) fun _ => ?_
    split
    · split
      · refine Clean.bind (gives_onFunc (Func.patch_clean _ _)) fun _ => ?_
        refine Clean.bind (gives_onFunc (Func.getcode_clean _)) fun i => ?_
        split
        · exact returns _ _
        · exact Yields.throw (by decide)
      · exact returns _ _
    · exact returns _ _
  split
  · exact (onExpReg_clean Func.exp2anyreg_clean).bind fun _ => returns _ _
  · refine nextReg_clean.bind fun _ => ?_
    refine getFunc_clean.bind fun fs => ?_
    split
    · exact returns _ _
    · exact Yields.throw (by decide)

theorem patchHere_clean (index : Nat) : Clean (patchHere index) := by
  refine getFunc_clean.bind fun fs => ?_
  split
  · exact Yields.throw (by decide)
  · exact gives_onFunc (Func.patch_clean _ _)

theorem patchAll_clean (jumps : List Nat) : Clean (patchAll jumps) := by
  induction jumps with
  | nil => exact Clean.pure _
  | cons index rest ih => exact (patchHere_clean index).bind fun _ => ih

theorem genTest_clean : Clean genTest := by
  refine nextReg_clean.bind fun _ => ?_
  refine Clean.bind (gives_onFunc (Func.emitABC_clean _ _ _ _)) fun _ => ?_
  exact gives_onFunc (Func.emitWord_clean _)

theorem jumpBack_clean (start : Nat) : Clean (jumpBack start) := by
  refine getFunc_clean.bind fun fs => ?_
  split
  · exact Yields.throw (by decide)
  split
  · exact Yields.throw (by decide)
  · exact Clean.bind (gives_onFunc (Func.emitWord_clean _)) fun _ => Clean.pure _

theorem enterLoop_clean : Clean enterLoop :=
  Clean.bind Yields.get fun _ => Clean.bind (Yields.set _) fun _ => Clean.pure _

theorem leaveLoop_clean (outer : Option (List Nat)) : Clean (leaveLoop outer) :=
  Clean.bind Yields.get fun _ => Clean.bind (Yields.set _) fun _ => Clean.pure _

theorem genBreak_clean : Clean genBreak := by
  refine Clean.bind Yields.get fun c => ?_
  split
  · exact Yields.throw (by decide)
  · exact Clean.bind (gives_onFunc (Func.emitWord_clean _)) fun _ => Yields.modify _

theorem declareLoopVars_clean (register : Nat) (names : List Token) (index : Nat) :
    Clean (declareLoopVars register names index) := by
  induction names generalizing index with
  | nil => exact Clean.pure _
  | cons name names ih =>
      refine Clean.bind (gives_onFunc (Func.newLocalvar_clean name index)) fun _ => ?_
      exact Clean.bind (gives_onFunc (Yields.modify _)) fun _ => ih (index + 1)

theorem leaveFor_clean (baseReg numVars : Nat) (breaks : List Nat) : Clean (leaveFor baseReg numVars breaks) := by
  refine Clean.bind (gives_onFunc (Yields.modify _)) fun _ => ?_
  exact (patchAll_clean breaks).bind fun _ => gives_onFunc (Yields.modify _)

theorem flushField_clean (tableReg : Nat) (st : FieldState) : Clean (flushField tableReg st) := by
  unfold flushField
  split
  · exact Clean.pure _
  · refine Clean.bind (gives_onFunc (Func.exp2nextreg_gives _).clean) fun _ => ?_
    split
    · exact Clean.bind (gives_onFunc (Func.setlist_clean _ _ _)) fun _ => Clean.pure _
    · exact Clean.pure _

theorem flushLast_clean (tableReg : Nat) (st : FieldState) : Clean (flushLast tableReg st) := by
  unfold flushLast
  split
  · exact Clean.pure _
  split
  · refine Clean.bind (gives_onFunc (Func.setreturns_clean _ _)) fun _ => ?_
    exact Clean.bind (gives_onFunc (Func.setlist_clean _ _ _)) fun _ => Clean.pure _
  · refine Clean.bind (gives_onFunc (Func.exp2nextregUnlessVoid_clean _)) fun _ => ?_
    exact Clean.bind (gives_onFunc (Func.setlist_clean _ _ _)) fun _ => Clean.pure _

theorem storeField_clean (tableReg freeReg keyRk : Nat) : Clean (storeField tableReg freeReg keyRk) := by
  refine (onExpReg_clean Func.exp2RK_clean).bind fun valRk => ?_
  refine Clean.bind (gives_onFunc (Func.emitABC_clean _ _ _ _)) fun _ => ?_
  exact gives_onFunc (Yields.modify _)

theorem genClosure_clean (name : Option Node) (isLocal : Bool) : Clean (genClosure env name isLocal) := by
  have closure (fs : Func) : Clean (onFunc (Func.emitABx .closure fs.freeRegister 0)) :=
    gives_onFunc (Func.emitABx_clean _ _ _)
  refine getFunc_clean.bind fun fs => ?_
  split
  · refine (closure fs).bind fun _ => ?_
    exact (setExp_clean _).bind fun _ => gives_onFunc (Func.reserveregs_clean 1)
  split
  · have reserved : Clean (do
        let _ ← onFunc (Func.emitABx .closure fs.freeRegister 0)
        onFunc (Func.reserveregs 1)
        onFunc (Func.adjustlocalvars 1)) := by
      refine (closure fs).bind fun _ => ?_
      exact Clean.bind (gives_onFunc (Func.reserveregs_clean 1)) fun _ => gives_onFunc (Yields.modify _)
    split
    · exact Clean.bind (gives_onFunc (Func.newLocalvar_clean _ 0)) fun _ => reserved
    · exact reserved
  · refine (closure fs).bind fun _ => ?_
    refine Clean.bind (gives_onFunc (Func.reserveregs_clean 1)) fun _ => ?_
    split
    · refine (genName_clean env _).bind fun _ => (setExp_clean _).bind fun _ => ?_
      exact Clean.bind (gives_onFunc (Func.emitABx_clean _ _ _)) fun _ => Clean.pure _
    · exact Clean.pure _

end

/-! ## The current expression stays -/

def SameExp (fs fs' : Func) : Prop := fs'.curExp = fs.curExp

theorem sameExp_steps : Steps SameExp where
  reflexive := ⟨fun _ => rfl, fun first second => Eq.trans second first⟩
  emit _ _ := rfl
  patch _ _ _ := rfl
  registers _ _ _ := rfl
  constants _ _ := rfl

-- an operation that does not set the current expression
theorem Sets.keep {P : ExpDesc → Prop} {x : FuncM α} (clean : Clean x) (same : Keeps SameExp x) {c : Compiler}
    (h : P c.func.curExp) : Sat (fun e => e ≠ .unreachable) (onFunc x) c fun _ c' => P c'.func.curExp := by
  refine sat_onFunc ?_
  have both := (clean c.func)
  have kept := same c.func
  unfold Sat at both kept ⊢
  cases run : x c.func with
  | error e =>
      rw [run] at both
      exact both
  | ok result =>
      rw [run] at kept
      have stays : result.2.curExp = c.func.curExp := kept
      dsimp only
      rwa [stays]

theorem flushLast_keeps {P : ExpDesc → Prop} (tableReg : Nat) (st : FieldState) {c : Compiler}
    (h : P c.func.curExp) :
    Sat (fun e => e ≠ .unreachable) (flushLast tableReg st) c fun _ c' => P c'.func.curExp := by
  unfold flushLast
  split
  · exact Sat.pure h
  split
  · refine Sat.bind ((Sets.keep (Func.setreturns_clean _ _) (Func.setreturns_keeps sameExp_steps _ _) h).mono ?_)
    intro _ c' h
    refine Sat.bind ((Sets.keep (Func.setlist_clean _ _ _) (Func.setlist_keeps sameExp_steps _ _ _) h).mono ?_)
    exact fun _ _ h => Sat.pure h
  · refine Sat.bind ((Sets.keep (Func.exp2nextregUnlessVoid_clean _)
      (Func.exp2nextregUnlessVoid_keeps sameExp_steps _) h).mono ?_)
    intro _ c' h
    refine Sat.bind ((Sets.keep (Func.setlist_clean _ _ _) (Func.setlist_keeps sameExp_steps _ _ _) h).mono ?_)
    exact fun _ _ h => Sat.pure h

/-! ## Lists of nodes -/

section
variable {env : Env}

theorem genBody_clean {nodes : List Node} (all : ∀ node ∈ nodes, Clean (genNode env node)) :
    Clean (genBody env nodes) := by
  induction nodes with
  | nil =>
      rw [genBody]
      exact Clean.pure _
  | cons node rest ih =>
      rw [genBody]
      refine (all node List.mem_cons_self).bind fun _ => ?_
      exact ih fun node member => all node (List.mem_cons_of_mem _ member)

theorem genArguments_clean {nodes : List Node} (all : ∀ node ∈ nodes, Clean (genNode env node)) :
    Clean (genArguments env nodes) := by
  induction nodes with
  | nil =>
      rw [genArguments]
      exact Clean.pure _
  | cons node rest ih =>
      rw [genArguments]
      refine (all node List.mem_cons_self).bind fun _ => nextReg_clean.bind fun _ => ?_
      exact ih fun node member => all node (List.mem_cons_of_mem _ member)

theorem genExpList1_clean {nodes : List Node} (all : ∀ node ∈ nodes, Clean (genNode env node)) :
    Clean (genExpList1 env nodes) := by
  induction nodes with
  | nil =>
      rw [genExpList1]
      exact Clean.pure _
  | cons node rest ih =>
      rw [genExpList1]
      refine (all node List.mem_cons_self).bind fun _ => ?_
      split
      · exact Clean.pure _
      · refine nextReg_clean.bind fun _ => ?_
        exact ih fun node member => all node (List.mem_cons_of_mem _ member)

theorem genTargets_gives {nodes : List Node} (all : ∀ node ∈ nodes, Sets Storable (genNode env node)) :
    Gives (fun exps => ∀ e ∈ exps, Storable e) (genTargets env nodes) := by
  induction nodes with
  | nil =>
      rw [genTargets]
      exact Yields.pure fun _ member => (List.not_mem_nil member).elim
  | cons node rest ih =>
      rw [genTargets]
      have others := ih fun node member => all node (List.mem_cons_of_mem _ member)
      intro c
      refine Sat.bind ((all node List.mem_cons_self c).mono fun _ c' storable => ?_)
      refine Sat.bind (sat_onFunc (Sat.get ?_))
      refine Yields.bind others (fun exps known => Yields.pure ?_) _
      intro e member
      rcases List.mem_cons.mp member with rfl | member
      · exact storable
      · exact known e member

theorem genIncrement_clean {increment : Option Node} (given : ∀ e, increment = some e → Clean (genNode env e)) :
    Clean (genIncrement env increment) := by
  cases increment with
  | none =>
      rw [genIncrement]
      exact setExp_clean _
  | some e =>
      rw [genIncrement]
      exact given e rfl

theorem genFields_keeps {P : ExpDesc → Prop} (tableReg : Nat) {fields : List Node}
    (all : ∀ field ∈ fields, Clean (genTableField env field)) (st : FieldState) {c : Compiler} (h : P c.func.curExp) :
    Sat (fun e => e ≠ .unreachable) (genFields env tableReg fields st) c fun _ c' => P c'.func.curExp := by
  induction fields generalizing st c with
  | nil =>
      rw [genFields]
      exact Sat.pure h
  | cons field rest ih =>
      rw [genFields]
      refine Sat.bind (sat_onFunc (Sat.get ?_))
      refine Sat.bind ((flushField_clean tableReg st c).mono fun st c' _ => ?_)
      refine Sat.bind ((all field List.mem_cons_self c').mono fun positional c' _ => ?_)
      refine Sat.bind (sat_onFunc (Sat.get ?_))
      refine Sat.bind (sat_onFunc (Sat.modify ?_))
      exact ih (fun field member => all field (List.mem_cons_of_mem _ member)) _ h

theorem genClauses_clean {clauses : List Node} (all : ∀ clause ∈ clauses, ∀ last, Clean (genClause env last clause))
    (escapes : List Nat) : Clean (genClauses env clauses escapes) := by
  induction clauses generalizing escapes with
  | nil =>
      rw [genClauses]
      exact Clean.pure _
  | cons clause rest ih =>
      rw [genClauses]
      refine (all clause List.mem_cons_self _).bind fun escape => ?_
      exact ih (fun clause member => all clause (List.mem_cons_of_mem _ member)) _

theorem genStatements_clean {nodes : List Node} (all : ∀ node ∈ nodes, Clean (genNode env node)) :
    Clean (genStatements env nodes) := by
  induction nodes with
  | nil => exact Clean.pure _
  | cons node rest ih =>
      refine (all node List.mem_cons_self).bind fun _ => ?_
      refine getFunc_clean.bind fun fs => ?_
      split
      · refine Clean.bind (gives_onFunc (Yields.modify _)) fun _ => ?_
        exact ih fun node member => all node (List.mem_cons_of_mem _ member)
      · exact Yields.throw (by decide)

/-! ## The generators -/

theorem genCall_sets {callee : Node} {arguments : List Node} {openArgs closeArgs : Option Token} {isStatement : Bool}
    (called : Clean (genNode env callee)) (all : ∀ argument ∈ arguments, Clean (genNode env argument)) :
    Sets IsValue (genNode env (.call callee arguments openArgs closeArgs isStatement)) := by
  rw [genNode]
  refine Sets.after called fun _ _ => ?_
  have calls : Sets IsValue (do
      let base ← calledRegister
      genArguments env arguments
      genCallInstruction base isStatement) := by
    refine Sets.after calledRegister_clean fun base _ => ?_
    exact Sets.after (genArguments_clean all) fun _ _ => genCallInstruction_sets base isStatement
  split
  · exact calls
  · exact Sets.after nextReg_clean fun _ _ => calls

theorem genFunction_sets {parameters : List Token} {body : List Node} (all : ∀ stat ∈ body, Clean (genNode env stat))
    (name : Option Node) (isLocal : Bool) {P : ExpDesc → Prop}
    (closure : Sets P (genClosure env name isLocal)) :
    Sets P (genNode env (.functionDeclaration name parameters body isLocal)) := by
  rw [genNode]
  refine Sets.after Yields.get fun c _ => ?_
  refine Sets.after (Yields.set _) fun _ _ => ?_
  refine Sets.after (declareLocals_clean parameters 0) fun _ _ => ?_
  refine Sets.after (gives_onFunc (Yields.modify _)) fun _ _ => ?_
  refine Sets.after (genBody_clean all) fun _ _ => ?_
  refine Sets.after (gives_onFunc (Func.emitABC_clean _ _ _ _)) fun _ _ => ?_
  exact Sets.after (Yields.modify _) fun _ _ => closure

-- what the current expression is behind an expression
def Valued (node : Node) (e : ExpDesc) : Prop := IsValue e ∧ (assignable node = true → Storable e)

def Compiles (env : Env) : Role → Node → Prop
  | .chunk, node => Clean (genChunk env node)
  | .statement, node | .callee, node | .key, node => Clean (genNode env node)
  | .expression, node => Sets (Valued node) (genNode env node)
  | .target, node => Sets Storable (genNode env node)
  | .field, node => Clean (genTableField env node)
  | .path, _ | .functionName, _ => True
  | .clause, node | .lastClause, node => ∀ last, Clean (genClause env last node)

theorem Compiles.clean {node : Node} (compiles : Compiles env .expression node) : Clean (genNode env node) :=
  Sets.clean (P := Valued node) compiles

theorem Compiles.value {node : Node} (compiles : Compiles env .expression node) :
    Sets IsValue (genNode env node) :=
  Sets.mono (P := Valued node) compiles fun _ known => known.1

-- an expression that no value can be assigned to
theorem compiles_value {node : Node} (other : assignable node = false)
    (sets : Sets IsValue (genNode env node)) : Compiles env .expression node := by
  refine Sets.mono (Q := Valued node) sets fun _ some => ⟨some, fun can => ?_⟩
  rw [other] at can
  cases can

theorem dot_notColon {separator : Token} (dot : separator.isChar (ch '.') = true) :
    separator.isChar (ch ':') = false := by
  unfold Token.isChar at *
  rw [Bool.and_eq_true, beq_iff_eq, beq_iff_eq] at dot
  rw [dot.1, dot.2]
  rfl

theorem Shaped.compiles {role : Role} {node : Node} (shaped : Shaped role node) : Compiles env role node := by
  induction shaped with
  | chunk _ body =>
      refine (genStatements_clean body).bind fun _ => ?_
      refine Clean.bind (gives_onFunc Func.removevars_clean) fun _ => ?_
      exact Clean.bind (gives_onFunc (Func.emitABC_clean _ _ _ _)) fun _ => Clean.pure _
  | literal known =>
      refine compiles_value rfl ?_
      rw [genNode]
      exact genLiteral_sets env (.inl known)
  | identifier _ =>
      show Sets (Valued _) _
      rw [genNode]
      exact (genIdentifier_sets env _).mono fun _ known => ⟨known.1, fun _ => known.2⟩
  | fieldAccess _ dot operand =>
      show Sets (Valued _) _
      rw [genNode]
      refine Sets.after operand.clean fun _ _ => ?_
      exact (genField_sets env _ _).mono fun _ known => ⟨known.1, fun _ => known.2 (dot_notColon dot)⟩
  | indexAccess _ _ operand index =>
      show Sets (Valued _) _
      rw [genNode]
      refine Sets.after operand.clean fun _ _ => ?_
      refine Sets.after (onExpReg_clean Func.exp2anyreg_clean) fun _ _ => ?_
      refine Sets.after getFunc_clean fun fs _ => ?_
      refine Sets.after (setExp_clean _) fun _ _ => ?_
      refine Sets.after index.clean fun _ _ => ?_
      refine Sets.after (onExp_clean fun e => (Func.dischargevars_gives e).clean) fun _ _ => ?_
      refine Sets.onExp fun key => (Func.indexed_gives fs.curExp key).mono ?_
      rintro _ ⟨r, rk, rfl⟩
      exact ⟨trivial, fun _ => trivial⟩
  | call _ _ _ called arguments =>
      exact compiles_value rfl (genCall_sets called fun argument member => (arguments argument member).clean)
  | function _ body =>
      refine compiles_value rfl (genFunction_sets body none false ?_)
      refine Sets.after getFunc_clean fun fs _ => ?_
      refine Sets.after (gives_onFunc (Func.emitABx_clean _ _ _)) fun _ _ => ?_
      intro c
      refine Sat.bind (sat_onFunc (Sat.modify ?_))
      exact Sets.keep (P := IsValue) (Func.reserveregs_clean 1) (Func.reserveregs_keeps sameExp_steps 1) trivial
  | tableConstructor _ fields =>
      refine compiles_value rfl ?_
      rw [genNode]
      refine Sets.after (gives_onFunc (Func.emitABC_clean _ _ _ _)) fun index _ => ?_
      intro c
      refine Sat.bind (sat_onFunc (Sat.modify ?_))
      refine Sat.bind ((nextReg_sets _).mono fun tableReg c' value => ?_)
      refine Sat.bind ((genFields_keeps (P := IsValue) tableReg fields {} value).mono fun st c' value => ?_)
      refine Sat.bind ((flushLast_keeps (P := IsValue) tableReg st value).mono fun st c' value => ?_)
      split
      · exact Sat.pure value
      · exact Sets.keep (P := IsValue) (Func.patch_clean _ _) (Func.patch_keeps sameExp_steps _ _) value
  | unaryExpression isUnary _ argument =>
      refine compiles_value rfl ?_
      rw [genNode]
      exact Sets.thenExp argument.value fun e some => Func.unaryOperator_gives _ isUnary some
  | binaryExpression isBinary _ _ left right =>
      refine compiles_value rfl ?_
      rw [genNode]
      refine Sets.after left.clean fun _ _ => ?_
      refine Sets.after (onExp_clean (Func.leftOperand_clean _)) fun _ _ => ?_
      refine Sets.after getFunc_clean fun fs _ => ?_
      refine Sets.after right.clean fun _ _ => ?_
      exact Sets.onExp fun e => Func.binaryOperator_gives _ isBinary _ e
  | groupedExpression _ expression =>
      refine compiles_value rfl ?_
      rw [genNode]
      exact expression.value
  | callee _ expression => exact expression.clean
  | method _ _ operand =>
      show Clean _
      rw [genNode]
      exact operand.clean.bind fun _ => (genField_sets env _ _).clean
  | key _ expression => exact expression.clean
  | nameKey name =>
      show Clean _
      rw [genNode]
      exact (genLiteral_sets env (.inr name)).clean
  | listField _ value =>
      show Clean _
      rw [genTableField]
      exact value.clean.bind fun _ => Clean.pure _
  | recField _ _ key value =>
      show Clean _
      rw [genTableField]
      refine getFunc_clean.bind fun fs => ?_
      have register : Clean (registerOf fs.curExp : CompileM Nat) := by
        cases fs.curExp <;> first
        | exact fun _ => trivial
        | exact fun _ => show Stop.assertion ≠ .unreachable by decide
      refine register.bind fun tableReg => ?_
      refine Clean.bind key fun _ => ?_
      refine (onExpReg_clean Func.exp2RK_clean).bind fun keyRk => ?_
      refine value.clean.bind fun _ => ?_
      exact (storeField_clean tableReg _ keyRk).bind fun _ => Clean.pure _
  | callStatement _ _ _ called arguments =>
      exact (genCall_sets called fun argument member => (arguments argument member).clean).clean
  | target _ can expression => exact Sets.mono (P := Valued _) expression fun _ known => known.2 can
  | assignment _ _ _ targets values =>
      show Clean _
      rw [genNode]
      refine Yields.bind (genTargets_gives targets) fun exps storable => ?_
      refine (genExpList1_clean fun value member => (values value member).clean).bind fun _ => ?_
      exact genStores_clean storable _
  | localStatement names _ values =>
      show Clean _
      rw [genNode]
      refine (localNames_clean names).bind fun names => ?_
      refine (declareLocals_clean names 0).bind fun _ => ?_
      refine (genExpList1_clean fun value member => (values value member).clean).bind fun _ => ?_
      have adjusts (n m : Nat) : Clean (do
          onExp (Func.adjustAssign n m)
          onFunc (Func.adjustlocalvars n) : CompileM Unit) :=
        (onExp_clean (Func.adjustAssign_clean _ _)).bind fun _ => gives_onFunc (Yields.modify _)
      split
      · exact (setExp_clean _).bind fun _ => adjusts _ _
      · exact adjusts _ _
  | returnStatement _ values =>
      show Clean _
      rw [genNode]
      split
      · exact Clean.bind (gives_onFunc (Func.emitABC_clean _ _ _ _)) fun _ => Clean.pure _
      split
      · exact Yields.throw (by decide)
      · refine (genExpList1_clean fun value member => (values value member).clean).bind fun _ => ?_
        exact genReturnValues_clean _
  | breakStatement =>
      show Clean _
      rw [genNode]
      exact genBreak_clean
  | whileStatement _ _ condition body =>
      show Clean _
      rw [genNode]
      refine getFunc_clean.bind fun fs => condition.clean.bind fun _ => genTest_clean.bind fun jump => ?_
      refine enterLoop_clean.bind fun outer => (genBody_clean body).bind fun _ => ?_
      refine (jumpBack_clean _).bind fun _ => (leaveLoop_clean outer).bind fun breaks => ?_
      exact (patchHere_clean jump).bind fun _ => patchAll_clean breaks
  | doStatement _ body =>
      show Clean _
      rw [genNode]
      exact genBody_clean body
  | repeatStatement _ _ body condition =>
      show Clean _
      rw [genNode]
      refine getFunc_clean.bind fun fs => enterLoop_clean.bind fun outer => (genBody_clean body).bind fun _ => ?_
      refine condition.clean.bind fun _ => nextReg_clean.bind fun _ => ?_
      refine Clean.bind (gives_onFunc (Func.emitABC_clean _ _ _ _)) fun _ => ?_
      refine (jumpBack_clean _).bind fun _ => (leaveLoop_clean outer).bind fun breaks => ?_
      exact patchAll_clean breaks
  | forStatementNumeric _ _ _ _ start stop increment body =>
      show Clean _
      rw [genNode]
      refine getFunc_clean.bind fun fs => Clean.bind (gives_onFunc (Func.reserveregs_clean 4)) fun _ => ?_
      refine start.clean.bind fun _ => nextReg_clean.bind fun _ => ?_
      refine stop.clean.bind fun _ => nextReg_clean.bind fun _ => ?_
      have step : Clean (genIncrement env _) := genIncrement_clean fun e same => (increment e same).clean
      refine step.bind fun _ => nextReg_clean.bind fun _ => ?_
      refine Clean.bind (gives_onFunc (Func.emitWord_clean _)) fun _ => ?_
      refine enterLoop_clean.bind fun outer => (declareLoopVars_clean _ _ _).bind fun _ => ?_
      refine (genBody_clean body).bind fun _ => Clean.bind (gives_onFunc (Func.emitWord_clean _)) fun _ => ?_
      exact (leaveLoop_clean outer).bind fun breaks => leaveFor_clean _ _ breaks
  | forStatementGeneric _ _ expressions body =>
      show Clean _
      rw [genNode]
      refine getFunc_clean.bind fun fs => Clean.bind (gives_onFunc (Func.reserveregs_clean _)) fun _ => ?_
      refine (genArguments_clean fun e member => (expressions e member).clean).bind fun _ => ?_
      refine Clean.bind (gives_onFunc (Func.emitABC_clean _ _ _ _)) fun start => ?_
      refine Clean.bind (gives_onFunc (Func.emitWord_clean _)) fun jump => ?_
      refine enterLoop_clean.bind fun outer => (declareLoopVars_clean _ _ _).bind fun _ => ?_
      refine (genBody_clean body).bind fun _ => (jumpBack_clean _).bind fun _ => ?_
      exact (patchHere_clean jump).bind fun _ => (leaveLoop_clean outer).bind fun breaks => leaveFor_clean _ _ breaks
  | ifStatement _ _ first last =>
      show Clean _
      rw [genNode]
      refine Clean.bind (genClauses_clean ?_ []) fun escapes => patchAll_clean escapes
      intro clause member
      rcases List.mem_append.mp member with member | member
      · exact first clause member
      · rw [List.mem_singleton.mp member]
        exact last
  | clause _ _ condition body =>
      intro last
      rw [genClause]
      refine condition.clean.bind fun _ => genTest_clean.bind fun jump => (genBody_clean body).bind fun _ => ?_
      have patches (escapes : List Nat) : Clean (do
          patchHere jump
          return escapes) := (patchHere_clean jump).bind fun _ => Clean.pure _
      split
      · exact patches _
      · exact Clean.bind (gives_onFunc (Func.emitWord_clean _)) fun _ => patches _
  | lastClause _ clause => exact clause
  | elseClause _ body =>
      intro last
      rw [genClause]
      exact (genBody_clean body).bind fun _ => Clean.pure _
  | name => trivial
  | nameField _ _ _ => trivial
  | functionName _ _ => trivial
  | methodName _ _ _ => trivial
  | functionStatement _ _ _ body =>
      exact (genFunction_sets (P := fun _ => True) body _ false (genClosure_clean env _ _)).clean
  | localFunction _ body =>
      exact (genFunction_sets (P := fun _ => True) body _ true (genClosure_clean env _ _)).clean

theorem compileTree_reachable {tree : Node} (shaped : Shaped .chunk tree) (breakList : Option (List Nat)) :
    compileTree env breakList tree ≠ .error .unreachable := by
  have clean : Clean (genChunk env tree) := Shaped.compiles shaped
  have safe := clean { breakList }
  unfold Sat at safe
  intro stop
  unfold compileTree at stop
  cases run : genChunk env tree { breakList } with
  | error e =>
      rw [run] at safe stop
      cases stop
      exact safe rfl
  | ok result =>
      rw [run] at stop
      cases stop

end

theorem parse_compiles {lexer : Lexer} {tree : Node} (parsed : parse lexer = .ok tree) :
    Shaped .chunk tree ∧
      ∀ (env : Env) (breakList : Option (List Nat)), compileTree env breakList tree ≠ .error .unreachable :=
  ⟨parse_shaped parsed, fun _ => compileTree_reachable (parse_shaped parsed)⟩

theorem parse_compiles_return : ∃ tree, parse (Lexer.init (bytes "return not a.b, f(c)") []) = .ok tree ∧
    Shaped .chunk tree ∧
      ∀ (env : Env) (breakList : Option (List Nat)), compileTree env breakList tree ≠ .error .unreachable := by
  have accepted : (parse (Lexer.init (bytes "return not a.b, f(c)") [])).isOk = true := by decide +kernel
  cases parsed : parse (Lexer.init (bytes "return not a.b, f(c)") []) with
  | error e =>
      rw [parsed] at accepted
      cases accepted
  | ok tree => exact ⟨tree, rfl, parse_compiles parsed⟩

end Zua.Compile
