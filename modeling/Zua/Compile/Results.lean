import Zua.Compile.Loops
import Zua.Compile.Registers

/-!
# How many results are asked for

The instruction of a call or of `...` is emitted first, and how many results it is asked for is patched in by what
comes next. Parentheses leave no trace in the description that is passed on, and the arguments of a call never ask.
-/

namespace Zua.Compile
open Code Syntax
open Zua.Lex (Token ch)

variable {env : Env} {c c' : Compiler}

/-! ## Calls and `...` -/

-- the expressions that have any number of values
def isOpen : Node → Bool
  | .call _ _ _ _ isStatement => !isStatement
  | .literal token => token.id == .ellipsis
  | _ => false

-- such an expression in one or more parentheses
def isGroup : Node → Bool
  | .groupedExpression _ expression _ => isOpen expression || isGroup expression
  | _ => false

-- without a number all results are asked for
def Asks (num : Option Nat) (i : Instruction) : Prop :=
  i.op = .call ∧ i.c = (num.map (· + 1)).getD 0 ∨ i.op = .vararg ∧ i.b = (num.map (· + 1)).getD 0

-- the current description stands for the results of the instruction at `index`
def Opened (c : Compiler) (index : Nat) : Prop := InstrAt c.func index fun i =>
  c.func.curExp = .call index ∧ i.op = .call ∧ i.c = 2 ∨ c.func.curExp = .vararg index ∧ i.op = .vararg

theorem genCallInstruction_run {base : Nat} {isStatement : Bool}
    (ran : genCallInstruction base isStatement c = .ok ((), c')) : base + 1 ≤ c.func.freeRegister ∧ c'.func = { c.func with
      code := c.func.code ++ [.instr ⟨.call, base, c.func.freeRegister - (base + 1) + 1, if isStatement then 1 else 2⟩]
      curExp := .call c.func.code.length
      freeRegister := base + 1 } := by
  obtain ⟨fs, c₁, ⟨⟩, ran⟩ := bind_returns.mp ran
  split at ran
  · cases ran
  · obtain ⟨index, c₂, ⟨⟩, ran⟩ := bind_returns.mp ran
    obtain ⟨_, c₃, ⟨⟩, ran⟩ := bind_returns.mp ran
    cases ran
    exact ⟨by omega, rfl⟩

theorem genCall_run {callee : Node} {arguments : List Node} {openArgs closeArgs : Option Token} {isStatement : Bool}
    (ran : genNode env (.call callee arguments openArgs closeArgs isStatement) c = .ok ((), c')) :
    ∃ base c₁, genCallInstruction base isStatement c₁ = .ok ((), c') ∧ c.func.pc ≤ c₁.func.pc := by
  rw [genNode] at ran
  obtain ⟨_, c₁, first, ran⟩ := bind_returns.mp ran
  have calls {c₂ : Compiler} (le : c.func.pc ≤ c₂.func.pc) (ran : (do
      let base ← calledRegister
      genArguments env arguments
      genCallInstruction base isStatement) c₂ = .ok ((), c')) :
      ∃ base c₁, genCallInstruction base isStatement c₁ = .ok ((), c') ∧ c.func.pc ≤ c₁.func.pc := by
    obtain ⟨base, c₃, called, ran⟩ := bind_returns.mp ran
    obtain ⟨_, c₄, given, ran⟩ := bind_returns.mp ran
    exact ⟨base, c₄, ran, le.trans ((Adds.calledRegister.run called).trans ((genArguments_adds arguments).run given))⟩
  have start := (genNode_adds callee).run first
  split at ran
  · exact calls start ran
  · obtain ⟨_, c₂, next, ran⟩ := bind_returns.mp ran
    exact calls (start.trans (Adds.nextReg.run next)) ran

theorem genNode_opened {node : Node} (opened : isOpen node = true) (ran : genNode env node c = .ok ((), c')) :
    ∃ index, Opened c' index ∧ c.func.pc ≤ index := by
  cases node with
  | call callee arguments openArgs closeArgs isStatement =>
      obtain ⟨base, c₁, ran, le⟩ := genCall_run ran
      obtain ⟨-, emitted⟩ := genCallInstruction_run ran
      cases isStatement with
      | true => cases opened
      | false =>
          refine ⟨c₁.func.code.length, ?_, le⟩
          rw [Opened, emitted]
          exact .last (.inl ⟨rfl, rfl, rfl⟩)
  | literal token =>
      have ellipsis : token.id = .ellipsis := beq_iff_eq.mp opened
      rw [genNode, genLiteral] at ran
      simp only [ellipsis] at ran
      obtain ⟨index, c₁, ⟨⟩, ran⟩ := bind_returns.mp ran
      cases ran
      exact ⟨c.func.code.length, .last (.inr ⟨rfl, rfl⟩), le_rfl⟩
  | _ => cases opened

theorem genGroup_opened (node : Node) (group : isGroup node = true) (ran : genNode env node c = .ok ((), c')) :
    ∃ index, Opened c' index ∧ c.func.pc ≤ index := by
  cases node with
  | groupedExpression openToken expression closeToken =>
      rw [genNode] at ran
      rcases Bool.or_eq_true_iff.mp group with opened | group
      · exact genNode_opened opened ran
      · exact genGroup_opened expression group ran
  | _ => cases group

/-! ## The last argument of a call -/

-- the call takes what is up to the top, where the instruction before it has left all its results
def PassesAll (env : Env) (call : Node) (c : Compiler) : Prop :=
  ∃ c' outer, genNode env call c = .ok ((), c') ∧ c'.func.curExp = .call (outer + 1) ∧
    (InstrAt c'.func (outer + 1) fun i => i.op = .call ∧ i.b = 0) ∧ InstrAt c'.func outer (Asks none)

-- the number of arguments is always written down, and it is one more for the instruction
theorem genCall_counts {callee : Node} {arguments : List Node} {openArgs closeArgs : Option Token} {isStatement : Bool}
    (ran : genNode env (.call callee arguments openArgs closeArgs isStatement) c = .ok ((), c')) :
    ∃ index, c'.func.curExp = .call index ∧ InstrAt c'.func index fun i => i.op = .call ∧ i.b ≠ 0 := by
  obtain ⟨base, c₁, ran, -⟩ := genCall_run ran
  obtain ⟨-, emitted⟩ := genCallInstruction_run ran
  refine ⟨c₁.func.code.length, ?_, ?_⟩ <;> rw [emitted]
  exact .last ⟨rfl, Nat.succ_ne_zero _⟩

theorem InstrAt.unique {fs : Func} {index : Nat} {p q : Instruction → Prop} (first : InstrAt fs index p)
    (second : InstrAt fs index q) : ∃ i, p i ∧ q i := by
  obtain ⟨i, found, holds⟩ := first
  obtain ⟨j, found', holds'⟩ := second
  cases found.symm.trans found'
  exact ⟨i, holds, holds'⟩

theorem genCall_not_passesAll (callee : Node) (arguments : List Node) (openArgs closeArgs : Option Token) (isStatement : Bool) :
    ¬PassesAll env (.call callee arguments openArgs closeArgs isStatement) c := by
  rintro ⟨c', outer, ran, is, all, -⟩
  obtain ⟨index, is', counted⟩ := genCall_counts ran
  cases is.symm.trans is'
  obtain ⟨i, ⟨-, zero⟩, -, other⟩ := all.unique counted
  exact other zero

-- whatever the last argument is, it stands for one value
theorem last_argument_single (env : Env) (c : Compiler) (callee : Node) (arguments : List Node) (last : Node)
    (openArgs closeArgs : Option Token) (isStatement : Bool) :
    ¬PassesAll env (.call callee (arguments ++ [last]) openArgs closeArgs isStatement) c :=
  genCall_not_passesAll callee (arguments ++ [last]) openArgs closeArgs isStatement

def nestedSource : List UInt8 := Lex.bytes "f(g())"

def nestedCall : Node :=
  let name (start : Nat) : Token := ⟨.name, start, start + 1, 1, none⟩
  .call (.identifier (name 0)) [.call (.identifier (name 2)) [] none none false] none none true

theorem nested_call_single : ¬PassesAll (plainEnv nestedSource) nestedCall {} ∧ ∃ c',
    genNode (plainEnv nestedSource) nestedCall {} = .ok ((), c') ∧ c'.func.code = [.instr (.abx .getglobal 0 0),
      .instr (.abx .getglobal 1 1), .instr ⟨.call, 1, 1, 2⟩, .instr ⟨.call, 0, 2, 1⟩] := by
  refine ⟨genCall_not_passesAll _ _ _ _ _, ?_⟩
  have run : (genNode (plainEnv nestedSource) nestedCall {}).toOption.map (·.2.func.code) = some [
      .instr (.abx .getglobal 0 0), .instr (.abx .getglobal 1 1), .instr ⟨.call, 1, 1, 2⟩, .instr ⟨.call, 0, 2, 1⟩] := by
    decide +kernel
  cases compiled : genNode (plainEnv nestedSource) nestedCall {} with
  | error e =>
      rw [compiled] at run
      cases run
  | ok pair =>
      rw [compiled] at run
      exact ⟨pair.2, rfl, Option.some.inj run⟩

/-! ## What comes after an instruction -/

-- only the register of the instruction is filled in
def Kept (index : Nat) (fs fs' : Func) : Prop :=
  ∀ i, fs.code[index]? = some (.instr i) → ∃ a, fs'.code[index]? = some (.instr { i with a })

theorem kept_reflexive (index : Nat) : Reflexive (Kept index) where
  refl fs i found := ⟨i.a, found⟩
  trans first second i found := by
    obtain ⟨a, found⟩ := first i found
    exact second { i with a } found

theorem Kept.code {index : Nat} {fs fs' : Func} (same : fs'.code = fs.code) : Kept index fs fs' := by
  intro i found
  exact ⟨i.a, by rw [same]; exact found⟩

theorem InstrAt.kept {index : Nat} {fs fs' : Func} {p : Instruction → Prop} (holds : InstrAt fs index p)
    (kept : Kept index fs fs') (ignores : ∀ i a, p i → p { i with a }) :
    InstrAt fs' index p := by
  obtain ⟨i, found, holds⟩ := holds
  obtain ⟨a, found⟩ := kept i found
  exact ⟨_, found, ignores i a holds⟩

namespace Func

variable {index : Nat}

theorem emitWord_kept (w : Word) : Keeps (Kept index) (emitWord w) := by
  intro fs i found
  refine ⟨i.a, ?_⟩
  show (fs.code ++ [w])[index]? = _
  rw [List.getElem?_append_left (List.getElem?_eq_some_iff.mp found).1]
  exact found

theorem emitABC_kept (op : OpCode) (a b d : Nat) : Keeps (Kept index) (emitABC op a b d) := emitWord_kept _

theorem emitABx_kept (op : OpCode) (a bx : Nat) : Keeps (Kept index) (emitABx op a bx) := emitWord_kept _

theorem freereg_kept (reg : Nat) : Keeps (Kept index) (freereg reg) := by
  refine Keeps.getBind fun fs => ?_
  split
  · split
    · trivial
    split
    · trivial
    · exact Kept.code rfl
  · exact Kept.code rfl

theorem freeexp_kept (e : ExpDesc) : Keeps (Kept index) (freeexp e) := by
  cases e with
  | nonreloc r => exact freereg_kept r
  | _ => exact .pure (kept_reflexive index) _

theorem reserveregs_kept (n : Nat) : Keeps (Kept index) (reserveregs n) := by
  have checked : Keeps (Kept index) (checkstack n) := by
    refine Keeps.getBind fun fs => ?_
    dsimp only
    split
    · trivial
    split
    · exact Kept.code rfl
    split
    · trivial
    · exact Kept.code rfl
  exact .bind (kept_reflexive index) checked fun _ => .modify fun fs => Kept.code rfl

theorem getcode_kept (k : Nat) : Keeps (Kept index) (getcode k) := by
  refine Keeps.getBind fun fs => ?_
  split
  · exact Kept.code rfl
  · trivial

theorem patchRegister_kept (k reg : Nat) : Keeps (Kept index) (patch k fun i => { i with a := reg }) := by
  intro fs
  refine Sat.bind (Sat.bind (Sat.get ?_))
  split
  · rename_i j at_k
    refine Sat.pure (Sat.modify ?_)
    intro i found
    by_cases same : k = index
    · subst same
      cases at_k.symm.trans found
      exact ⟨reg, List.getElem?_set_self (List.getElem?_eq_some_iff.mp found).1⟩
    · refine ⟨i.a, ?_⟩
      show (fs.code.set k _)[index]? = _
      rw [List.getElem?_set_ne same]
      exact found
  · exact Sat.throw trivial

-- what `setoneret` leaves
def isPlaced : ExpDesc → Bool
  | .nonreloc _ | .relocable _ => true
  | _ => false

theorem discharge2reg_kept {e : ExpDesc} (placed : isPlaced e = true) (reg : Nat) :
    Keeps (Kept index) (discharge2reg e reg) := by
  unfold discharge2reg
  cases e with
  | nonreloc r =>
      rw [dischargevars_discharged rfl, pure_bind]
      dsimp only
      split
      · exact .pure (kept_reflexive index) _
      · exact .bind (kept_reflexive index) (emitABC_kept _ _ _ _) fun _ => .pure (kept_reflexive index) _
  | relocable k =>
      rw [dischargevars_discharged rfl, pure_bind]
      refine .bind (kept_reflexive index) (getcode_kept k) fun i => ?_
      split
      · exact .bind (kept_reflexive index) (patchRegister_kept k reg) fun _ => .pure (kept_reflexive index) _
      · exact .throw _
  | _ => cases placed

theorem exp2reg_kept {e : ExpDesc} (placed : isPlaced e = true) (reg : Nat) : Keeps (Kept index) (exp2reg e reg) := by
  refine .bind (kept_reflexive index) (discharge2reg_kept placed reg) fun d => ?_
  split
  · exact .throw _
  · exact .pure (kept_reflexive index) _

theorem exp2anyreg_kept {e : ExpDesc} (placed : isPlaced e = true) : Keeps (Kept index) (exp2anyreg e) := by
  unfold exp2anyreg
  cases e with
  | nonreloc r => exact .pure (kept_reflexive index) _
  | relocable k =>
      rw [dischargevars_discharged rfl, pure_bind]
      show Keeps _ (exp2nextreg (.relocable k))
      unfold exp2nextreg
      rw [dischargevars_discharged rfl, pure_bind]
      refine .bind (kept_reflexive index) (freeexp_kept _) fun _ => ?_
      refine .bind (kept_reflexive index) (reserveregs_kept 1) fun _ => ?_
      refine .bind (kept_reflexive index) (.get (kept_reflexive index)) fun fs => ?_
      refine .bind (kept_reflexive index) (exp2reg_kept placed _) fun _ => ?_
      exact .pure (kept_reflexive index) _
  | _ => cases placed

theorem storevar_kept {e : ExpDesc} (placed : isPlaced e = true) (var : ExpDesc) :
    Keeps (Kept index) (storevar var e) := by
  cases var with
  | localRegister r => exact .bind (kept_reflexive index) (freeexp_kept e) fun _ => exp2reg_kept placed r
  | global k =>
      refine .bind (kept_reflexive index) (exp2anyreg_kept placed) fun d => ?_
      refine .bind (kept_reflexive index) (emitABx_kept _ _ _) fun _ => ?_
      exact .bind (kept_reflexive index) (freeexp_kept _) fun _ => .pure (kept_reflexive index) _
  | _ => exact .throw _

theorem setlist_kept (base numValues : Nat) (toStore : Option Nat) : Keeps (Kept index) (setlist base numValues toStore) := by
  have emitted (batch stored : Nat) : Keeps (Kept index) (emitSetlist base batch stored) := by
    unfold emitSetlist
    split
    · exact emitABC_kept _ _ _ _
    · exact .bind (kept_reflexive index) (emitABC_kept _ _ _ _) fun _ => emitWord_kept _
  exact .bind (kept_reflexive index) (emitted _ _) fun _ => .modify fun fs => Kept.code rfl

theorem patch_at {fs : Func} {i : Instruction} (found : fs.code[index]? = some (.instr i))
    (f : Instruction → Instruction) : Sat (fun _ => True) (patch index f) fs fun _ fs' =>
      fs'.code[index]? = some (.instr (f i)) := by
  refine Sat.bind (Sat.bind (Sat.get ?_))
  rw [found]
  exact Sat.pure (Sat.modify (List.getElem?_set_self (List.getElem?_eq_some_iff.mp found).1))

-- how many results are asked for
theorem setreturns_asks {fs : Func} {e : ExpDesc} (opened : InstrAt fs index fun i =>
    e = .call index ∧ i.op = .call ∧ i.c = 2 ∨ e = .vararg index ∧ i.op = .vararg) (num : Option Nat) :
    Sat (fun _ => True) (setreturns e num) fs fun _ fs' => InstrAt fs' index (Asks num) := by
  obtain ⟨i, found, described⟩ := opened
  unfold setreturns
  split
  · trivial
  · rcases described with ⟨rfl, op, -⟩ | ⟨rfl, op⟩
    · exact (patch_at found _).mono fun _ fs' found => ⟨_, found, .inl ⟨op, rfl⟩⟩
    · refine Sat.bind (Sat.get (Sat.bind ((patch_at found _).mono fun _ fs' found => ?_)))
      have asks : InstrAt fs' index (Asks num) := ⟨_, found, .inr ⟨op, rfl⟩⟩
      exact (reserveregs_kept 1 fs').mono fun _ _ kept => asks.kept kept fun _ _ holds => holds

-- one result is what a call is emitted with
theorem setoneret_asks {fs : Func} {e : ExpDesc} (opened : InstrAt fs index fun i =>
    e = .call index ∧ i.op = .call ∧ i.c = 2 ∨ e = .vararg index ∧ i.op = .vararg) :
    Sat (fun _ => True) (setoneret e) fs fun d fs' => InstrAt fs' index (Asks (some 1)) ∧ isPlaced d = true := by
  obtain ⟨i, found, ⟨rfl, op, one⟩ | ⟨rfl, op⟩⟩ := opened
  · have asks : InstrAt fs index (Asks (some 1)) := ⟨i, found, .inl ⟨op, one⟩⟩
    exact Sat.bind ((getcode_kept index fs).mono fun _ fs' kept => Sat.pure ⟨asks.kept kept fun _ _ holds => holds, rfl⟩)
  · exact Sat.bind ((patch_at found _).mono fun _ fs' found => Sat.pure ⟨⟨_, found, .inr ⟨op, rfl⟩⟩, rfl⟩)

theorem adjustAssign_asks {fs : Func} {e : ExpDesc} (opened : InstrAt fs index fun i =>
    e = .call index ∧ i.op = .call ∧ i.c = 2 ∨ e = .vararg index ∧ i.op = .vararg) (numVars numValues : Nat) :
    Sat (fun _ => True) (adjustAssign numVars numValues e) fs fun _ fs' =>
      InstrAt fs' index (Asks (some (numVars + 1 - numValues))) := by
  have many : e.hasmultret = true := by
    obtain ⟨i, -, ⟨rfl, -⟩ | ⟨rfl, -⟩⟩ := opened <;> rfl
  unfold adjustAssign
  rw [if_pos many]
  refine Sat.bind ((setreturns_asks opened _).mono fun _ fs₁ asks => ?_)
  have more : Keeps (Kept index) (reserveMore (numVars + 1 - numValues)) := by
    unfold reserveMore
    split
    · exact reserveregs_kept _
    · exact .pure (kept_reflexive index) _
  exact Sat.bind ((more fs₁).mono fun _ _ kept => Sat.pure (asks.kept kept fun _ _ holds => holds))

end Func

/-! ## The statements -/

variable {index : Nat}

-- an operation of the compiler that keeps the instruction
abbrev KeepsAt {α : Type} (index : Nat) (x : CompileM α) : Prop := Keeps (fun c c' => Kept index c.func c'.func) x

theorem keptAt_reflexive (index : Nat) : Reflexive fun c c' : Compiler => Kept index c.func c'.func where
  refl c := (kept_reflexive index).refl c.func
  trans := (kept_reflexive index).trans

theorem onFunc_kept {α : Type} {x : FuncM α} (keeps : Keeps (Kept index) x) : KeepsAt index (onFunc x) :=
  fun c => sat_onFunc (keeps c.func)

theorem getFunc_kept : KeepsAt index getFunc := onFunc_kept (.get (kept_reflexive index))

theorem setExp_kept (e : ExpDesc) : KeepsAt index (setExp e) := fun _ => Kept.code rfl

theorem storeFrom_kept (targets : List ExpDesc) (n : Nat) : KeepsAt index (storeFrom targets n) := by
  induction n with
  | zero => exact .pure (keptAt_reflexive index) _
  | succ n ih =>
      refine .bind (keptAt_reflexive index) getFunc_kept fun fs => ?_
      split
      · exact .throw _
      split
      · exact .throw _
      · refine .bind (keptAt_reflexive index) (onFunc_kept (Func.storevar_kept rfl _)) fun e => ?_
        exact .bind (keptAt_reflexive index) (setExp_kept e) fun _ => ih

theorem dropRegisters_kept (n : Nat) : KeepsAt index (dropRegisters n) := by
  refine .bind (keptAt_reflexive index) getFunc_kept fun fs => ?_
  split
  · exact .throw _
  · exact onFunc_kept (.modify fun fs => Kept.code rfl)

theorem emitReturn_kept (first : Nat) (num : Option Nat) :
    KeepsAt index (do let _ ← onFunc (Func.emitReturn first num) : CompileM Unit) :=
  .bind (keptAt_reflexive index) (onFunc_kept (Func.emitABC_kept _ _ _ _)) fun _ => .pure (keptAt_reflexive index) _

theorem sat_onExp {f : ExpDesc → FuncM ExpDesc} {Q : ExpDesc → Func → Prop}
    (h : Sat (fun _ => True) (f c.func.curExp) c.func Q) : Sat (fun _ => True) (onExp f) c fun _ c' =>
      ∃ fs, c'.func = { fs with curExp := c'.func.curExp } ∧ Q c'.func.curExp fs := by
  refine Sat.bind (sat_onFunc (Sat.get ?_))
  exact Sat.bind (sat_onFunc (h.mono fun e fs holds => sat_onFunc (Sat.modify ⟨fs, rfl, holds⟩)))

theorem opened_many (opened : Opened c index) : c.func.curExp.hasmultret = true := by
  obtain ⟨i, -, ⟨is, -⟩ | ⟨is, -⟩⟩ := opened <;> rw [is] <;> rfl

theorem asks_once {i : Instruction} {num num' : Option Nat} (first : Asks num i) (second : Asks num' i) : num = num' := by
  have numbers {n : Nat} (left : n = (num.map (· + 1)).getD 0) (right : n = (num'.map (· + 1)).getD 0) : num = num' := by
    cases num <;> cases num' <;> simp_all
  rcases first with ⟨op, left⟩ | ⟨op, left⟩ <;> rcases second with ⟨op', right⟩ | ⟨op', right⟩
  · exact numbers left right
  · cases op.symm.trans op'
  · cases op.symm.trans op'
  · exact numbers left right

-- all results are returned
theorem genReturnValues_asks (opened : Opened c index) (numValues : Nat) :
    Sat (fun _ => True) (genReturnValues numValues) c fun _ c' => InstrAt c'.func index fun i => ¬Asks (some 1) i := by
  have returned {c₁ : Compiler} (first : Nat) (many : InstrAt c₁.func index fun i => ¬Asks (some 1) i) :
      Sat (fun _ => True) (do let _ ← onFunc (Func.emitReturn first none) : CompileM Unit) c₁ fun _ c' =>
        InstrAt c'.func index fun i => ¬Asks (some 1) i :=
    (emitReturn_kept first none c₁).mono fun _ _ kept => many.kept kept fun _ _ holds => holds
  refine Sat.bind (sat_onFunc (Sat.get ?_))
  rw [if_pos (opened_many opened)]
  refine Sat.bind (sat_onFunc ((Func.setreturns_asks opened none).mono fun _ fs asks => ?_))
  have many : InstrAt fs index fun i => ¬Asks (some 1) i := by
    obtain ⟨i, found, asks⟩ := asks
    exact ⟨i, found, fun one => Option.some_ne_none _ (asks_once one asks)⟩
  split
  · rename_i k is
    split
    · have same : k = index := by
        obtain ⟨i, -, ⟨is', -⟩ | ⟨is', -⟩⟩ := opened
        · exact ExpDesc.call.inj (is.symm.trans is')
        · cases is.symm.trans is'
      subst same
      obtain ⟨i, found, -⟩ := many
      refine Sat.bind (sat_onFunc ((Func.patch_at found _).mono fun _ fs₁ tail => ?_))
      have read : Keeps (Kept k) (Func.getcode k) := Func.getcode_kept k
      refine Sat.bind (sat_onFunc ((read fs₁).mono fun j fs₂ kept => ?_))
      have tailcall : InstrAt fs₂ k fun i => ¬Asks (some 1) i := by
        refine InstrAt.kept ⟨_, tail, ?_⟩ kept fun _ _ holds => holds
        rintro (⟨op, -⟩ | ⟨op, -⟩) <;> cases op
      split
      · exact returned _ tailcall
      · exact Sat.throw trivial
    · exact returned _ many
  · exact returned _ many

theorem genStores_asks (opened : Opened c index) {targets : List ExpDesc} {numValues : Nat} :
    Sat (fun _ => True) (genStores targets numValues) c fun _ c' => InstrAt c'.func index fun i =>
      Asks (some 1) i ↔ targets.length = numValues := by
  unfold genStores
  dsimp only
  split
  · exact Sat.throw trivial
  split
  · rename_i differ
    refine Sat.bind ((sat_onExp (Func.adjustAssign_asks opened _ _)).mono ?_)
    rintro _ c₁ ⟨fs, same, asks⟩
    have asks : InstrAt c₁.func index (Asks (some (targets.length + 1 - numValues))) := by
      rw [same]
      exact asks
    have dropped : KeepsAt index (dropRegisters (numValues - targets.length)) := dropRegisters_kept _
    have stored : KeepsAt index (storeFrom targets targets.length) := storeFrom_kept _ _
    refine Sat.bind ((dropped c₁).mono fun _ c₂ kept => ?_)
    refine (stored c₂).mono fun _ c₃ kept' => ?_
    obtain ⟨i, found, asks⟩ := (asks.kept kept fun _ _ holds => holds).kept kept' fun _ _ holds => holds
    refine ⟨i, found, fun one => ?_, fun equal => (differ equal.symm).elim⟩
    have := Option.some.inj (asks_once one asks)
    omega
  · rename_i equal
    have equal : targets.length = numValues := (not_not.mp equal).symm
    split
    · exact Sat.throw trivial
    · rename_i target _
      refine Sat.bind ((sat_onExp (Func.setoneret_asks opened)).mono ?_)
      rintro _ c₁ ⟨fs, same, asks, placed⟩
      have asks : InstrAt c₁.func index (Asks (some 1)) := by
        rw [same]
        exact asks
      have stored : Keeps (Kept index) (Func.storevar target c₁.func.curExp) := Func.storevar_kept placed target
      refine Sat.bind ((sat_onExp (stored c₁.func)).mono ?_)
      rintro _ c₂ ⟨fs₂, same₂, kept⟩
      have kept₂ : Kept index c₁.func c₂.func := by
        rw [same₂]
        exact kept
      have others (n : Nat) : KeepsAt index (storeFrom targets n) := storeFrom_kept targets n
      refine (others _ c₂).mono fun _ c₃ kept' => ?_
      obtain ⟨i, found, asks⟩ := (asks.kept kept₂ fun _ _ holds => holds).kept kept' fun _ _ holds => holds
      exact ⟨i, found, fun _ => equal, fun _ => asks⟩

/-! ## Parentheses -/

-- where a list of values ends
inductive Context
  | returned
  | assigned (targets : List Node) (isLocal : Bool)
  | listed (openToken closeToken : Token)

def Context.wrap (context : Context) (before : List Node) (last : Node) : Node :=
  match context with
  | .returned => .returnStatement (before ++ [last])
  | .assigned targets isLocal => .assignmentStatement targets (before ++ [last]) isLocal
  | .listed openToken closeToken => .tableConstructor (before ++ [.tableField none last]) openToken closeToken

-- what is generated before the last value
def Context.enter (env : Env) (context : Context) (before : List Node) : CompileM Unit :=
  match context with
  | .returned => genArguments env before
  | .assigned targets true => do
      let names ← targets.mapM fun target => (localName target : CompileM Token)
      declareLocals names 0
      genArguments env before
  | .assigned targets false => do
      let _ ← genTargets env targets
      genArguments env before
  | .listed _ _ => do
      let index ← onFunc (Func.emitABC .newtable 0 0 0)
      setExp (.relocable index)
      let tableReg ← nextReg
      let st ← genFields env tableReg before {}
      let _ ← flushField tableReg st

-- the instruction of the last value, when it is a call or `...`
def Context.instruction (env : Env) (context : Context) (before : List Node) (last : Node) (c : Compiler) : Option Nat :=
  match (do context.enter env before; genNode env last) c with
  | .ok (_, c') =>
      match c'.func.curExp with
      | .call index | .vararg index => some index
      | _ => none
  | .error _ => none

-- in the end one result is asked for, and the call is no tail call
def Truncated (env : Env) (context : Context) (before : List Node) (last : Node) (c : Compiler) : Prop :=
  ∃ c' index, genNode env (context.wrap before last) c = .ok ((), c') ∧
    context.instruction env before last c = some index ∧ InstrAt c'.func index (Asks (some 1))

-- there are as many targets as values
def Context.isExact (context : Context) (before : List Node) : Bool :=
  match context with
  | .assigned targets _ => targets.length == before.length + 1
  | _ => false

/-! ## The last value of a list -/

theorem genExpList1_last {before : List Node} {last : Node} (ran : genExpList1 env (before ++ [last]) c = .ok ((), c')) :
    ∃ c₁, genArguments env before c = .ok ((), c₁) ∧ genNode env last c₁ = .ok ((), c') := by
  induction before generalizing c with
  | nil =>
      rw [List.nil_append, genExpList1] at ran
      obtain ⟨_, c₁, ran, ⟨⟩⟩ := bind_returns.mp ran
      exact ⟨c, by rw [genArguments]; rfl, ran⟩
  | cons node before ih =>
      rw [List.cons_append, genExpList1] at ran
      obtain ⟨_, c₁, first, ran⟩ := bind_returns.mp ran
      rw [if_neg (by simp)] at ran
      obtain ⟨r, c₂, next, ran⟩ := bind_returns.mp ran
      obtain ⟨c₃, others, ran⟩ := ih ran
      refine ⟨c₃, ?_, ran⟩
      rw [genArguments]
      exact bind_returns.mpr ⟨_, c₁, first, bind_returns.mpr ⟨r, c₂, next, others⟩⟩

theorem genFields_last {tableReg : Nat} {before : List Node} {last : Node} {st st' : FieldState}
    (ran : genFields env tableReg (before ++ [last]) st c = .ok (st', c')) : ∃ st₁ c₁,
      genFields env tableReg before st c = .ok (st₁, c₁) ∧ genFields env tableReg [last] st₁ c₁ = .ok (st', c') := by
  induction before generalizing c st with
  | nil => exact ⟨st, c, by rw [genFields]; rfl, ran⟩
  | cons node before ih =>
      rw [List.cons_append, genFields] at ran
      obtain ⟨previous, c₁, seen, ran⟩ := bind_returns.mp ran
      obtain ⟨st₁, c₂, flushed, ran⟩ := bind_returns.mp ran
      obtain ⟨positional, c₃, field, ran⟩ := bind_returns.mp ran
      obtain ⟨fs, c₄, seen', ran⟩ := bind_returns.mp ran
      obtain ⟨_, c₅, set, ran⟩ := bind_returns.mp ran
      obtain ⟨st₂, c₆, others, ran⟩ := ih ran
      refine ⟨st₂, c₆, ?_, ran⟩
      rw [genFields]
      refine bind_returns.mpr ⟨previous, c₁, seen, bind_returns.mpr ⟨st₁, c₂, flushed, ?_⟩⟩
      refine bind_returns.mpr ⟨positional, c₃, field, bind_returns.mpr ⟨fs, c₄, seen', ?_⟩⟩
      exact bind_returns.mpr ⟨_, c₅, set, others⟩

theorem genTargets_length {targets : List Node} {exps : List ExpDesc} (ran : genTargets env targets c = .ok (exps, c')) :
    exps.length = targets.length := by
  induction targets generalizing c exps with
  | nil =>
      rw [genTargets] at ran
      cases ran
      rfl
  | cons target targets ih =>
      rw [genTargets] at ran
      obtain ⟨_, c₁, -, ran⟩ := bind_returns.mp ran
      obtain ⟨fs, c₂, -, ran⟩ := bind_returns.mp ran
      obtain ⟨rest, c₃, others, ⟨⟩⟩ := bind_returns.mp ran
      exact congrArg (· + 1) (ih others)

-- the last value is generated in a state from which the rest is compiled
structure Concludes (env : Env) (context : Context) (before : List Node) (last : Node) (c c' : Compiler) (index : Nat) : Prop where
  instruction : context.instruction env before last c = some index
  asks : InstrAt c'.func index fun i => Asks (some 1) i ↔ context.isExact before = true

theorem instruction_eq {context : Context} {before : List Node} {last : Node} {c₁ c₂ : Compiler} {index : Nat}
    (entered : context.enter env before c = .ok ((), c₁)) (ran : genNode env last c₁ = .ok ((), c₂))
    (opened : Opened c₂ index) : context.instruction env before last c = some index := by
  have both : (do context.enter env before; genNode env last) c = .ok ((), c₂) :=
    bind_returns.mpr ⟨(), c₁, entered, ran⟩
  rw [Context.instruction, both]
  obtain ⟨i, -, ⟨is, -⟩ | ⟨is, -⟩⟩ := opened
  · simp only [is]
  · simp only [is]

theorem run_sat {α : Type} {x : CompileM α} {a : α} {Q : α → Compiler → Prop} (sat : Sat (fun _ => True) x c Q)
    (ran : x c = .ok (a, c')) : Q a c' := by
  unfold Sat at sat
  rw [ran] at sat
  exact sat

theorem return_concludes (before : List Node) {last : Node} (group : isGroup last = true)
    (ran : genNode env (.returnStatement (before ++ [last])) c = .ok ((), c')) :
    ∃ index, Concludes env .returned before last c c' index := by
  rw [genNode, if_neg (by simp)] at ran
  split at ran
  · cases ran
  · obtain ⟨_, c₁, list, ran⟩ := bind_returns.mp ran
    obtain ⟨c₂, entered, value⟩ := genExpList1_last list
    obtain ⟨index, opened, -⟩ := genGroup_opened last group value
    obtain ⟨i, found, many⟩ := run_sat (genReturnValues_asks opened _) ran
    exact ⟨index, instruction_eq entered value opened, i, found, fun one => (many one).elim, fun wrong => by cases wrong⟩

theorem local_concludes {targets before : List Node} {last : Node} (group : isGroup last = true)
    (ran : genNode env (.assignmentStatement targets (before ++ [last]) true) c = .ok ((), c')) :
    ∃ index, Concludes env (.assigned targets true) before last c c' index := by
  rw [genNode] at ran
  obtain ⟨names, c₁, named, ran⟩ := bind_returns.mp ran
  obtain ⟨_, c₂, declared, ran⟩ := bind_returns.mp ran
  obtain ⟨_, c₃, list, ran⟩ := bind_returns.mp ran
  rw [if_neg (by simp)] at ran
  obtain ⟨_, c₅, adjusted, ⟨⟩⟩ := bind_returns.mp ran
  obtain ⟨c₆, before_ran, value⟩ := genExpList1_last list
  obtain ⟨index, opened, -⟩ := genGroup_opened last group value
  have entered : (Context.assigned targets true).enter env before c = .ok ((), c₆) :=
    bind_returns.mpr ⟨names, c₁, named, bind_returns.mpr ⟨_, c₂, declared, before_ran⟩⟩
  obtain ⟨fs, same, i, found, asks⟩ := run_sat (sat_onExp (Func.adjustAssign_asks opened _ _)) adjusted
  refine ⟨index, instruction_eq entered value opened, i, ?_, ?_⟩
  · show c₅.func.code[index]? = _
    rw [same]
    exact found
  · rw [Context.isExact, beq_iff_eq]
    rw [List.length_append, List.length_singleton] at asks
    refine ⟨fun one => ?_, fun equal => ?_⟩
    · have := Option.some.inj (asks_once one asks)
      omega
    · rw [equal, Nat.add_sub_cancel_left] at asks
      exact asks

theorem assignment_concludes {targets before : List Node} {last : Node} (group : isGroup last = true)
    (ran : genNode env (.assignmentStatement targets (before ++ [last]) false) c = .ok ((), c')) :
    ∃ index, Concludes env (.assigned targets false) before last c c' index := by
  rw [genNode] at ran
  obtain ⟨exps, c₁, targeted, ran⟩ := bind_returns.mp ran
  obtain ⟨_, c₂, list, ran⟩ := bind_returns.mp ran
  obtain ⟨c₃, before_ran, value⟩ := genExpList1_last list
  obtain ⟨index, opened, -⟩ := genGroup_opened last group value
  have entered : (Context.assigned targets false).enter env before c = .ok ((), c₃) :=
    bind_returns.mpr ⟨exps, c₁, targeted, before_ran⟩
  have stored := run_sat (genStores_asks opened) ran
  rw [List.length_append, List.length_singleton] at stored
  refine ⟨index, instruction_eq entered value opened, ?_⟩
  rw [Context.isExact, beq_iff_eq, ← genTargets_length targeted]
  exact stored

-- all results of the last field are stored
theorem flushLast_asks (tableReg : Nat) (st : FieldState) (some : st.unflushed ≠ 0) (opened : InstrAt c.func index fun i =>
    st.arrayValueExp = .call index ∧ i.op = .call ∧ i.c = 2 ∨ st.arrayValueExp = .vararg index ∧ i.op = .vararg) :
    Sat (fun _ => True) (flushLast tableReg st) c fun _ c' => InstrAt c'.func index (Asks none) := by
  have many : st.arrayValueExp.hasmultret = true := by
    obtain ⟨i, -, ⟨is, -⟩ | ⟨is, -⟩⟩ := opened <;> rw [is] <;> rfl
  unfold flushLast
  rw [if_neg some, if_pos many]
  refine Sat.bind (sat_onFunc ((Func.setreturns_asks opened none).mono fun _ fs asks => ?_))
  have stored : Keeps (Kept index) (Func.setlist tableReg st.numArrayValues none) := Func.setlist_kept _ _ _
  exact Sat.bind (sat_onFunc ((stored fs).mono fun _ _ kept => Sat.pure (asks.kept kept fun _ _ holds => holds)))

theorem sizeTable_keeps {k : Nat} {st : FieldState} (other : k ≠ index) : KeepsAt index (sizeTable k st) := by
  intro c
  refine sat_onFunc (Sat.bind (Sat.bind (Sat.get ?_)))
  split
  · refine Sat.pure (Sat.modify ?_)
    intro i found
    refine ⟨i.a, ?_⟩
    show (c.func.code.set k _)[index]? = _
    rw [List.getElem?_set_ne other]
    exact found
  · exact Sat.throw trivial

theorem table_concludes {before : List Node} {last : Node} {openToken closeToken : Token} (group : isGroup last = true)
    (ran : genNode env (.tableConstructor (before ++ [.tableField none last]) openToken closeToken) c = .ok ((), c')) :
    ∃ index, Concludes env (.listed openToken closeToken) before last c c' index := by
  rw [genNode] at ran
  obtain ⟨k, c₁, emitted, ran⟩ := bind_returns.mp ran
  obtain ⟨_, c₂, set, ran⟩ := bind_returns.mp ran
  obtain ⟨tableReg, c₃, next, ran⟩ := bind_returns.mp ran
  obtain ⟨st, c₄, fields, ran⟩ := bind_returns.mp ran
  obtain ⟨st', c₅, flushed, sized⟩ := bind_returns.mp ran
  rw [if_neg (by simp)] at sized
  obtain ⟨st₁, c₆, first, final⟩ := genFields_last fields
  rw [genFields] at final
  obtain ⟨previous, c₇, ⟨⟩, final⟩ := bind_returns.mp final
  obtain ⟨st₂, c₈, flushed', final⟩ := bind_returns.mp final
  obtain ⟨positional, c₉, field, final⟩ := bind_returns.mp final
  rw [genTableField] at field
  obtain ⟨_, c₁₀, value, ⟨⟩⟩ := bind_returns.mp field
  obtain ⟨fs, c₁₁, ⟨⟩, final⟩ := bind_returns.mp final
  obtain ⟨_, c₁₂, ⟨⟩, final⟩ := bind_returns.mp final
  rw [genFields] at final
  cases final
  obtain ⟨index, opened, behind⟩ := genGroup_opened last group value
  have entered : (Context.listed openToken closeToken).enter env before c = .ok ((), c₈) := by
    refine bind_returns.mpr ⟨k, c₁, emitted, bind_returns.mpr ⟨_, c₂, set, bind_returns.mpr ⟨tableReg, c₃, next, ?_⟩⟩⟩
    exact bind_returns.mpr ⟨st₁, c₆, first, bind_returns.mpr ⟨st₂, c₈, flushed', rfl⟩⟩
  have asks : InstrAt c₅.func index (Asks none) := by
    refine run_sat (flushLast_asks _ _ ?_ ?_) flushed
    · exact Nat.succ_ne_zero _
    · exact opened
  have other : k ≠ index := by
    have start : c₁.func.pc = k + 1 := by
      cases emitted
      exact List.length_append
    have second := (Adds.setExp _).run set
    have third := Adds.nextReg.run next
    have fourth := (genFields_adds tableReg before {}).run first
    have fifth : c₆.func.pc ≤ c₈.func.pc := (Adds.flushField tableReg st₁).run flushed'
    omega
  obtain ⟨i, found, many⟩ := asks.kept (run_sat (sizeTable_keeps other c₅) sized) fun _ _ holds => holds
  exact ⟨index, instruction_eq entered value opened, i, found, fun one => Option.some_ne_none _ (asks_once one many)|>.elim,
    fun wrong => by cases wrong⟩

theorem Concludes.truncated_iff {context : Context} {before : List Node} {last : Node} {index : Nat}
    (ends : Concludes env context before last c c' index)
    (ran : genNode env (context.wrap before last) c = .ok ((), c')) :
    Truncated env context before last c ↔ context.isExact before = true := by
  obtain ⟨i, found, single⟩ := ends.asks
  constructor
  · rintro ⟨c₁, k, ran₁, instruction, j, found₁, one⟩
    cases ran.symm.trans ran₁
    cases ends.instruction.symm.trans instruction
    cases found.symm.trans found₁
    exact single.mp one
  · intro exact
    exact ⟨c', index, ran, ends.instruction, i, found, single.mpr exact⟩

-- parentheses count for an assignment that has as many values as targets, and nowhere else
theorem parentheses_iff (context : Context) (before : List Node) {last : Node} (group : isGroup last = true)
    (ran : genNode env (context.wrap before last) c = .ok ((), c')) :
    Truncated env context before last c ↔ context.isExact before = true := by
  have ends : ∃ index, Concludes env context before last c c' index := by
    cases context with
    | returned => exact return_concludes before group ran
    | assigned targets isLocal =>
        cases isLocal with
        | true => exact local_concludes group ran
        | false => exact assignment_concludes group ran
    | listed openToken closeToken => exact table_concludes group ran
  obtain ⟨index, ends⟩ := ends
  exact ends.truncated_iff ran

def groupSource : List UInt8 := Lex.bytes "a=(f())"

-- `(f())`
def groupedCall : Node :=
  let one (start : Nat) (c : Char) : Token := ⟨.singleChar, start, start + 1, 1, some (ch c)⟩
  .groupedExpression (one 2 '(') (.call (.identifier ⟨.name, 3, 4, 1, none⟩) [] none none false) (one 6 ')')

theorem parentheses_local : Truncated (plainEnv groupSource)
    (.assigned [.identifier ⟨.name, 0, 1, 1, none⟩] true) [] groupedCall {} := by
  have compiles : (genNode (plainEnv groupSource) (.assignmentStatement [.identifier ⟨.name, 0, 1, 1, none⟩] [groupedCall]
      true) {}).toOption.isSome = true := by decide +kernel
  cases ran : genNode (plainEnv groupSource) (.assignmentStatement [.identifier ⟨.name, 0, 1, 1, none⟩] [groupedCall]
      true) {} with
  | error e =>
      rw [ran] at compiles
      cases compiles
  | ok result => exact (parentheses_iff (.assigned _ true) [] rfl ran).mpr rfl

-- `return (f())` is compiled as a tail call that returns all results
theorem return_group_open : ∃ c', genNode (plainEnv groupSource) (.returnStatement [groupedCall]) {} = .ok ((), c') ∧
    c'.func.code = [.instr (.abx .getglobal 0 0), .instr ⟨.tailcall, 0, 1, 0⟩, .instr ⟨.return, 0, 0, 0⟩] ∧
      ¬Truncated (plainEnv groupSource) .returned [] groupedCall {} := by
  have run : (genNode (plainEnv groupSource) (.returnStatement [groupedCall]) {}).toOption.map (·.2.func.code) = some
      [.instr (.abx .getglobal 0 0), .instr ⟨.tailcall, 0, 1, 0⟩, .instr ⟨.return, 0, 0, 0⟩] := by
    decide +kernel
  cases ran : genNode (plainEnv groupSource) (.returnStatement [groupedCall]) {} with
  | error e =>
      rw [ran] at run
      cases run
  | ok result =>
      rw [ran] at run
      obtain ⟨index, ends⟩ := return_concludes [] rfl ran
      refine ⟨result.2, rfl, Option.some.inj run, fun truncated => ?_⟩
      cases (ends.truncated_iff ran).mp truncated

end Zua.Compile
