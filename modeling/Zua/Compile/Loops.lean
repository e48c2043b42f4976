import Zua.Compile.Lexical

/-!
# Loops

Code is only ever added, so that the jump back of a loop goes to an instruction in front of it. Its offset is
negative, and `compiler.zig` computes it as a `usize`.
-/

namespace Zua.Compile
open Code Syntax
open Zua.Lex (Token ch)

/-! ## Code is only added -/

def Longer (fs fs' : Func) : Prop := fs.pc ≤ fs'.pc

theorem longer_steps : Steps Longer where
  reflexive := ⟨fun fs => Nat.le_refl fs.pc, Nat.le_trans⟩
  emit fs w := by simp [Longer, Func.pc]
  patch fs index w := by simp [Longer, Func.pc]
  registers fs _ _ := Nat.le_refl fs.pc
  constants fs _ := Nat.le_refl fs.pc

def Extends (c c' : Compiler) : Prop := Longer c.func c'.func

theorem extends_reflexive : Reflexive Extends where
  refl c := Nat.le_refl c.func.pc
  trans := Nat.le_trans

variable {env : Env} {c : Compiler} {α β : Type}

abbrev Adds (x : CompileM α) : Prop := Keeps Extends x

namespace Adds

theorem bind {x : CompileM α} {f : α → CompileM β} (first : Adds x) (rest : ∀ a, Adds (f a)) : Adds (x >>= f) :=
  Keeps.bind extends_reflexive first rest

theorem pure (a : α) : Adds (Pure.pure a) := Keeps.pure extends_reflexive a

theorem throw (e : Stop) : Adds (MonadExcept.throw e : CompileM α) := Keeps.throw e

theorem onFunc {x : FuncM α} (keeps : Keeps Longer x) : Adds (onFunc x) := fun c => sat_onFunc (keeps c.func)

theorem modifyFunc {f : Func → Func} (same : ∀ fs, (f fs).code = fs.code) : Adds (Compile.onFunc (modify f)) := by
  refine onFunc (.modify fun fs => ?_)
  unfold Longer Func.pc
  rw [same]

theorem getFunc : Adds getFunc := onFunc (.get longer_steps.reflexive)

theorem setExp (e : ExpDesc) : Adds (setExp e) := modifyFunc fun _ => rfl

theorem onExp {f : ExpDesc → FuncM ExpDesc} (keeps : ∀ e, Keeps Longer (f e)) : Adds (onExp f) :=
  getFunc.bind fun _ => (onFunc (keeps _)).bind fun e => setExp e

theorem onExpReg {f : ExpDesc → FuncM (Nat × ExpDesc)} (keeps : ∀ e, Keeps Longer (f e)) : Adds (onExpReg f) :=
  getFunc.bind fun _ => (onFunc (keeps _)).bind fun _ => (setExp _).bind fun _ => pure _

theorem nextReg : Adds nextReg := onExpReg (Func.exp2nextreg_keeps longer_steps)

theorem emitABC (op : OpCode) (a b d : Nat) : Adds (Compile.onFunc (Func.emitABC op a b d)) :=
  onFunc (Func.emitABC_keeps longer_steps op a b d)

theorem emitAsBx (op : OpCode) (a : Nat) (sbx : Int) : Adds (Compile.onFunc (Func.emitAsBx op a sbx)) :=
  onFunc (Func.emitWord_keeps longer_steps _)

theorem emitABx (op : OpCode) (a bx : Nat) : Adds (Compile.onFunc (Func.emitABx op a bx)) :=
  onFunc (Func.emitABx_keeps longer_steps op a bx)

theorem emitReturn (first : Nat) (num : Option Nat) : Adds (Compile.onFunc (Func.emitReturn first num)) :=
  emitABC _ _ _ _

theorem reserveregs (n : Nat) : Adds (Compile.onFunc (Func.reserveregs n)) :=
  onFunc (Func.reserveregs_keeps longer_steps n)

theorem patch (index : Nat) (f : Instruction → Instruction) : Adds (Compile.onFunc (Func.patch index f)) :=
  onFunc (Func.patch_keeps longer_steps index f)

theorem genName (token : Token) : Adds (genName env token) := onFunc (Func.putConstant_keeps longer_steps _)

theorem genLiteral (token : Token) : Adds (genLiteral env token) := by
  unfold Compile.genLiteral
  split
  · split
    · exact (onFunc (Func.putConstant_keeps longer_steps _)).bind fun _ => setExp _
    · exact throw _
  · split
    · exact setExp _
    · exact throw _
  · exact setExp _
  · exact setExp _
  · exact setExp _
  · exact (emitABC _ _ _ _).bind fun _ => setExp _
  · exact (genName token).bind fun _ => setExp _
  · exact throw _

theorem genIdentifier (token : Token) : Adds (genIdentifier env token) := by
  have search : Keeps Longer (Func.findLocalVarByToken env.source token) := by
    refine Keeps.getBind fun fs => ?_
    unfold Sat
    have step : (StateT.lift (fs.searchVar env.source (token.slice env.source) fs.numActiveLocalVars) :
        FuncM (Option Nat)) fs = (fs.searchVar env.source (token.slice env.source) fs.numActiveLocalVars).bind
          fun a => .ok (a, fs) := rfl
    rw [show (liftM (fs.searchVar env.source (token.slice env.source) fs.numActiveLocalVars) :
      FuncM (Option Nat)) fs = _ from step]
    cases fs.searchVar env.source (token.slice env.source) fs.numActiveLocalVars with
    | error e => trivial
    | ok found => exact longer_steps.reflexive.refl fs
  refine (onFunc search).bind fun found => ?_
  refine Adds.bind (Keeps.modify fun c => extends_reflexive.refl c) fun _ => ?_
  split
  · exact setExp _
  · exact (genName token).bind fun _ => setExp _

theorem genField (field separator : Token) : Adds (genField env field separator) := by
  unfold Compile.genField
  split
  · exact (genName field).bind fun _ => onExp fun e => Func.handleSelf_keeps longer_steps e _
  · refine (onExpReg (Func.exp2anyreg_keeps longer_steps)).bind fun _ => ?_
    exact (genName field).bind fun _ => onExp fun e => Func.indexed_keeps longer_steps e _

theorem genCallInstruction (base : Nat) (isStatement : Bool) : Adds (genCallInstruction base isStatement) := by
  refine getFunc.bind fun fs => ?_
  split
  · exact throw _
  · refine (emitABC _ _ _ _).bind fun _ => ?_
    exact (setExp _).bind fun _ => modifyFunc fun _ => rfl

theorem calledRegister : Adds calledRegister := by
  refine getFunc.bind fun fs => ?_
  split
  · exact pure _
  · exact throw _

theorem newLocalvar (name : Token) (index : Nat) : Adds (Compile.onFunc (Func.newLocalvar name index)) := by
  refine onFunc (Keeps.getBind fun fs => ?_)
  split
  · trivial
  · exact Nat.le_refl fs.pc

theorem declareLocals (names : List Token) (index : Nat) : Adds (declareLocals names index) := by
  induction names generalizing index with
  | nil => exact pure _
  | cons name names ih => exact (newLocalvar name index).bind fun _ => ih (index + 1)

theorem localNames (targets : List Node) :
    Adds (targets.mapM fun target => (localName target : CompileM Token)) := by
  induction targets with
  | nil => exact pure _
  | cons target targets ih =>
      rw [List.mapM_cons]
      refine Adds.bind ?_ fun _ => ih.bind fun _ => pure _
      cases target <;> first
        | exact pure _
        | exact fun _ => trivial

theorem storeFrom (targets : List ExpDesc) (n : Nat) : Adds (storeFrom targets n) := by
  induction n with
  | zero => exact pure _
  | succ n ih =>
      refine getFunc.bind fun fs => ?_
      split
      · exact throw _
      · split
        · exact throw _
        · refine (onFunc (Func.storevar_keeps longer_steps _ _)).bind fun _ => ?_
          exact (setExp _).bind fun _ => ih

theorem genStores (targets : List ExpDesc) (numValues : Nat) : Adds (genStores targets numValues) := by
  have drops (n : Nat) : Adds (dropRegisters n) := by
    refine getFunc.bind fun fs => ?_
    split
    · exact throw _
    · exact modifyFunc fun _ => rfl
  unfold Compile.genStores
  dsimp only
  split
  · exact throw _
  · split
    · refine (onExp (Func.adjustAssign_keeps longer_steps _ _)).bind fun _ => ?_
      exact (drops _).bind fun _ => storeFrom _ _
    · split
      · exact throw _
      · refine (onExp (Func.setoneret_keeps longer_steps)).bind fun _ => ?_
        exact (onExp (Func.storevar_keeps longer_steps _)).bind fun _ => storeFrom _ _

theorem genReturnValues (numValues : Nat) : Adds (genReturnValues numValues) := by
  have returns (first : Nat) (num : Option Nat) : Adds (do
      let _ ← Compile.onFunc (Func.emitReturn first num)) := (emitReturn first num).bind fun _ => pure _
  refine getFunc.bind fun fs => ?_
  split
  · refine (onFunc (Func.setreturns_keeps longer_steps _ _)).bind fun _ => ?_
    split
    · split
      · refine (patch _ _).bind fun _ => ?_
        refine (onFunc (Func.getcode_keeps longer_steps _)).bind fun i => ?_
        split
        · exact returns _ _
        · exact throw _
      · exact returns _ _
    · exact returns _ _
  · split
    · exact (onExpReg (Func.exp2anyreg_keeps longer_steps)).bind fun _ => returns _ _
    · refine nextReg.bind fun _ => ?_
      refine getFunc.bind fun fs => ?_
      split
      · exact returns _ _
      · exact throw _

theorem patchHere (index : Nat) : Adds (patchHere index) := by
  refine getFunc.bind fun fs => ?_
  split
  · exact throw _
  · exact patch _ _

theorem patchAll (jumps : List Nat) : Adds (patchAll jumps) := by
  induction jumps with
  | nil => exact pure _
  | cons index rest ih => exact (patchHere index).bind fun _ => ih

theorem genTest : Adds genTest := nextReg.bind fun _ => (emitABC _ _ _ _).bind fun _ => emitAsBx _ _ _

theorem enterLoop : Adds enterLoop := fun c => Nat.le_refl c.func.pc

theorem leaveLoop (outer : Option (List Nat)) : Adds (leaveLoop outer) := fun c => Nat.le_refl c.func.pc

theorem jumpBack (start : Nat) : Adds (jumpBack start) := by
  refine getFunc.bind fun fs => ?_
  split
  · exact throw _
  · split
    · exact throw _
    · exact (emitAsBx _ _ _).bind fun _ => pure _

theorem genBreak : Adds genBreak := by
  refine Adds.bind (Keeps.get extends_reflexive) fun c => ?_
  split
  · exact throw _
  · exact (emitAsBx _ _ _).bind fun _ => Keeps.modify fun c => extends_reflexive.refl c

theorem declareLoopVars (register : Nat) (names : List Token) (index : Nat) :
    Adds (declareLoopVars register names index) := by
  induction names generalizing index with
  | nil => exact pure _
  | cons name names ih =>
      refine (newLocalvar name index).bind fun _ => ?_
      exact Adds.bind (modifyFunc fun _ => rfl) fun _ => ih (index + 1)

theorem leaveFor (baseReg numVars : Nat) (breaks : List Nat) : Adds (leaveFor baseReg numVars breaks) := by
  refine Adds.bind (modifyFunc fun _ => rfl) fun _ => ?_
  exact (patchAll breaks).bind fun _ => modifyFunc fun _ => rfl

theorem flushField (tableReg : Nat) (st : FieldState) : Adds (flushField tableReg st) := by
  unfold Compile.flushField
  split
  · exact pure _
  · refine (onFunc (Func.exp2nextreg_keeps longer_steps _)).bind fun _ => ?_
    split
    · exact (onFunc (Func.setlist_keeps longer_steps _ _ _)).bind fun _ => pure _
    · exact pure _

theorem flushLast (tableReg : Nat) (st : FieldState) : Adds (flushLast tableReg st) := by
  unfold Compile.flushLast
  split
  · exact pure _
  · split
    · refine (onFunc (Func.setreturns_keeps longer_steps _ _)).bind fun _ => ?_
      exact (onFunc (Func.setlist_keeps longer_steps _ _ _)).bind fun _ => pure _
    · refine (onFunc (Func.exp2nextregUnlessVoid_keeps longer_steps _)).bind fun _ => ?_
      exact (onFunc (Func.setlist_keeps longer_steps _ _ _)).bind fun _ => pure _

theorem storeField (tableReg freeReg keyRk : Nat) : Adds (storeField tableReg freeReg keyRk) := by
  refine (onExpReg (Func.exp2RK_keeps longer_steps)).bind fun _ => ?_
  exact (emitABC _ _ _ _).bind fun _ => modifyFunc fun _ => rfl

theorem genClosure (name : Option Node) (isLocal : Bool) : Adds (genClosure env name isLocal) := by
  unfold Compile.genClosure
  refine getFunc.bind fun fs => ?_
  split
  · exact (emitABx _ _ _).bind fun _ => (setExp _).bind fun _ => reserveregs 1
  · split
    · have reserved : Adds (do
          let _ ← Compile.onFunc (Func.emitABx .closure fs.freeRegister 0)
          Compile.onFunc (Func.reserveregs 1)
          Compile.onFunc (Func.adjustlocalvars 1)) :=
        (emitABx _ _ _).bind fun _ => (reserveregs 1).bind fun _ => modifyFunc fun _ => rfl
      split
      · exact (newLocalvar _ 0).bind fun _ => reserved
      · exact reserved
    · refine (emitABx _ _ _).bind fun _ => (reserveregs 1).bind fun _ => ?_
      split
      · refine (genName _).bind fun _ => (setExp _).bind fun _ => ?_
        exact (emitABx _ _ _).bind fun _ => pure _
      · exact pure _

end Adds

mutual

theorem genNode_adds (node : Node) : Adds (genNode env node) := by
  cases node with
  | chunk _ => rw [genNode]; exact .throw _
  | call expression arguments _ _ isStatement =>
      rw [genNode]
      refine (genNode_adds expression).bind fun _ => ?_
      have called : Adds (do
          let base ← calledRegister
          genArguments env arguments
          genCallInstruction base isStatement) :=
        Adds.calledRegister.bind fun base => (genArguments_adds arguments).bind fun _ => .genCallInstruction base _
      split
      · exact called
      · exact Adds.nextReg.bind fun _ => called
  | literal token => rw [genNode]; exact .genLiteral token
  | identifier token => rw [genNode]; exact .genIdentifier token
  | assignmentStatement targets values isLocal =>
      cases isLocal with
      | true =>
          rw [genNode]
          refine (Adds.localNames targets).bind fun names => (Adds.declareLocals names 0).bind fun _ => ?_
          refine (genExpList1_adds values).bind fun _ => ?_
          have rest : Adds (do
              onExp (Func.adjustAssign targets.length values.length)
              onFunc (Func.adjustlocalvars targets.length)) :=
            (Adds.onExp (Func.adjustAssign_keeps longer_steps _ _)).bind fun _ => .modifyFunc fun _ => rfl
          split
          · exact (Adds.setExp _).bind fun _ => rest
          · exact rest
      | false =>
          rw [genNode]
          refine (genTargets_adds targets).bind fun exps => ?_
          exact (genExpList1_adds values).bind fun _ => .genStores exps _
  | fieldAccess operand field separator =>
      rw [genNode]
      exact (genNode_adds operand).bind fun _ => .genField field separator
  | indexAccess operand index _ _ =>
      rw [genNode]
      refine (genNode_adds operand).bind fun _ => ?_
      refine (Adds.onExpReg (Func.exp2anyreg_keeps longer_steps)).bind fun _ => ?_
      refine Adds.getFunc.bind fun fs => (Adds.setExp _).bind fun _ => (genNode_adds index).bind fun _ => ?_
      refine (Adds.onExp (Func.dischargevars_keeps longer_steps)).bind fun _ => ?_
      exact .onExp fun _ => Func.indexed_keeps longer_steps _ _
  | ifStatement clauses =>
      rw [genNode]
      exact (genClauses_adds clauses []).bind fun escapes => .patchAll escapes
  | ifClause _ _ _ => rw [genNode]; exact .throw _
  | returnStatement values =>
      rw [genNode]
      split
      · exact (Adds.emitReturn _ _).bind fun _ => .pure _
      · split
        · exact .throw _
        · exact (genExpList1_adds values).bind fun _ => .genReturnValues _
  | whileStatement condition body =>
      rw [genNode]
      refine Adds.getFunc.bind fun fs => (genNode_adds condition).bind fun _ => Adds.genTest.bind fun jump => ?_
      refine Adds.enterLoop.bind fun outer => (genBody_adds body).bind fun _ => (Adds.jumpBack _).bind fun _ => ?_
      exact (Adds.leaveLoop outer).bind fun breaks => (Adds.patchHere jump).bind fun _ => .patchAll breaks
  | doStatement body =>
      rw [genNode]
      exact genBody_adds body
  | repeatStatement body condition =>
      rw [genNode]
      refine Adds.getFunc.bind fun fs => Adds.enterLoop.bind fun outer => (genBody_adds body).bind fun _ => ?_
      refine (genNode_adds condition).bind fun _ => Adds.nextReg.bind fun _ => (Adds.emitABC _ _ _ _).bind fun _ => ?_
      exact (Adds.jumpBack _).bind fun _ => (Adds.leaveLoop outer).bind fun breaks => .patchAll breaks
  | breakStatement _ => rw [genNode]; exact .genBreak
  | forStatementNumeric name start stop increment body =>
      rw [genNode]
      refine Adds.getFunc.bind fun fs => (Adds.reserveregs 4).bind fun _ => ?_
      refine (genNode_adds start).bind fun _ => Adds.nextReg.bind fun _ => ?_
      refine (genNode_adds stop).bind fun _ => Adds.nextReg.bind fun _ => ?_
      refine (genIncrement_adds increment).bind fun _ => Adds.nextReg.bind fun _ => ?_
      refine (Adds.emitAsBx _ _ _).bind fun _ => Adds.enterLoop.bind fun outer => ?_
      refine (Adds.declareLoopVars _ _ _).bind fun _ => (genBody_adds body).bind fun _ => ?_
      exact (Adds.emitAsBx _ _ _).bind fun _ => (Adds.leaveLoop outer).bind fun breaks => .leaveFor _ _ breaks
  | forStatementGeneric names expressions body =>
      rw [genNode]
      refine Adds.getFunc.bind fun fs => (Adds.reserveregs _).bind fun _ => (genArguments_adds expressions).bind fun _ => ?_
      refine (Adds.emitABC _ _ _ _).bind fun start => (Adds.emitAsBx _ _ _).bind fun jump => ?_
      refine Adds.enterLoop.bind fun outer => (Adds.declareLoopVars _ _ _).bind fun _ => ?_
      refine (genBody_adds body).bind fun _ => (Adds.jumpBack _).bind fun _ => (Adds.patchHere jump).bind fun _ => ?_
      exact (Adds.leaveLoop outer).bind fun breaks => .leaveFor _ _ breaks
  | functionDeclaration name parameters body isLocal =>
      rw [genNode]
      intro c
      -- the function around it is taken up again as it was
      refine Sat.bind (Sat.get (Sat.bind (Sat.set ?_)))
      refine Sat.last fun _ _ => Sat.last fun _ _ => Sat.last fun _ _ => Sat.last fun _ c' => ?_
      refine Sat.bind (Sat.modify ?_)
      exact Adds.genClosure name isLocal { c' with func := c.func }
  | tableConstructor fields _ _ =>
      rw [genNode]
      refine (Adds.emitABC _ _ _ _).bind fun index => (Adds.setExp _).bind fun _ => Adds.nextReg.bind fun tableReg => ?_
      refine (genFields_adds tableReg fields {}).bind fun st => (Adds.flushLast tableReg st).bind fun st => ?_
      split
      · exact .pure _
      · exact .patch _ _
  | tableField _ _ => rw [genNode]; exact .throw _
  | unaryExpression op argument =>
      rw [genNode]
      exact (genNode_adds argument).bind fun _ => .onExp (Func.unaryOperator_keeps longer_steps _ op)
  | binaryExpression op left right =>
      rw [genNode]
      refine (genNode_adds left).bind fun _ => (Adds.onExp (Func.leftOperand_keeps longer_steps op)).bind fun _ => ?_
      refine Adds.getFunc.bind fun fs => (genNode_adds right).bind fun _ => ?_
      exact .onExp (Func.binaryOperator_keeps longer_steps _ op _)
  | groupedExpression _ expression _ =>
      rw [genNode]
      exact genNode_adds expression

theorem genBody_adds (nodes : List Node) : Adds (genBody env nodes) := by
  cases nodes with
  | nil => rw [genBody]; exact .pure _
  | cons node rest =>
      rw [genBody]
      exact (genNode_adds node).bind fun _ => genBody_adds rest

theorem genArguments_adds (nodes : List Node) : Adds (genArguments env nodes) := by
  cases nodes with
  | nil => rw [genArguments]; exact .pure _
  | cons node rest =>
      rw [genArguments]
      exact (genNode_adds node).bind fun _ => Adds.nextReg.bind fun _ => genArguments_adds rest

theorem genExpList1_adds (nodes : List Node) : Adds (genExpList1 env nodes) := by
  cases nodes with
  | nil => rw [genExpList1]; exact .pure _
  | cons node rest =>
      rw [genExpList1]
      refine (genNode_adds node).bind fun _ => ?_
      split
      · exact .pure _
      · exact Adds.nextReg.bind fun _ => genExpList1_adds rest

theorem genTargets_adds (nodes : List Node) : Adds (genTargets env nodes) := by
  cases nodes with
  | nil => rw [genTargets]; exact .pure _
  | cons node rest =>
      rw [genTargets]
      refine (genNode_adds node).bind fun _ => Adds.getFunc.bind fun fs => ?_
      exact (genTargets_adds rest).bind fun exps => .pure _

theorem genIncrement_adds (increment : Option Node) : Adds (genIncrement env increment) := by
  cases increment with
  | none => rw [genIncrement]; exact .setExp _
  | some node => rw [genIncrement]; exact genNode_adds node

theorem genTableField_adds (field : Node) : Adds (genTableField env field) := by
  cases field with
  | tableField key value =>
      cases key with
      | none =>
          rw [genTableField]
          exact (genNode_adds value).bind fun _ => .pure _
      | some key =>
          rw [genTableField]
          refine Adds.getFunc.bind fun fs => Adds.bind ?_ fun tableReg => ?_
          · cases fs.curExp <;> first
              | exact Adds.pure _
              | exact fun _ => trivial
          · refine (genNode_adds key).bind fun _ => (Adds.onExpReg (Func.exp2RK_keeps longer_steps)).bind fun keyRk => ?_
            exact (genNode_adds value).bind fun _ => (Adds.storeField _ _ _).bind fun _ => .pure _
  | _ => exact fun _ => trivial

theorem genFields_adds (tableReg : Nat) (fields : List Node) (st : FieldState) :
    Adds (genFields env tableReg fields st) := by
  cases fields with
  | nil => rw [genFields]; exact .pure _
  | cons field rest =>
      rw [genFields]
      refine Adds.getFunc.bind fun previous => (Adds.flushField tableReg st).bind fun st => ?_
      refine (genTableField_adds field).bind fun positional => Adds.getFunc.bind fun fs => ?_
      exact (Adds.setExp _).bind fun _ => genFields_adds tableReg rest _

theorem genClause_adds (last : Bool) (clause : Node) : Adds (genClause env last clause) := by
  cases clause with
  | ifClause token condition body =>
      cases condition with
      | none =>
          rw [genClause]
          exact (genBody_adds body).bind fun _ => .pure _
      | some condition =>
          rw [genClause]
          refine (genNode_adds condition).bind fun _ => Adds.genTest.bind fun jump => (genBody_adds body).bind fun _ => ?_
          have ends (escapes : List Nat) : Adds (do patchHere jump; return escapes) :=
            (Adds.patchHere jump).bind fun _ => .pure _
          split
          · exact ends _
          · exact (Adds.emitAsBx _ _ _).bind fun _ => ends _
  | _ => exact fun _ => trivial

theorem genClauses_adds (clauses : List Node) (escapes : List Nat) : Adds (genClauses env clauses escapes) := by
  cases clauses with
  | nil => rw [genClauses]; exact .pure _
  | cons clause rest =>
      rw [genClauses]
      exact (genClause_adds _ clause).bind fun _ => genClauses_adds rest _

end

/-! ## The jump back -/

def isLoop : Node → Bool
  | .whileStatement _ _ | .repeatStatement _ _ => true
  | _ => false

-- what is compiled of a loop in front of the jump back
def genLoopParts (env : Env) : Node → CompileM Unit
  | .whileStatement condition body => do
      genNode env condition
      let _ ← genTest
      let _ ← enterLoop
      genBody env body
  | .repeatStatement body condition => do
      let _ ← enterLoop
      genBody env body
      genNode env condition
      let _ ← nextReg
      let _ ← onFunc (Func.emitABC .test 0 0 1)
  | _ => return ()

theorem jumpBack_overflows {start : Nat} (behind : start ≤ c.func.pc) : jumpBack start c = .error .overflow := by
  show (if start < c.func.pc + 1 then _ else _ : CompileM Unit) c = _
  rw [if_pos (by omega)]
  rfl

theorem Adds.run {x : CompileM α} {a : α} {c' : Compiler} (adds : Adds x) (run : x c = .ok (a, c')) :
    c.func.pc ≤ c'.func.pc := by
  have kept := adds c
  unfold Sat at kept
  rw [run] at kept
  exact kept

def Overflows (x : CompileM Unit) (parts : CompileM α) (c : Compiler) : Prop :=
  x c = (parts c).bind fun _ => .error .overflow

theorem Overflows.bind {x : CompileM β} {f : β → CompileM Unit} {g : β → CompileM α}
    (h : ∀ b c', x c = .ok (b, c') → Overflows (f b) (g b) c') : Overflows (x >>= f) (x >>= g) c := by
  show Except.bind (x c) _ = Except.bind (Except.bind (x c) _) _
  cases run : x c with
  | error e => rfl
  | ok result => exact h result.1 result.2 run

theorem Overflows.last {x : CompileM β} {f : β → CompileM Unit}
    (h : ∀ b c', x c = .ok (b, c') → f b c' = .error .overflow) : Overflows (x >>= f) x c := by
  show Except.bind (x c) _ = Except.bind (x c) _
  cases run : x c with
  | error e => rfl
  | ok result => exact h result.1 result.2 run

-- what comes after does not matter
theorem Overflows.stop {x : CompileM Unit} {f : Unit → CompileM Unit} {parts : CompileM α} (h : Overflows x parts c) :
    Overflows (x >>= f) parts c := by
  show Except.bind (x c) _ = _
  rw [h]
  cases parts c <;> rfl

theorem Overflows.getFunc {f : Func → CompileM Unit} {parts : CompileM α} (h : Overflows (f c.func) parts c) :
    Overflows (getFunc >>= f) parts c := h

theorem jumpBack_last {start : Nat} {f : Unit → CompileM Unit} (behind : start ≤ c.func.pc) :
    (jumpBack start >>= f) c = .error .overflow := by
  show Except.bind (jumpBack start c) _ = _
  rw [jumpBack_overflows behind]
  rfl

-- a loop overflows as soon as its parts are compiled
theorem genNode_loop (loop : Node) (h : isLoop loop = true) (c : Compiler) :
    Overflows (genNode env loop) (genLoopParts env loop) c := by
  cases loop with
  | whileStatement condition body =>
      rw [genNode, genLoopParts]
      refine .getFunc (.bind fun _ c₁ run₁ => .bind fun jump c₂ run₂ => .bind fun outer c₃ run₃ => .last fun _ c₄ run₄ => ?_)
      have le₁ := (genNode_adds condition).run run₁
      have le₂ := Adds.genTest.run run₂
      have le₃ := Adds.enterLoop.run run₃
      have le₄ := (genBody_adds body).run run₄
      exact jumpBack_last (le₁.trans (le₂.trans (le₃.trans le₄)))
  | repeatStatement body condition =>
      rw [genNode, genLoopParts]
      refine .getFunc (.bind fun outer c₁ run₁ => .bind fun _ c₂ run₂ => .bind fun _ c₃ run₃ => ?_)
      refine .bind fun _ c₄ run₄ => .bind fun _ c₅ run₅ => ?_
      have le₁ := Adds.enterLoop.run run₁
      have le₂ := (genBody_adds body).run run₂
      have le₃ := (genNode_adds condition).run run₃
      have le₄ := Adds.nextReg.run run₄
      have le₅ := (Adds.emitABC _ _ _ _).run run₅
      exact jumpBack_last (le₁.trans (le₂.trans (le₃.trans (le₄.trans le₅))))
  | _ => cases h

-- what is compiled of a chunk in front of the jump back
def genUpTo (env : Env) (before : List Node) (loop : Node) : CompileM Unit := do
  genStatements env before
  genLoopParts env loop

theorem genStatements_loop (env : Env) (before after : List Node) {loop : Node} (h : isLoop loop = true) (c : Compiler) :
    Overflows (genStatements env (before ++ loop :: after)) (genUpTo env before loop) c := by
  induction before generalizing c with
  | nil => exact (genNode_loop loop h c).stop
  | cons node before ih =>
      unfold Overflows
      show Except.bind (genNode env node c) _ = Except.bind (Except.bind (Except.bind (genNode env node c) _) _) _
      cases genNode env node c with
      | error e => rfl
      | ok result =>
          obtain ⟨_, c₁⟩ := result
          show (if c₁.func.freeRegister ≤ c₁.func.maxStackSize.val ∧
              c₁.func.numActiveLocalVars ≤ c₁.func.freeRegister then _ else _ : CompileM Unit) c₁ =
            Except.bind (Except.bind ((if c₁.func.freeRegister ≤ c₁.func.maxStackSize.val ∧
              c₁.func.numActiveLocalVars ≤ c₁.func.freeRegister then _ else _ : CompileM Unit) c₁) _) _
          split
          · exact ih _
          · rfl

theorem loops_overflow (env : Env) (breakList : Option (List Nat)) (before after : List Node) (loop : Node)
    (h : isLoop loop = true) :
    compileTree env breakList (.chunk (before ++ loop :: after)) =
      (genUpTo env before loop { breakList }).bind fun _ => .error .overflow := by
  have overflows := genStatements_loop env before after h { breakList }
  show Except.bind (Except.bind (genStatements env (before ++ loop :: after) { breakList }) _) _ = _
  rw [overflows]
  cases genUpTo env before loop { breakList } <;> rfl

-- no chunk with a loop has any code: a part of it fails, or the jump back does
theorem loops_never_compile (env : Env) (breakList : Option (List Nat)) (before after : List Node) (loop : Node)
    (h : isLoop loop = true) :
    (¬∃ f, compileTree env breakList (.chunk (before ++ loop :: after)) = .ok f) ∧
      ((∃ c, genUpTo env before loop { breakList } = .ok ((), c)) →
        compileTree env breakList (.chunk (before ++ loop :: after)) = .error .overflow) := by
  rw [loops_overflow env breakList before after loop h]
  constructor
  · rintro ⟨f, compiled⟩
    cases run : genUpTo env before loop { breakList } with
    | error e =>
        rw [run] at compiled
        cases compiled
    | ok result =>
        rw [run] at compiled
        cases compiled
  · rintro ⟨c, run⟩
    rw [run]
    rfl

-- `while x do x = nil break end`
def whileSource : List UInt8 := Lex.bytes "while x do x = nil break end"

def whileLoop : Node :=
  .whileStatement (.identifier ⟨.name, 6, 7, 1, none⟩)
    [.assignmentStatement [.identifier ⟨.name, 11, 12, 1, none⟩] [.literal ⟨.keywordNil, 15, 18, 1, none⟩] false,
      .breakStatement ⟨.keywordBreak, 19, 24, 1, none⟩]

theorem whileLoop_parts : ∃ c, genUpTo (plainEnv whileSource) [] whileLoop {} = .ok ((), c) := by
  have run : (genUpTo (plainEnv whileSource) [] whileLoop {}).toOption.isSome = true := by
    decide +kernel
  cases compiled : genUpTo (plainEnv whileSource) [] whileLoop {} with
  | error e =>
      rw [compiled] at run
      cases run
  | ok result => exact ⟨result.2, rfl⟩

theorem whileLoop_never_compiles : ¬∃ f, compileTree (plainEnv whileSource) none (.chunk [whileLoop]) = .ok f :=
  (loops_never_compile (plainEnv whileSource) none [] [] whileLoop rfl).1

theorem whileLoop_overflows : compileTree (plainEnv whileSource) none (.chunk [whileLoop]) = .error .overflow := by
  obtain ⟨c, run⟩ := whileLoop_parts
  have overflows := loops_overflow (plainEnv whileSource) none [] [] whileLoop rfl
  rw [List.nil_append] at overflows
  rw [overflows, show genUpTo (plainEnv whileSource) [] whileLoop { breakList := none } = _ from run]
  rfl

end Zua.Compile
