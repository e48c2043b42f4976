import Zua.Compile.Loops
import Zua.Compile.Statements
import Zua.Parse.Breaks

/-!
# Lists of breaks

A break is recorded in the list of the loop around it that is compiled at the moment, whichever function it belongs
to. Where the breaks of every function are in loops of that function, a list has jumps of its own function only.
-/

namespace Zua.Compile
open Code Syntax
open Parse (breaksOwn breaksOwnOf breaksOwn?)
open Zua.Lex (Token ch)

/-! ## The list is left alone -/

def SameList (c c' : Compiler) : Prop := c'.breakList = c.breakList

theorem sameList_reflexive : Reflexive SameList := ⟨fun _ => rfl, fun first second => second.trans first⟩

variable {env : Env} {c : Compiler} {α β : Type}

abbrev Silent (x : CompileM α) : Prop := Keeps SameList x

namespace Silent

theorem bind {x : CompileM α} {f : α → CompileM β} (first : Silent x) (rest : ∀ a, Silent (f a)) : Silent (x >>= f) :=
  Keeps.bind sameList_reflexive first rest

theorem pure (a : α) : Silent (Pure.pure a) := Keeps.pure sameList_reflexive a

theorem throw (e : Stop) : Silent (MonadExcept.throw e : CompileM α) := Keeps.throw e

theorem onFunc (x : FuncM α) : Silent (onFunc x) := fun _ => sat_onFunc (Sat.always fun _ _ => rfl)

theorem getFunc : Silent getFunc := onFunc _

theorem setExp (e : ExpDesc) : Silent (setExp e) := onFunc _

theorem onExp (f : ExpDesc → FuncM ExpDesc) : Silent (onExp f) :=
  getFunc.bind fun _ => (onFunc _).bind fun e => setExp e

theorem onExpReg (f : ExpDesc → FuncM (Nat × ExpDesc)) : Silent (onExpReg f) :=
  getFunc.bind fun _ => (onFunc _).bind fun _ => (setExp _).bind fun _ => pure _

theorem nextReg : Silent nextReg := onExpReg _

theorem genName (token : Token) : Silent (genName env token) := onFunc _

theorem genLiteral (token : Token) : Silent (genLiteral env token) := by
  unfold Compile.genLiteral
  split
  · split
    · exact (onFunc _).bind fun _ => setExp _
    · exact throw _
  · split
    · exact setExp _
    · exact throw _
  · exact setExp _
  · exact setExp _
  · exact setExp _
  · exact (onFunc _).bind fun _ => setExp _
  · exact (genName token).bind fun _ => setExp _
  · exact throw _

theorem genIdentifier (token : Token) : Silent (genIdentifier env token) := by
  refine (onFunc _).bind fun found => ?_
  refine Silent.bind (Keeps.modify fun _ => rfl) fun _ => ?_
  split
  · exact setExp _
  · exact (genName token).bind fun _ => setExp _

theorem genField (field separator : Token) : Silent (genField env field separator) := by
  unfold Compile.genField
  split
  · exact (genName field).bind fun _ => onExp _
  · exact (onExpReg _).bind fun _ => (genName field).bind fun _ => onExp _

theorem genCallInstruction (base : Nat) (isStatement : Bool) : Silent (genCallInstruction base isStatement) := by
  refine getFunc.bind fun fs => ?_
  split
  · exact throw _
  · exact (onFunc _).bind fun _ => (setExp _).bind fun _ => onFunc _

theorem calledRegister : Silent calledRegister := by
  refine getFunc.bind fun fs => ?_
  split
  · exact pure _
  · exact throw _

theorem declareLocals (names : List Token) (index : Nat) : Silent (declareLocals names index) := by
  induction names generalizing index with
  | nil => exact pure _
  | cons name names ih => exact (onFunc _).bind fun _ => ih (index + 1)

theorem localNames (targets : List Node) :
    Silent (targets.mapM fun target => (localName target : CompileM Token)) := by
  induction targets with
  | nil => exact pure _
  | cons target targets ih =>
      rw [List.mapM_cons]
      refine Silent.bind ?_ fun _ => ih.bind fun _ => pure _
      cases target <;> first
        | exact pure _
        | exact fun _ => trivial

theorem storeFrom (targets : List ExpDesc) (n : Nat) : Silent (storeFrom targets n) := by
  induction n with
  | zero => exact pure _
  | succ n ih =>
      refine getFunc.bind fun fs => ?_
      split
      · exact throw _
      split
      · exact throw _
      · exact (onFunc _).bind fun _ => (setExp _).bind fun _ => ih

theorem genStores (targets : List ExpDesc) (numValues : Nat) : Silent (genStores targets numValues) := by
  unfold Compile.genStores
  dsimp only
  split
  · exact throw _
  split
  · refine (onExp _).bind fun _ => Silent.bind (getFunc.bind fun fs => ?_) fun _ => storeFrom _ _
    split
    · exact throw _
    · exact onFunc _
  split
  · exact throw _
  · exact (onExp _).bind fun _ => (onExp _).bind fun _ => storeFrom _ _

theorem genReturnValues (numValues : Nat) : Silent (genReturnValues numValues) := by
  refine getFunc.bind fun fs => ?_
  split
  · refine (onFunc _).bind fun _ => ?_
    split
    · split
      · refine (onFunc _).bind fun _ => (onFunc _).bind fun i => ?_
        split
        · exact (onFunc _).bind fun _ => pure _
        · exact throw _
      · exact (onFunc _).bind fun _ => pure _
    · exact (onFunc _).bind fun _ => pure _
  split
  · exact (onExpReg _).bind fun _ => (onFunc _).bind fun _ => pure _
  · refine nextReg.bind fun _ => getFunc.bind fun fs => ?_
    split
    · exact (onFunc _).bind fun _ => pure _
    · exact throw _

theorem patchHere (index : Nat) : Silent (patchHere index) := by
  refine getFunc.bind fun fs => ?_
  split
  · exact throw _
  · exact onFunc _

theorem patchAll (jumps : List Nat) : Silent (patchAll jumps) := by
  induction jumps with
  | nil => exact pure _
  | cons index rest ih => exact (patchHere index).bind fun _ => ih

theorem genTest : Silent genTest := nextReg.bind fun _ => (onFunc _).bind fun _ => onFunc _

theorem declareLoopVars (register : Nat) (names : List Token) (index : Nat) :
    Silent (declareLoopVars register names index) := by
  induction names generalizing index with
  | nil => exact pure _
  | cons name names ih => exact (onFunc _).bind fun _ => (onFunc _).bind fun _ => ih (index + 1)

theorem leaveFor (baseReg numVars : Nat) (breaks : List Nat) : Silent (leaveFor baseReg numVars breaks) :=
  (onFunc _).bind fun _ => (patchAll breaks).bind fun _ => onFunc _

theorem flushField (tableReg : Nat) (st : FieldState) : Silent (flushField tableReg st) := by
  unfold Compile.flushField
  split
  · exact pure _
  · refine (onFunc _).bind fun _ => ?_
    split
    · exact (onFunc _).bind fun _ => pure _
    · exact pure _

theorem flushLast (tableReg : Nat) (st : FieldState) : Silent (flushLast tableReg st) := by
  unfold Compile.flushLast
  split
  · exact pure _
  split
  · exact (onFunc _).bind fun _ => (onFunc _).bind fun _ => pure _
  · exact (onFunc _).bind fun _ => (onFunc _).bind fun _ => pure _

theorem storeField (tableReg freeReg keyRk : Nat) : Silent (storeField tableReg freeReg keyRk) :=
  (onExpReg _).bind fun _ => (onFunc _).bind fun _ => onFunc _

theorem genClosure (name : Option Node) (isLocal : Bool) : Silent (genClosure env name isLocal) := by
  unfold Compile.genClosure
  refine getFunc.bind fun fs => ?_
  split
  · exact (onFunc _).bind fun _ => (setExp _).bind fun _ => onFunc _
  split
  · split
    · exact (onFunc _).bind fun _ => (onFunc _).bind fun _ => (onFunc _).bind fun _ => onFunc _
    · exact (onFunc _).bind fun _ => (onFunc _).bind fun _ => onFunc _
  · refine (onFunc _).bind fun _ => (onFunc _).bind fun _ => ?_
    split
    · exact (genName _).bind fun _ => (setExp _).bind fun _ => (onFunc _).bind fun _ => pure _
    · exact pure _

end Silent

/-! ## What is recorded -/

-- the breaks that are recorded have their jumps in the code that the function gets; there are none outside of loops
structure Records (inLoop : Bool) (c c' : Compiler) : Prop where
  adds : c.func.pc ≤ c'.func.pc
  list : ∃ breaks, c'.breakList = c.breakList.map (· ++ breaks) ∧ (inLoop = false → breaks = []) ∧
    ∀ index ∈ breaks, c.func.pc ≤ index ∧ index < c'.func.pc

theorem records_reflexive (inLoop : Bool) : Reflexive (Records inLoop) where
  refl c := by
    refine ⟨le_rfl, [], ?_, fun _ => rfl, fun _ none => (List.not_mem_nil none).elim⟩
    cases c.breakList with
    | none => rfl
    | some breaks => simp
  trans := by
    rintro c c' c'' ⟨adds, breaks, list, none, own⟩ ⟨adds', breaks', list', none', own'⟩
    refine ⟨adds.trans adds', breaks ++ breaks', ?_, ?_, ?_⟩
    · rw [list', list, Option.map_map]
      congr 1
      funext breaks
      exact (List.append_assoc _ _ _)
    · intro outside
      rw [none outside, none' outside]
      rfl
    · intro index member
      rcases List.mem_append.mp member with first | second
      · exact ⟨(own index first).1, (own index first).2.trans_le adds'⟩
      · exact ⟨adds.trans (own' index second).1, (own' index second).2⟩

abbrev Recording (inLoop : Bool) (x : CompileM α) : Prop := Keeps (Records inLoop) x

theorem records_same {inLoop : Bool} {c' : Compiler} (adds : c.func.pc ≤ c'.func.pc) (same : SameList c c') :
    Records inLoop c c' := by
  refine ⟨adds, [], ?_, fun _ => rfl, fun _ none => (List.not_mem_nil none).elim⟩
  rw [show c'.breakList = c.breakList from same]
  cases c.breakList with
  | none => rfl
  | some breaks => simp

namespace Recording

variable {inLoop : Bool}

theorem bind {x : CompileM α} {f : α → CompileM β} (first : Recording inLoop x) (rest : ∀ a, Recording inLoop (f a)) :
    Recording inLoop (x >>= f) := Keeps.bind (records_reflexive inLoop) first rest

theorem pure (a : α) : Recording inLoop (Pure.pure a) := Keeps.pure (records_reflexive inLoop) a

theorem throw (e : Stop) : Recording inLoop (MonadExcept.throw e : CompileM α) := Keeps.throw e

-- what leaves the list alone
theorem silent {x : CompileM α} (adds : Adds x) (silent : Silent x) : Recording inLoop x := fun c =>
  ((adds c).and (silent c)).mono fun _ _ h => records_same h.1 h.2

theorem getFunc : Recording inLoop getFunc := silent .getFunc .getFunc

theorem setExp (e : ExpDesc) : Recording inLoop (setExp e) := silent (.setExp e) (.setExp e)

theorem onFunc {x : FuncM α} (keeps : Keeps Longer x) : Recording inLoop (onFunc x) := silent (.onFunc keeps) (.onFunc x)

theorem onExp {f : ExpDesc → FuncM ExpDesc} (keeps : ∀ e, Keeps Longer (f e)) : Recording inLoop (onExp f) :=
  silent (.onExp keeps) (.onExp f)

theorem onExpReg {f : ExpDesc → FuncM (Nat × ExpDesc)} (keeps : ∀ e, Keeps Longer (f e)) :
    Recording inLoop (onExpReg f) := silent (.onExpReg keeps) (.onExpReg f)

theorem nextReg : Recording inLoop nextReg := silent .nextReg .nextReg

theorem emitABC (op : OpCode) (a b d : Nat) : Recording inLoop (Compile.onFunc (Func.emitABC op a b d)) :=
  silent (.emitABC op a b d) (.onFunc _)

theorem emitAsBx (op : OpCode) (a : Nat) (sbx : Int) : Recording inLoop (Compile.onFunc (Func.emitAsBx op a sbx)) :=
  silent (.emitAsBx op a sbx) (.onFunc _)

theorem reserveregs (n : Nat) : Recording inLoop (Compile.onFunc (Func.reserveregs n)) :=
  silent (.reserveregs n) (.onFunc _)

theorem genTest : Recording inLoop genTest := silent .genTest .genTest

theorem patchHere (index : Nat) : Recording inLoop (patchHere index) := silent (.patchHere index) (.patchHere index)

theorem patchAll (jumps : List Nat) : Recording inLoop (patchAll jumps) := silent (.patchAll jumps) (.patchAll jumps)

theorem leaveFor (baseReg numVars : Nat) (breaks : List Nat) : Recording inLoop (leaveFor baseReg numVars breaks) :=
  silent (.leaveFor baseReg numVars breaks) (.leaveFor baseReg numVars breaks)

theorem genBreak : Recording true genBreak := by
  intro c
  refine Sat.bind (Sat.get ?_)
  split
  · trivial
  · rename_i breaks list
    refine Sat.bind (sat_onFunc (Sat.bind (Sat.get (Sat.bind (Sat.set (Sat.pure (Sat.modify ?_)))))))
    have longer : c.func.pc < (c.func.code ++ [Word.instr (.asbx .jmp 0 0)]).length := by simp [Func.pc]
    refine ⟨longer.le, [c.func.pc], ?_, fun outside => Bool.noConfusion outside, ?_⟩
    · rw [list]
      rfl
    · intro index member
      rw [List.mem_singleton.mp member]
      exact ⟨le_rfl, longer⟩

end Recording

-- while the body of a loop is compiled, and up to its end, only the code counts
section

variable {c₀ : Compiler} {inLoop : Bool} {Q : β → Compiler → Prop}

theorem sat_adds {x : CompileM α} {f : α → CompileM β} (adds : Adds x) (longer : c₀.func.pc ≤ c.func.pc)
    (rest : ∀ a c', c₀.func.pc ≤ c'.func.pc → Sat (fun _ => True) (f a) c' Q) : Sat (fun _ => True) (x >>= f) c Q :=
  Sat.bind ((adds c).mono fun a c' more => rest a c' (longer.trans more))

theorem sat_enterLoop {f : Option (List Nat) → CompileM β}
    (rest : Sat (fun _ => True) (f c.breakList) { c with breakList := some [] } Q) :
    Sat (fun _ => True) (enterLoop >>= f) c Q :=
  Sat.bind (Sat.bind (Sat.get (Sat.bind (Sat.set (Sat.pure rest)))))

theorem sat_leaveLoop {f : List Nat → CompileM β} (longer : c₀.func.pc ≤ c.func.pc)
    (rest : ∀ breaks, Recording inLoop (f breaks)) :
    Sat (fun _ => True) (leaveLoop c₀.breakList >>= f) c fun _ c' => Records inLoop c₀ c' := by
  have back : Records inLoop c₀ { c with breakList := c₀.breakList } := records_same longer rfl
  refine Sat.bind (Sat.bind (Sat.get (Sat.bind (Sat.set (Sat.pure ?_)))))
  exact (rest _ _).mono fun _ c' after => (records_reflexive inLoop).trans back after

end

theorem Recording.same {x : CompileM α} (h : Recording false x) : Silent x := fun c =>
  (h c).mono fun _ c' records => by
    obtain ⟨-, breaks, list, none, -⟩ := records
    show c'.breakList = c.breakList
    rw [list, none rfl]
    cases c.breakList with
    | none => rfl
    | some breaks => simp

theorem function_silent {name : Option Node} {parameters : List Token} {body : List Node} {isLocal : Bool}
    (inside : Silent (genBody env body)) : Silent (genNode env (.functionDeclaration name parameters body isLocal)) := by
  rw [genNode]
  intro c
  refine Sat.bind (Sat.get (Sat.bind (Sat.set ?_)))
  have parts : Silent (do
      declareLocals parameters 0
      onFunc (Func.adjustlocalvars parameters.length)
      genBody env body
      let _ ← onFunc (Func.emitReturn 0 (some 0))
      modify fun child => { child with func := c.func }
      genClosure env name isLocal) := by
    refine (Silent.declareLocals parameters 0).bind fun _ => (Silent.onFunc _).bind fun _ => inside.bind fun _ => ?_
    exact (Silent.onFunc _).bind fun _ => Silent.bind (Keeps.modify fun _ => rfl) fun _ => .genClosure name isLocal
  exact parts { c with func := {} }

mutual

theorem genNode_records {inLoop : Bool} (node : Node) (own : breaksOwn inLoop node = true) :
    Recording inLoop (genNode env node) := by
  cases node with
  | chunk _ => rw [genNode]; exact .throw _
  | call expression arguments _ _ isStatement =>
      rw [genNode]
      simp only [breaksOwn, Bool.and_eq_true] at own
      refine (genNode_records expression own.1).bind fun _ => ?_
      have called : Recording inLoop (do
          let base ← calledRegister
          genArguments env arguments
          genCallInstruction base isStatement) :=
        (Recording.silent .calledRegister .calledRegister).bind fun base =>
          (genArguments_records arguments own.2).bind fun _ =>
            .silent (.genCallInstruction base _) (.genCallInstruction base _)
      split
      · exact called
      · exact Recording.nextReg.bind fun _ => called
  | literal token => rw [genNode]; exact .silent (.genLiteral token) (.genLiteral token)
  | identifier token => rw [genNode]; exact .silent (.genIdentifier token) (.genIdentifier token)
  | assignmentStatement targets values isLocal =>
      simp only [breaksOwn, Bool.and_eq_true] at own
      cases isLocal with
      | true =>
          rw [genNode]
          refine (Recording.silent (.localNames targets) (.localNames targets)).bind fun names => ?_
          refine (Recording.silent (.declareLocals names 0) (.declareLocals names 0)).bind fun _ => ?_
          refine (genExpList1_records values own.2).bind fun _ => ?_
          have rest : Recording inLoop (do
              onExp (Func.adjustAssign targets.length values.length)
              onFunc (Func.adjustlocalvars targets.length)) :=
            (Recording.onExp (Func.adjustAssign_keeps longer_steps _ _)).bind fun _ =>
              .silent (.modifyFunc fun _ => rfl) (.onFunc _)
          split
          · exact (Recording.setExp _).bind fun _ => rest
          · exact rest
      | false =>
          rw [genNode]
          refine (genTargets_records targets own.1).bind fun exps => ?_
          exact (genExpList1_records values own.2).bind fun _ => .silent (.genStores exps _) (.genStores exps _)
  | fieldAccess operand field separator =>
      rw [genNode]
      simp only [breaksOwn] at own
      exact (genNode_records operand own).bind fun _ => .silent (.genField field separator) (.genField field separator)
  | indexAccess operand index _ _ =>
      rw [genNode]
      simp only [breaksOwn, Bool.and_eq_true] at own
      refine (genNode_records operand own.1).bind fun _ => ?_
      refine (Recording.onExpReg (Func.exp2anyreg_keeps longer_steps)).bind fun _ => ?_
      refine Recording.getFunc.bind fun fs => (Recording.setExp _).bind fun _ => ?_
      refine (genNode_records index own.2).bind fun _ => ?_
      refine (Recording.onExp (Func.dischargevars_keeps longer_steps)).bind fun _ => ?_
      exact .onExp fun _ => Func.indexed_keeps longer_steps _ _
  | ifStatement clauses =>
      rw [genNode]
      simp only [breaksOwn] at own
      exact (genClauses_records clauses [] own).bind fun escapes => .patchAll escapes
  | ifClause _ _ _ => rw [genNode]; exact .throw _
  | returnStatement values =>
      rw [genNode]
      simp only [breaksOwn] at own
      split
      · exact .silent ((Adds.emitReturn _ _).bind fun _ => .pure _) ((Silent.onFunc _).bind fun _ => .pure _)
      · split
        · exact .throw _
        · exact (genExpList1_records values own).bind fun _ => .silent (.genReturnValues _) (.genReturnValues _)
  | whileStatement condition body =>
      rw [genNode]
      simp only [breaksOwn, Bool.and_eq_true] at own
      refine Recording.getFunc.bind fun fs => (genNode_records condition own.1).bind fun _ => ?_
      refine Recording.genTest.bind fun jump c => sat_enterLoop ?_
      refine sat_adds (genBody_adds body) le_rfl fun _ c₁ le₁ => sat_adds (.jumpBack _) le₁ fun _ c₂ le₂ => ?_
      exact sat_leaveLoop le₂ fun breaks =>
        (Recording.patchHere jump).bind fun _ => .patchAll breaks
  | doStatement body =>
      rw [genNode]
      simp only [breaksOwn] at own
      exact genBody_records body own
  | repeatStatement body condition =>
      rw [genNode]
      refine Recording.getFunc.bind fun fs c => sat_enterLoop ?_
      refine sat_adds (genBody_adds body) le_rfl fun _ c₁ le₁ => sat_adds (genNode_adds condition) le₁ fun _ c₂ le₂ => ?_
      refine sat_adds .nextReg le₂ fun _ c₃ le₃ => sat_adds (.emitABC _ _ _ _) le₃ fun _ c₄ le₄ => ?_
      refine sat_adds (.jumpBack _) le₄ fun _ c₅ le₅ => ?_
      exact sat_leaveLoop le₅ fun breaks => .patchAll breaks
  | breakStatement _ =>
      rw [genNode]
      simp only [breaksOwn] at own
      subst own
      exact .genBreak
  | forStatementNumeric name start stop increment body =>
      rw [genNode]
      simp only [breaksOwn, Bool.and_eq_true] at own
      refine Recording.getFunc.bind fun fs => ?_
      refine (Recording.reserveregs 4).bind fun _ => ?_
      refine (genNode_records start own.1.1.1).bind fun _ => Recording.nextReg.bind fun _ => ?_
      refine (genNode_records stop own.1.1.2).bind fun _ => Recording.nextReg.bind fun _ => ?_
      refine (genIncrement_records increment own.1.2).bind fun _ => Recording.nextReg.bind fun _ => ?_
      refine (Recording.emitAsBx _ _ _).bind fun _ c => sat_enterLoop ?_
      refine sat_adds (.declareLoopVars _ _ _) le_rfl fun _ c₁ le₁ => sat_adds (genBody_adds body) le₁ fun _ c₂ le₂ => ?_
      refine sat_adds (.emitAsBx _ _ _) le₂ fun _ c₃ le₃ => ?_
      exact sat_leaveLoop le₃ fun breaks => .leaveFor _ _ breaks
  | forStatementGeneric names expressions body =>
      rw [genNode]
      simp only [breaksOwn, Bool.and_eq_true] at own
      refine Recording.getFunc.bind fun fs => ?_
      refine (Recording.reserveregs _).bind fun _ => ?_
      refine (genArguments_records expressions own.1).bind fun _ => ?_
      refine (Recording.emitABC _ _ _ _).bind fun start => ?_
      refine (Recording.emitAsBx _ _ _).bind fun jump c => sat_enterLoop ?_
      refine sat_adds (.declareLoopVars _ _ _) le_rfl fun _ c₁ le₁ => sat_adds (genBody_adds body) le₁ fun _ c₂ le₂ => ?_
      refine sat_adds (.jumpBack _) le₂ fun _ c₃ le₃ => sat_adds (.patchHere jump) le₃ fun _ c₄ le₄ => ?_
      exact sat_leaveLoop le₄ fun breaks => .leaveFor _ _ breaks
  | functionDeclaration name parameters body isLocal =>
      simp only [breaksOwn, Bool.and_eq_true] at own
      exact .silent (genNode_adds _) (function_silent (genBody_records body own.2).same)
  | tableConstructor fields _ _ =>
      rw [genNode]
      simp only [breaksOwn] at own
      refine (Recording.emitABC _ _ _ _).bind fun index => ?_
      refine (Recording.setExp _).bind fun _ => Recording.nextReg.bind fun tableReg => ?_
      refine (genFields_records tableReg fields {} own).bind fun st => ?_
      refine (Recording.silent (.flushLast tableReg st) (.flushLast tableReg st)).bind fun st => ?_
      split
      · exact .pure _
      · exact .silent (.patch _ _) (.onFunc _)
  | tableField _ _ => rw [genNode]; exact .throw _
  | unaryExpression op argument =>
      rw [genNode]
      simp only [breaksOwn] at own
      exact (genNode_records argument own).bind fun _ => .onExp (Func.unaryOperator_keeps longer_steps _ op)
  | binaryExpression op left right =>
      rw [genNode]
      simp only [breaksOwn, Bool.and_eq_true] at own
      refine (genNode_records left own.1).bind fun _ => ?_
      refine (Recording.onExp (Func.leftOperand_keeps longer_steps op)).bind fun _ => ?_
      refine Recording.getFunc.bind fun fs => (genNode_records right own.2).bind fun _ => ?_
      exact .onExp (Func.binaryOperator_keeps longer_steps _ op _)
  | groupedExpression _ expression _ =>
      rw [genNode]
      simp only [breaksOwn] at own
      exact genNode_records expression own

theorem genBody_records {inLoop : Bool} (nodes : List Node) (own : breaksOwnOf inLoop nodes = true) :
    Recording inLoop (genBody env nodes) := by
  cases nodes with
  | nil => rw [genBody]; exact .pure _
  | cons node rest =>
      rw [genBody]
      simp only [breaksOwnOf, Bool.and_eq_true] at own
      exact (genNode_records node own.1).bind fun _ => genBody_records rest own.2

theorem genArguments_records {inLoop : Bool} (nodes : List Node) (own : breaksOwnOf inLoop nodes = true) :
    Recording inLoop (genArguments env nodes) := by
  cases nodes with
  | nil => rw [genArguments]; exact .pure _
  | cons node rest =>
      rw [genArguments]
      simp only [breaksOwnOf, Bool.and_eq_true] at own
      refine (genNode_records node own.1).bind fun _ => Recording.nextReg.bind fun _ => ?_
      exact genArguments_records rest own.2

theorem genExpList1_records {inLoop : Bool} (nodes : List Node) (own : breaksOwnOf inLoop nodes = true) :
    Recording inLoop (genExpList1 env nodes) := by
  cases nodes with
  | nil => rw [genExpList1]; exact .pure _
  | cons node rest =>
      rw [genExpList1]
      simp only [breaksOwnOf, Bool.and_eq_true] at own
      refine (genNode_records node own.1).bind fun _ => ?_
      split
      · exact .pure _
      · exact Recording.nextReg.bind fun _ => genExpList1_records rest own.2

theorem genTargets_records {inLoop : Bool} (nodes : List Node) (own : breaksOwnOf inLoop nodes = true) :
    Recording inLoop (genTargets env nodes) := by
  cases nodes with
  | nil => rw [genTargets]; exact .pure _
  | cons node rest =>
      rw [genTargets]
      simp only [breaksOwnOf, Bool.and_eq_true] at own
      refine (genNode_records node own.1).bind fun _ => Recording.getFunc.bind fun fs => ?_
      exact (genTargets_records rest own.2).bind fun exps => .pure _

theorem genIncrement_records {inLoop : Bool} (increment : Option Node) (own : breaksOwn? inLoop increment = true) :
    Recording inLoop (genIncrement env increment) := by
  cases increment with
  | none => rw [genIncrement]; exact .silent (.setExp _) (.setExp _)
  | some node => rw [genIncrement]; exact genNode_records node own

theorem genTableField_records {inLoop : Bool} (field : Node) (own : breaksOwn inLoop field = true) :
    Recording inLoop (genTableField env field) := by
  cases field with
  | tableField key value =>
      simp only [breaksOwn, Bool.and_eq_true] at own
      cases key with
      | none =>
          rw [genTableField]
          exact (genNode_records value own.2).bind fun _ => .pure _
      | some key =>
          rw [genTableField]
          refine Recording.getFunc.bind fun fs => Recording.bind ?_ fun tableReg => ?_
          · cases fs.curExp <;> first
              | exact Recording.pure _
              | exact fun _ => trivial
          · refine (genNode_records key own.1).bind fun _ => ?_
            refine (Recording.onExpReg (Func.exp2RK_keeps longer_steps)).bind fun keyRk => ?_
            refine (genNode_records value own.2).bind fun _ => ?_
            exact (Recording.silent (.storeField _ _ _) (.storeField _ _ _)).bind fun _ => .pure _
  | _ => exact fun _ => trivial

theorem genFields_records {inLoop : Bool} (tableReg : Nat) (fields : List Node) (st : FieldState)
    (own : breaksOwnOf inLoop fields = true) : Recording inLoop (genFields env tableReg fields st) := by
  cases fields with
  | nil => rw [genFields]; exact .pure _
  | cons field rest =>
      rw [genFields]
      simp only [breaksOwnOf, Bool.and_eq_true] at own
      refine Recording.getFunc.bind fun previous => ?_
      refine (Recording.silent (.flushField tableReg st) (.flushField tableReg st)).bind fun st => ?_
      refine (genTableField_records field own.1).bind fun positional => Recording.getFunc.bind fun fs => ?_
      exact (Recording.setExp _).bind fun _ => genFields_records tableReg rest _ own.2

theorem genClause_records {inLoop : Bool} (last : Bool) (clause : Node) (own : breaksOwn inLoop clause = true) :
    Recording inLoop (genClause env last clause) := by
  cases clause with
  | ifClause token condition body =>
      simp only [breaksOwn, Bool.and_eq_true] at own
      cases condition with
      | none =>
          rw [genClause]
          exact (genBody_records body own.2).bind fun _ => .pure _
      | some condition =>
          rw [genClause]
          refine (genNode_records condition own.1).bind fun _ => Recording.genTest.bind fun jump => ?_
          refine (genBody_records body own.2).bind fun _ => ?_
          have patches (escapes : List Nat) : Recording inLoop (do patchHere jump; return escapes) :=
            (Recording.patchHere jump).bind fun _ => .pure _
          split
          · exact patches _
          · exact (Recording.emitAsBx _ _ _).bind fun _ => patches _
  | _ => exact fun _ => trivial

theorem genClauses_records {inLoop : Bool} (clauses : List Node) (escapes : List Nat)
    (own : breaksOwnOf inLoop clauses = true) : Recording inLoop (genClauses env clauses escapes) := by
  cases clauses with
  | nil => rw [genClauses]; exact .pure _
  | cons clause rest =>
      rw [genClauses]
      simp only [breaksOwnOf, Bool.and_eq_true] at own
      exact (genClause_records rest.isEmpty clause own.1).bind fun escape => genClauses_records rest _ own.2

end

/-! ## All loops and functions of a tree -/

mutual

-- the nodes inside a node
def within : Node → List Node
  | .literal _ | .identifier _ | .breakStatement _ => []
  | .chunk body | .doStatement body => withinOf body
  | .call expression arguments _ _ _ => expression :: within expression ++ withinOf arguments
  | .assignmentStatement targets values _ => withinOf targets ++ withinOf values
  | .fieldAccess operand _ _ => operand :: within operand
  | .indexAccess operand index _ _ => operand :: within operand ++ index :: within index
  | .ifStatement clauses => withinOf clauses
  | .ifClause _ condition body => within? condition ++ withinOf body
  | .returnStatement values => withinOf values
  | .whileStatement condition body => condition :: within condition ++ withinOf body
  | .repeatStatement body condition => withinOf body ++ condition :: within condition
  | .forStatementNumeric _ start stop increment body =>
      start :: within start ++ stop :: within stop ++ within? increment ++ withinOf body
  | .forStatementGeneric _ expressions body => withinOf expressions ++ withinOf body
  | .functionDeclaration name _ body _ => within? name ++ withinOf body
  | .tableConstructor fields _ _ => withinOf fields
  | .tableField key value => within? key ++ value :: within value
  | .unaryExpression _ argument => argument :: within argument
  | .binaryExpression _ left right => left :: within left ++ right :: within right
  | .groupedExpression _ expression _ => expression :: within expression

def withinOf : List Node → List Node
  | [] => []
  | node :: rest => node :: within node ++ withinOf rest

def within? : Option Node → List Node
  | none => []
  | some node => node :: within node

end

def Owning (nodes : List Node) : Prop := ∀ node ∈ nodes, ∃ inLoop, breaksOwn inLoop node = true

theorem Owning.append {first rest : List Node} (h₁ : Owning first) (h₂ : Owning rest) : Owning (first ++ rest) := by
  intro node member
  rcases List.mem_append.mp member with member | member
  · exact h₁ node member
  · exact h₂ node member

theorem Owning.cons {inLoop : Bool} {node : Node} {rest : List Node} (own : breaksOwn inLoop node = true)
    (h : Owning rest) : Owning (node :: rest) := by
  intro sub member
  rcases List.mem_cons.mp member with rfl | member
  · exact ⟨inLoop, own⟩
  · exact h sub member

theorem Owning.nil : Owning [] := fun _ none => (List.not_mem_nil none).elim

mutual

theorem within_own {inLoop : Bool} (node : Node) (own : breaksOwn inLoop node = true) : Owning (within node) := by
  cases node <;> simp only [breaksOwn, Bool.and_eq_true] at own <;> rw [within]
  case literal | identifier | breakStatement => exact .nil
  case chunk body | doStatement body | ifStatement body | returnStatement body => exact withinOf_own body own
  case tableConstructor fields _ _ => exact withinOf_own fields own
  case call expression arguments _ _ _ =>
    exact (Owning.cons own.1 (within_own expression own.1)).append (withinOf_own arguments own.2)
  case assignmentStatement targets values _ => exact (withinOf_own targets own.1).append (withinOf_own values own.2)
  case fieldAccess operand _ _ => exact .cons own (within_own operand own)
  case unaryExpression argument => exact .cons own (within_own argument own)
  case groupedExpression expression _ => exact .cons own (within_own expression own)
  case indexAccess operand index _ _ =>
    exact (Owning.cons own.1 (within_own operand own.1)).append (.cons own.2 (within_own index own.2))
  case binaryExpression left right =>
    exact (Owning.cons own.1 (within_own left own.1)).append (.cons own.2 (within_own right own.2))
  case ifClause condition body => exact (within?_own condition own.1).append (withinOf_own body own.2)
  case functionDeclaration name _ body _ => exact (within?_own name own.1).append (withinOf_own body own.2)
  case whileStatement condition body =>
    exact (Owning.cons own.1 (within_own condition own.1)).append (withinOf_own body own.2)
  case repeatStatement body condition =>
    exact (withinOf_own body own.1).append (.cons own.2 (within_own condition own.2))
  case forStatementNumeric _ start stop increment body =>
    have h₁ := Owning.cons own.1.1.1 (within_own start own.1.1.1)
    have h₂ := Owning.cons own.1.1.2 (within_own stop own.1.1.2)
    exact ((h₁.append h₂).append (within?_own increment own.1.2)).append (withinOf_own body own.2)
  case forStatementGeneric _ expressions body => exact (withinOf_own expressions own.1).append (withinOf_own body own.2)
  case tableField key value => exact (within?_own key own.1).append (.cons own.2 (within_own value own.2))

theorem withinOf_own {inLoop : Bool} (nodes : List Node) (own : breaksOwnOf inLoop nodes = true) :
    Owning (withinOf nodes) := by
  cases nodes with
  | nil => exact .nil
  | cons node rest =>
      simp only [breaksOwnOf, Bool.and_eq_true] at own
      rw [withinOf]
      exact (Owning.cons own.1 (within_own node own.1)).append (withinOf_own rest own.2)

theorem within?_own {inLoop : Bool} (node : Option Node) (own : breaksOwn? inLoop node = true) :
    Owning (within? node) := by
  cases node with
  | none => exact .nil
  | some node =>
      rw [within?]
      exact .cons own (within_own node own)

end

def isFunction : Node → Bool
  | .functionDeclaration _ _ _ _ => true
  | _ => false

def loopBody : Node → Option (List Node)
  | .whileStatement _ body | .repeatStatement body _ | .forStatementNumeric _ _ _ _ body
  | .forStatementGeneric _ _ body => some body
  | _ => none

-- no function adds to the list of a loop around it, and what a body adds to the list of its loop are places in the
-- code that the body gets, in the function of the loop
structure BreaksBelong (tree : Node) : Prop where
  functions : ∀ node ∈ within tree, isFunction node = true → ∀ env c c', genNode env node c = .ok ((), c') →
    c'.breakList = c.breakList
  loops : ∀ node ∈ within tree, ∀ body, loopBody node = some body → ∀ env c c', c.breakList = some [] →
    genBody env body c = .ok ((), c') → ∃ breaks, c'.breakList = some breaks ∧
      ∀ index ∈ breaks, c.func.pc ≤ index ∧ index < c'.func.pc

theorem breaks_belong {inLoop : Bool} {tree : Node} (own : breaksOwn inLoop tree = true) : BreaksBelong tree := by
  have all := within_own tree own
  constructor
  · intro node member isFunction env c c' run
    obtain ⟨inLoop, own⟩ := all node member
    cases node with
    | functionDeclaration name parameters body isLocal =>
        simp only [breaksOwn, Bool.and_eq_true] at own
        have silent : Silent (genNode env (.functionDeclaration name parameters body isLocal)) :=
          function_silent (genBody_records body own.2).same
        have silent := silent c
        unfold Sat at silent
        rw [run] at silent
        exact silent
    | _ => cases isFunction
  · intro node member body isBody env c c' list run
    obtain ⟨inLoop, own⟩ := all node member
    have inner : breaksOwnOf true body = true := by
      cases node with
      | whileStatement condition body =>
          cases isBody
          simp only [breaksOwn, Bool.and_eq_true] at own
          exact own.2
      | repeatStatement body condition =>
          cases isBody
          simp only [breaksOwn, Bool.and_eq_true] at own
          exact own.1
      | forStatementNumeric name start stop increment body =>
          cases isBody
          simp only [breaksOwn, Bool.and_eq_true] at own
          exact own.2
      | forStatementGeneric names expressions body =>
          cases isBody
          simp only [breaksOwn, Bool.and_eq_true] at own
          exact own.2
      | _ => cases isBody
    have records : Recording true (genBody env body) := genBody_records body inner
    have records := records c
    unfold Sat at records
    rw [run] at records
    obtain ⟨-, breaks, same, -, own⟩ := records
    refine ⟨breaks, ?_, own⟩
    rw [same, list]
    rfl

/-! ## The breaks of a source -/

-- the breaks that the parser refuses are those that are in no loop of their function, and so the lists belong together
def BreaksPlaced (lexer : Lex.Lexer) : Prop :=
  (Parse.NoLoopToBreak (Parse.parse lexer) ↔ Parse.Misplaced lexer) ∧
    ∀ tree, Parse.parse lexer = .ok tree → BreaksBelong tree

theorem breaks_placed_iff {lexer : Lex.Lexer} (inside : lexer.index ≤ lexer.buffer.length) :
    BreaksPlaced lexer ↔ (Parse.Misplaced lexer → Parse.Unlooped lexer) := by
  unfold BreaksPlaced
  rw [Parse.noLoopToBreak_iff inside]
  constructor
  · rintro ⟨exact, -⟩ misplaced
    exact exact.mpr misplaced
  · intro settled
    refine ⟨⟨Parse.Unlooped.misplaced, settled⟩, fun tree parsed => ?_⟩
    refine breaks_belong (Parse.breaksOwn_of_placed parsed fun misplaced => ?_)
    obtain ⟨context, refused, -⟩ := (Parse.noLoopToBreak_iff inside).mpr (settled misplaced)
    rw [parsed] at refused
    cases refused

theorem breaks_placed_nested :
    BreaksPlaced (Lex.Lexer.init (Lex.bytes "for i = 1, 2 do f(function() repeat break until x end) break end") []) ↔
      (Parse.Misplaced (Lex.Lexer.init (Lex.bytes "for i = 1, 2 do f(function() repeat break until x end) break end") []) →
        Parse.Unlooped (Lex.Lexer.init (Lex.bytes "for i = 1, 2 do f(function() repeat break until x end) break end") [])) :=
  breaks_placed_iff (by decide)

-- the flag of the parser is still set in the body of a function inside a loop
theorem breaks_not_placed :
    ¬BreaksPlaced (Lex.Lexer.init (Lex.bytes "for i = 1, 2 do local f = function() break end end") []) := by
  have displaced : chunkTest (fun body => !breaksOwnOf false body)
      (Parse.parse (Lex.Lexer.init (Lex.bytes "for i = 1, 2 do local f = function() break end end") [])) = true := by
    decide +kernel
  obtain ⟨body, parsed, unowned⟩ := chunkTest_holds displaced
  rintro ⟨exact, -⟩
  by_cases misplaced : Parse.Misplaced (Lex.Lexer.init (Lex.bytes "for i = 1, 2 do local f = function() break end end") [])
  · obtain ⟨context, refused, -⟩ := exact.mpr misplaced
    rw [parsed] at refused
    cases refused
  · have own : breaksOwnOf false body = true := Parse.breaksOwn_of_placed parsed misplaced
    rw [own] at unowned
    cases unowned

end Zua.Compile
