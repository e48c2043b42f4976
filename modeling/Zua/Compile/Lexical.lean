import Zua.Compile.Scope

/-!
# Lexical scoping

The names of a program are followed in the order in which they are compiled, with the local declarations that
came before each. A declaration is live until the block that it stands in ends.
-/

namespace Zua.Compile
open Code Syntax
open Zua.Lex (Token)

/-! ## The names of expressions -/

mutual

def isExpr : Node → Bool
  | .literal _ | .identifier _ => true
  | .fieldAccess operand _ _ => isExpr operand
  | .indexAccess operand index _ _ => isExpr operand && isExpr index
  | .call expression arguments _ _ _ => isExpr expression && areExprs arguments
  | .tableConstructor fields _ _ => areExprs fields
  | .tableField key value => isExpr? key && isExpr value
  | .unaryExpression _ argument => isExpr argument
  | .binaryExpression _ left right => isExpr left && isExpr right
  | .groupedExpression _ expression _ => isExpr expression
  | _ => false

def areExprs : List Node → Bool
  | [] => true
  | node :: rest => isExpr node && areExprs rest

def isExpr? : Option Node → Bool
  | none => true
  | some node => isExpr node

end

mutual

-- the identifiers of an expression, in the order in which they are compiled
def names : Node → List Token
  | .identifier token => [token]
  | .fieldAccess operand _ _ => names operand
  | .indexAccess operand index _ _ => names operand ++ names index
  | .call expression arguments _ _ _ => names expression ++ namesOf arguments
  | .tableConstructor fields _ _ => namesOf fields
  | .tableField key value => names? key ++ names value
  | .unaryExpression _ argument => names argument
  | .binaryExpression _ left right => names left ++ names right
  | .groupedExpression _ expression _ => names expression
  | _ => []

def namesOf : List Node → List Token
  | [] => []
  | node :: rest => names node ++ namesOf rest

def names? : Option Node → List Token
  | none => []
  | some node => names node

end

/-! ## Declarations -/

structure Declaration where
  name : List UInt8
  live : Bool

-- the last of the first `n` declarations that satisfies `p`
def lastOf (p : Declaration → Bool) (ds : List Declaration) : Nat → Option Nat
  | 0 => none
  | n + 1 => if ds[n]?.any p then some n else lastOf p ds n

-- the last declaration of the name, and the last one that is still live
def lastNamed (ds : List Declaration) (name : List UInt8) : Option Nat :=
  lastOf (fun d => d.name = name) ds ds.length

def innermost (ds : List Declaration) (name : List UInt8) : Option Nat :=
  lastOf (fun d => d.name = name && d.live) ds ds.length

-- the compiler's variables are the declarations, whether they are live or not
structure Declared (source : List UInt8) (fs : Func) (ds : List Declaration) : Prop where
  number : fs.numActiveLocalVars = ds.length
  active : ∀ i < ds.length, fs.activeLocalVars[i]? = some i
  named : ∀ (i : Nat) (d : Declaration), ds[i]? = some d → ∃ token : Token, fs.localVars[i]? = some token ∧ token.slice source = d.name

variable {env : Env} {ds : List Declaration} {fs fs' : Func} {c c' : Compiler}

theorem Declared.same {source : List UInt8} (declared : Declared source fs ds) (same : SameScope fs fs') :
    Declared source fs' ds := by
  obtain ⟨number, active, named⟩ := declared
  obtain ⟨number', active', locals'⟩ := same
  exact ⟨number'.trans number, by rwa [active'], by rwa [locals']⟩

theorem Declared.searchVar {source name : List UInt8} (declared : Declared source fs ds) {n : Nat}
    (inside : n ≤ ds.length) :
    fs.searchVar source name n = .ok (lastOf (fun d => d.name = name) ds n) := by
  induction n with
  | zero => rfl
  | succ n ih =>
      have found : ds[n]? = some (ds[n]) := List.getElem?_eq_getElem inside
      obtain ⟨token, located, slice⟩ := declared.named n _ found
      have located' : fs.getlocvar n = some token := by
        simp [Func.getlocvar, declared.active n inside, located]
      simp only [Func.searchVar, located', lastOf, found, Option.any_some, slice, decide_eq_true_eq]
      split
      · rfl
      · exact ih (Nat.le_of_succ_le inside)

theorem lastOf_lt {p : Declaration → Bool} {n i : Nat} (h : lastOf p ds n = some i) : i < n := by
  induction n with
  | zero => cases h
  | succ n ih =>
      unfold lastOf at h
      split at h
      · rw [← Option.some.inj h]
        exact Nat.lt_succ_self n
      · exact (ih h).trans (Nat.lt_succ_self n)

/-! ## What expressions record -/

def binding (source : List UInt8) (ds : List Declaration) (token : Token) : Token × Option Nat :=
  (token, lastNamed ds (token.slice source))

-- the scope stays as it is, and the tokens are resolved in it in this order
structure Binds (source : List UInt8) (ds : List Declaration) (tokens : List Token) (c c' : Compiler) : Prop where
  scope : SameScope c.func c'.func
  bindings : c'.bindings = c.bindings ++ tokens.map (binding source ds)

def Resolves {α : Type} (env : Env) (ds : List Declaration) (tokens : List Token) (x : CompileM α) : Prop :=
  ∀ c, Declared env.source c.func ds → Sat (fun _ => True) x c fun _ c' => Binds env.source ds tokens c c'

namespace Resolves

variable {α β : Type} {tokens more : List Token}

theorem bind {x : CompileM α} {f : α → CompileM β} (first : Resolves env ds tokens x)
    (rest : ∀ a, Resolves env ds more (f a)) : Resolves env ds (tokens ++ more) (x >>= f) := by
  intro c declared
  refine Sat.bind ((first c declared).mono ?_)
  intro a c' ⟨scope, bindings⟩
  refine (rest a c' (declared.same scope)).mono ?_
  intro _ c'' ⟨scope', bindings'⟩
  exact ⟨sameScope_reflexive.trans scope scope', by rw [bindings', bindings, List.map_append, List.append_assoc]⟩

-- without names, before or after
theorem silently {x : CompileM α} {f : α → CompileM β} (first : Resolves env ds [] x)
    (rest : ∀ a, Resolves env ds tokens (f a)) : Resolves env ds tokens (x >>= f) := first.bind rest

theorem andThen {x : CompileM α} {f : α → CompileM β} (first : Resolves env ds tokens x)
    (rest : ∀ a, Resolves env ds [] (f a)) : Resolves env ds tokens (x >>= f) := by
  simpa using first.bind rest

theorem pure (a : α) : Resolves env ds [] (Pure.pure a) :=
  fun c _ => ⟨sameScope_reflexive.refl c.func, (List.append_nil _).symm⟩

theorem throw (e : Stop) : Resolves env ds tokens (MonadExcept.throw e : CompileM α) := fun _ _ => trivial

theorem onFunc {x : FuncM α} (keeps : Keeps SameScope x) : Resolves env ds [] (onFunc x) := by
  intro c _
  exact sat_onFunc ((keeps c.func).mono fun _ _ same => ⟨same, (List.append_nil _).symm⟩)

theorem getFunc : Resolves env ds [] getFunc := onFunc (.get sameScope_reflexive)

theorem setExp (e : ExpDesc) : Resolves env ds [] (setExp e) := onFunc (.modify fun _ => ⟨rfl, rfl, rfl⟩)

theorem onExp {f : ExpDesc → FuncM ExpDesc} (keeps : ∀ e, Keeps SameScope (f e)) : Resolves env ds [] (onExp f) :=
  getFunc.silently fun _ => (onFunc (keeps _)).silently fun e => setExp e

theorem onExpReg {f : ExpDesc → FuncM (Nat × ExpDesc)} (keeps : ∀ e, Keeps SameScope (f e)) :
    Resolves env ds [] (onExpReg f) :=
  getFunc.silently fun _ => (onFunc (keeps _)).silently fun _ => (setExp _).silently fun _ => pure _

theorem nextReg : Resolves env ds [] nextReg := onExpReg (Func.exp2nextreg_keeps sameScope_steps)

theorem modifyFree (f : Func → Nat) :
    Resolves env ds [] (Compile.onFunc (modify fun fs => { fs with freeRegister := f fs })) :=
  onFunc (.modify fun _ => ⟨rfl, rfl, rfl⟩)

theorem genName (token : Token) : Resolves env ds [] (genName env token) := onFunc (Func.putConstant_keeps sameScope_steps _)

theorem genLiteral (token : Token) : Resolves env ds [] (genLiteral env token) := by
  unfold Compile.genLiteral
  split
  · split
    · exact (onFunc (Func.putConstant_keeps sameScope_steps _)).silently fun _ => setExp _
    · exact throw _
  · split
    · exact setExp _
    · exact throw _
  · exact setExp _
  · exact setExp _
  · exact setExp _
  · exact (onFunc (Func.emitABC_keeps sameScope_steps _ _ _ _)).silently fun _ => setExp _
  · exact (genName token).silently fun _ => setExp _
  · exact throw _

theorem genIdentifier (token : Token) : Resolves env ds [token] (genIdentifier env token) := by
  intro c declared
  have search : c.func.searchVar env.source (token.slice env.source) ds.length =
      .ok (lastNamed ds (token.slice env.source)) := declared.searchVar le_rfl
  have run : Func.findLocalVarByToken env.source token c.func =
      .ok (lastNamed ds (token.slice env.source), c.func) := by
    have step : Func.findLocalVarByToken env.source token c.func =
        (c.func.searchVar env.source (token.slice env.source) c.func.numActiveLocalVars).bind
          fun a => .ok (a, c.func) := rfl
    rw [step, declared.number, search]
    rfl
  refine Sat.bind ?_
  unfold Sat
  simp only [Compile.onFunc, run, ok_bind]
  -- the index of an active variable is the number of its declaration
  have number : (lastNamed ds (token.slice env.source)).bind (c.func.activeLocalVars[·]?) =
      lastNamed ds (token.slice env.source) := by
    cases found : lastNamed ds (token.slice env.source) with
    | none => rfl
    | some i => exact declared.active i (lastOf_lt found)
  refine Sat.bind ?_
  refine Sat.mono (Q := fun _ c' => c' = { c with bindings := c.bindings ++ [binding env.source ds token] }) ?_ ?_
  · have same : ({ c with bindings := c.bindings ++ [(token,
        (lastNamed ds (token.slice env.source)).bind (c.func.activeLocalVars[·]?))] } : Compiler) =
        { c with bindings := c.bindings ++ [binding env.source ds token] } := by
      rw [number]
      rfl
    exact same
  · rintro _ _ rfl
    have silent {x : CompileM Unit} (h : Resolves env ds [] x) :
        Sat (fun _ => True) x { c with bindings := c.bindings ++ [binding env.source ds token] }
          fun _ c' => Binds env.source ds [token] c c' := by
      refine (h { c with bindings := c.bindings ++ [binding env.source ds token] } declared).mono ?_
      intro _ c' binds
      exact ⟨binds.scope, by simpa using binds.bindings⟩
    split
    · exact silent (setExp _)
    · exact silent ((genName token).silently fun _ => setExp _)

theorem genField (field separator : Token) : Resolves env ds [] (genField env field separator) := by
  unfold Compile.genField
  split
  · exact (genName field).silently fun _ => onExp fun e => Func.handleSelf_keeps sameScope_steps e _
  · refine (onExpReg (Func.exp2anyreg_keeps sameScope_steps)).silently fun _ => ?_
    exact (genName field).silently fun _ => onExp fun e => Func.indexed_keeps sameScope_steps e _

theorem genCallInstruction (base : Nat) (isStatement : Bool) :
    Resolves env ds [] (genCallInstruction base isStatement) := by
  refine getFunc.silently fun fs => ?_
  split
  · exact throw _
  · refine (onFunc (Func.emitABC_keeps sameScope_steps _ _ _ _)).silently fun _ => ?_
    exact (setExp _).silently fun _ => modifyFree _

theorem calledRegister : Resolves env ds [] calledRegister := by
  refine getFunc.silently fun fs => ?_
  split
  · exact pure _
  · exact throw _

theorem flushField (tableReg : Nat) (st : FieldState) : Resolves env ds [] (flushField tableReg st) := by
  unfold Compile.flushField
  split
  · exact pure _
  · refine (onFunc (Func.exp2nextreg_keeps sameScope_steps _)).silently fun _ => ?_
    split
    · exact (onFunc (Func.setlist_keeps sameScope_steps _ _ _)).silently fun _ => pure _
    · exact pure _

theorem flushLast (tableReg : Nat) (st : FieldState) : Resolves env ds [] (flushLast tableReg st) := by
  unfold Compile.flushLast
  split
  · exact pure _
  · split
    · refine (onFunc (Func.setreturns_keeps sameScope_steps _ _)).silently fun _ => ?_
      exact (onFunc (Func.setlist_keeps sameScope_steps _ _ _)).silently fun _ => pure _
    · refine (onFunc (Func.exp2nextregUnlessVoid_keeps sameScope_steps _)).silently fun _ => ?_
      exact (onFunc (Func.setlist_keeps sameScope_steps _ _ _)).silently fun _ => pure _

theorem storeField (tableReg freeReg keyRk : Nat) : Resolves env ds [] (storeField tableReg freeReg keyRk) := by
  refine (onExpReg (Func.exp2RK_keeps sameScope_steps)).silently fun _ => ?_
  exact (onFunc (Func.emitABC_keeps sameScope_steps _ _ _ _)).silently fun _ => modifyFree _

theorem liftExcept {x : Except Stop α} : Resolves env ds [] (liftM x : CompileM α) := by
  intro c _
  cases x with
  | error e => trivial
  | ok a => exact ⟨sameScope_reflexive.refl c.func, (List.append_nil _).symm⟩

end Resolves

/-! ## Expressions -/

mutual

theorem genNode_resolves (ds : List Declaration) (node : Node) (h : isExpr node = true) :
    Resolves env ds (names node) (genNode env node) := by
  cases node with
  | literal token =>
      rw [genNode]
      exact .genLiteral token
  | identifier token =>
      rw [genNode]
      exact .genIdentifier token
  | fieldAccess operand field separator =>
      rw [genNode]
      exact (genNode_resolves ds operand h).andThen fun _ => .genField field separator
  | indexAccess operand index _ _ =>
      simp only [isExpr, Bool.and_eq_true] at h
      rw [genNode]
      refine (genNode_resolves ds operand h.1).bind fun _ => ?_
      refine (Resolves.onExpReg (Func.exp2anyreg_keeps sameScope_steps)).silently fun _ => ?_
      refine Resolves.getFunc.silently fun fs => ?_
      refine (Resolves.setExp _).silently fun _ => ?_
      refine (genNode_resolves ds index h.2).andThen fun _ => ?_
      refine (Resolves.onExp (Func.dischargevars_keeps sameScope_steps)).silently fun _ => ?_
      exact .onExp fun e => Func.indexed_keeps sameScope_steps _ e
  | call expression arguments _ _ isStatement =>
      simp only [isExpr, Bool.and_eq_true] at h
      rw [genNode]
      refine (genNode_resolves ds expression h.1).bind fun _ => ?_
      have rest : Resolves env ds (namesOf arguments) (do
          let base ← calledRegister
          genArguments env arguments
          genCallInstruction base isStatement) :=
        Resolves.calledRegister.silently fun base =>
          (genArguments_resolves ds arguments h.2).andThen fun _ => .genCallInstruction base isStatement
      split
      · exact rest
      · exact Resolves.nextReg.silently fun _ => rest
  | tableConstructor fields _ _ =>
      rw [genNode]
      refine (Resolves.onFunc (Func.emitABC_keeps sameScope_steps _ _ _ _)).silently fun index => ?_
      refine (Resolves.setExp _).silently fun _ => ?_
      refine Resolves.nextReg.silently fun tableReg => ?_
      refine (genFields_resolves ds tableReg fields {} h).andThen fun st => ?_
      refine (Resolves.flushLast tableReg st).silently fun st => ?_
      split
      · exact .pure _
      · exact .onFunc (Func.patch_keeps sameScope_steps _ _)
  | tableField _ _ =>
      rw [genNode]
      exact .throw _
  | unaryExpression op argument =>
      rw [genNode]
      exact (genNode_resolves ds argument h).andThen fun _ => .onExp (Func.unaryOperator_keeps sameScope_steps _ op)
  | binaryExpression op left right =>
      simp only [isExpr, Bool.and_eq_true] at h
      rw [genNode]
      refine (genNode_resolves ds left h.1).bind fun _ => ?_
      refine (Resolves.onExp (Func.leftOperand_keeps sameScope_steps op)).silently fun _ => ?_
      refine Resolves.getFunc.silently fun fs => ?_
      exact (genNode_resolves ds right h.2).andThen fun _ => .onExp (Func.binaryOperator_keeps sameScope_steps _ op _)
  | groupedExpression _ expression _ =>
      rw [genNode]
      exact genNode_resolves ds expression h
  | _ => cases h

theorem genArguments_resolves (ds : List Declaration) : ∀ nodes, areExprs nodes = true →
    Resolves env ds (namesOf nodes) (genArguments env nodes)
  | [], _ => by
      rw [genArguments]
      exact .pure _
  | node :: rest, h => by
      simp only [areExprs, Bool.and_eq_true] at h
      rw [genArguments]
      refine (genNode_resolves ds node h.1).bind fun _ => ?_
      exact Resolves.nextReg.silently fun _ => genArguments_resolves ds rest h.2

theorem genField_resolves (ds : List Declaration) (node : Node) (h : isExpr node = true) :
    Resolves env ds (names node) (genTableField env node) := by
  cases node with
  | tableField key value =>
      cases key with
      | none =>
          simp only [isExpr, Bool.and_eq_true] at h
          rw [genTableField]
          exact (genNode_resolves ds value h.2).andThen fun _ => .pure _
      | some key =>
          simp only [isExpr, isExpr?, Bool.and_eq_true] at h
          rw [genTableField]
          refine Resolves.getFunc.silently fun fs => ?_
          refine Resolves.liftExcept.silently fun tableReg => ?_
          refine (genNode_resolves ds key h.1).bind fun _ => ?_
          refine (Resolves.onExpReg (Func.exp2RK_keeps sameScope_steps)).silently fun keyRk => ?_
          refine (genNode_resolves ds value h.2).andThen fun _ => ?_
          exact (Resolves.storeField _ _ _).silently fun _ => .pure _
  | _ => exact .throw Stop.unreachable

theorem genFields_resolves (ds : List Declaration) (tableReg : Nat) : ∀ nodes st, areExprs nodes = true →
    Resolves env ds (namesOf nodes) (genFields env tableReg nodes st)
  | [], st, _ => by
      rw [genFields]
      exact .pure _
  | node :: rest, st, h => by
      simp only [areExprs, Bool.and_eq_true] at h
      rw [genFields]
      refine Resolves.getFunc.silently fun previous => ?_
      refine (Resolves.flushField tableReg st).silently fun st => ?_
      refine (genField_resolves ds node h.1).bind fun positional => ?_
      refine Resolves.getFunc.silently fun fs => ?_
      exact (Resolves.setExp _).silently fun _ => genFields_resolves ds tableReg rest _ h.2

end

theorem genExpList1_resolves (ds : List Declaration) : ∀ nodes, areExprs nodes = true →
    Resolves env ds (namesOf nodes) (genExpList1 env nodes)
  | [], _ => by
      rw [genExpList1]
      exact .pure _
  | node :: rest, h => by
      simp only [areExprs, Bool.and_eq_true] at h
      rw [genExpList1]
      refine (genNode_resolves ds node h.1).bind fun _ => ?_
      cases rest with
      | nil => exact .pure _
      | cons next rest =>
          exact Resolves.nextReg.silently fun _ => genExpList1_resolves ds (next :: rest) h.2

theorem genTargets_resolves (ds : List Declaration) : ∀ nodes, areExprs nodes = true →
    Resolves env ds (namesOf nodes) (genTargets env nodes)
  | [], _ => by
      rw [genTargets]
      exact .pure _
  | node :: rest, h => by
      simp only [areExprs, Bool.and_eq_true] at h
      rw [genTargets]
      refine (genNode_resolves ds node h.1).bind fun _ => ?_
      refine Resolves.getFunc.silently fun fs => ?_
      exact (genTargets_resolves ds rest h.2).andThen fun _ => .pure _

/-! ## Statements -/

def isIdentifier : Node → Bool
  | .identifier _ => true
  | _ => false

mutual

-- the statements of the claim: locals, blocks, conditions, assignments to names, calls and returns
def isStat : Node → Bool
  | .assignmentStatement targets values isLocal =>
      (isLocal || targets.all isIdentifier) && areExprs values
  | .doStatement body => areStats body
  | .ifStatement clauses => areStats clauses
  | .ifClause _ condition body => isExpr? condition && areStats body
  | .returnStatement values => areExprs values
  | .call expression arguments _ _ _ => isExpr expression && areExprs arguments
  | _ => false

def areStats : List Node → Bool
  | [] => true
  | node :: rest => isStat node && areStats rest

end

-- a name and the declarations before it
structure Occurrence where
  token : Token
  declared : List Declaration

def occurrences (ds : List Declaration) (tokens : List Token) : List Occurrence := tokens.map (⟨·, ds⟩)

-- the declarations behind the first `n` are no longer live
def leaveBlock (n : Nat) (ds : List Declaration) : List Declaration :=
  ds.take n ++ (ds.drop n).map fun d => { d with live := false }

def declare (source : List UInt8) (targets : List Node) : List Declaration :=
  (targets.flatMap names).map fun token => ⟨token.slice source, true⟩

mutual

-- the names of a statement, and the declarations behind it
def walk (source : List UInt8) (ds : List Declaration) : Node → List Occurrence × List Declaration
  | .assignmentStatement targets values true =>
      (occurrences ds (namesOf values), ds ++ declare source targets)
  | .assignmentStatement targets values false => (occurrences ds (namesOf targets ++ namesOf values), ds)
  | .doStatement body =>
      let (found, ds') := walkAll source ds body
      (found, leaveBlock ds.length ds')
  | .ifStatement clauses => walkAll source ds clauses
  | .ifClause _ condition body =>
      let (found, ds') := walkAll source ds body
      (occurrences ds (names? condition) ++ found, leaveBlock ds.length ds')
  | .returnStatement values => (occurrences ds (namesOf values), ds)
  | node => (occurrences ds (names node), ds)

def walkAll (source : List UInt8) (ds : List Declaration) : List Node → List Occurrence × List Declaration
  | [] => ([], ds)
  | node :: rest =>
      let (found, ds') := walk source ds node
      let (more, ds'') := walkAll source ds' rest
      (found ++ more, ds'')

end

-- between statements every declaration has its variable
structure Settled (source : List UInt8) (fs : Func) (ds : List Declaration) : Prop extends
    Declared source fs ds where
  all : fs.localVars.length = ds.length
  room : fs.activeLocalVars.length = maxVars

theorem Settled.same {source : List UInt8} (settled : Settled source fs ds) (same : SameScope fs fs') :
    Settled source fs' ds :=
  ⟨settled.toDeclared.same same, by rw [same.locals, settled.all], by rw [same.active, settled.room]⟩

-- which declarations are live is nothing to the compiler
theorem Settled.relabel {source : List UInt8} (settled : Settled source fs ds) {ds' : List Declaration}
    (sameNames : ds'.map Declaration.name = ds.map Declaration.name) : Settled source fs ds' := by
  have sameLength : ds'.length = ds.length := by simpa using congrArg List.length sameNames
  obtain ⟨⟨number, active, named⟩, all, room⟩ := settled
  refine ⟨⟨number.trans sameLength.symm, by rwa [sameLength], ?_⟩, all.trans sameLength.symm, room⟩
  intro i d found
  have name : (ds[i]?).map Declaration.name = some d.name := by
    rw [← List.getElem?_map, ← sameNames, List.getElem?_map, found]
    rfl
  obtain ⟨d', found', same⟩ := Option.map_eq_some_iff.mp name
  obtain ⟨token, located, slice⟩ := named i d' found'
  exact ⟨token, located, slice.trans same⟩

theorem leaveBlock_names (n : Nat) (ds : List Declaration) :
    (leaveBlock n ds).map Declaration.name = ds.map Declaration.name := by
  unfold leaveBlock
  rw [List.map_append, List.map_map, ← List.map_append.symm.trans (congrArg _ (List.take_append_drop n ds))]
  rfl

def Occurrence.binding (source : List UInt8) (o : Occurrence) : Token × Option Nat :=
  Compile.binding source o.declared o.token

-- the names of `found` are resolved in this order, and `ds` is what is declared afterwards
structure Walked (source : List UInt8) (found : List Occurrence) (ds : List Declaration) (c c' : Compiler) : Prop where
  settled : Settled source c'.func ds
  bindings : c'.bindings = c.bindings ++ found.map (Occurrence.binding source)

def Walks {α : Type} (env : Env) (ds : List Declaration) (found : List Occurrence) (ds' : List Declaration)
    (x : CompileM α) : Prop :=
  ∀ c, Settled env.source c.func ds → Sat (fun _ => True) x c fun _ c' => Walked env.source found ds' c c'

namespace Walks

variable {α β : Type} {found more : List Occurrence} {ds' ds'' : List Declaration} {tokens : List Token}

theorem bind {x : CompileM α} {f : α → CompileM β} (first : Walks env ds found ds' x)
    (rest : ∀ a, Walks env ds' more ds'' (f a)) : Walks env ds (found ++ more) ds'' (x >>= f) := by
  intro c settled
  refine Sat.bind ((first c settled).mono ?_)
  intro a c' ⟨settled', bindings⟩
  refine (rest a c' settled').mono ?_
  intro _ c'' ⟨settled'', bindings'⟩
  exact ⟨settled'', by rw [bindings', bindings, List.map_append, List.append_assoc]⟩

theorem ofResolves {x : CompileM α} (h : Resolves env ds tokens x) : Walks env ds (occurrences ds tokens) ds x := by
  intro c settled
  refine (h c settled.toDeclared).mono ?_
  intro _ c' ⟨scope, bindings⟩
  refine ⟨settled.same scope, ?_⟩
  rw [bindings, occurrences, List.map_map]
  rfl

theorem silently {x : CompileM α} {f : α → CompileM β} (first : Resolves env ds [] x)
    (rest : ∀ a, Walks env ds found ds' (f a)) : Walks env ds found ds' (x >>= f) :=
  (ofResolves first).bind rest

theorem andThen {x : CompileM α} {f : α → CompileM β} (first : Walks env ds found ds' x)
    (rest : ∀ a, Resolves env ds' [] (f a)) : Walks env ds found ds' (x >>= f) := by
  simpa [occurrences] using first.bind fun a => ofResolves (rest a)

theorem relabel {x : CompileM α} (h : Walks env ds found ds' x)
    (sameNames : ds''.map Declaration.name = ds'.map Declaration.name) : Walks env ds found ds'' x := by
  intro c settled
  exact (h c settled).mono fun _ c' walked => ⟨walked.settled.relabel sameNames, walked.bindings⟩

end Walks

/-! ## Local statements

The variables are declared before the values are compiled, and active after it. -/

structure Pending (source : List UInt8) (fs : Func) (ds all : List Declaration) : Prop where
  number : fs.numActiveLocalVars = ds.length
  active : ∀ i < all.length, fs.activeLocalVars[i]? = some i
  named : ∀ (i : Nat) (d : Declaration), all[i]? = some d →
    ∃ token : Token, fs.localVars[i]? = some token ∧ token.slice source = d.name
  all : fs.localVars.length = all.length
  room : fs.activeLocalVars.length = maxVars

theorem Settled.pending {source : List UInt8} (settled : Settled source fs ds) : Pending source fs ds ds :=
  ⟨settled.number, settled.active, settled.named, settled.all, settled.room⟩

theorem Pending.same {source : List UInt8} {all : List Declaration} (pending : Pending source fs ds all)
    (same : SameScope fs fs') : Pending source fs' ds all := by
  obtain ⟨number, active, named, count, room⟩ := pending
  obtain ⟨number', active', locals'⟩ := same
  exact ⟨number'.trans number, by rwa [active'], by rwa [locals'], by rwa [locals'], by rwa [active']⟩

-- the values see the declarations of before
theorem Pending.declared {source : List UInt8} {new : List Declaration} (pending : Pending source fs ds (ds ++ new)) :
    Declared source fs ds := by
  refine ⟨pending.number, ?_, ?_⟩
  · intro i inside
    exact pending.active i (by rw [List.length_append]; omega)
  · intro i d found
    exact pending.named i d (by rw [List.getElem?_append_left (List.getElem?_eq_some_iff.mp found).1, found])

theorem newLocalvar_pending {source : List UInt8} {new : List Declaration} (token : Token)
    (pending : Pending source fs ds (ds ++ new)) :
    Sat (fun _ => True) (Func.newLocalvar token new.length) fs fun _ fs' =>
      Pending source fs' ds (ds ++ (new ++ [⟨token.slice source, true⟩])) := by
  obtain ⟨number, active, named, count, room⟩ := pending
  have place : fs.numActiveLocalVars + new.length = (ds ++ new).length := by rw [number, List.length_append]
  refine Sat.bind (Sat.get ?_)
  split
  · trivial
  · rename_i free
    rw [place] at free ⊢
    rw [← List.append_assoc]
    refine Sat.set ⟨number, ?_, ?_, ?_, ?_⟩
    · intro i inside
      rw [List.length_append, List.length_singleton] at inside
      rw [List.getElem?_set, count]
      split
      · rename_i same
        rw [if_pos (by rw [room]; omega), same]
      · exact active i (by omega)
    · intro i d found
      by_cases old : i < (ds ++ new).length
      · rw [List.getElem?_append_left old] at found
        obtain ⟨token', located, slice⟩ := named i d found
        exact ⟨token', by rw [List.getElem?_append_left (by rwa [count]), located], slice⟩
      · have last : i = (ds ++ new).length := by
          have inside := (List.getElem?_eq_some_iff.mp found).1
          rw [List.length_append, List.length_singleton] at inside
          omega
        subst last
        rw [List.getElem?_concat_length] at found
        refine ⟨token, by rw [← count, List.getElem?_concat_length], ?_⟩
        rw [← Option.some.inj found]
    · rw [List.length_append, List.length_append, count]
      rfl
    · rw [List.length_set, room]

theorem declareLocals_pending (tokens : List Token) {new : List Declaration}
    (pending : Pending env.source c.func ds (ds ++ new)) :
    Sat (fun _ => True) (declareLocals tokens new.length) c fun _ c' =>
      Pending env.source c'.func ds (ds ++ (new ++ tokens.map fun token => ⟨token.slice env.source, true⟩)) ∧
      c'.bindings = c.bindings := by
  induction tokens generalizing c new with
  | nil => exact Sat.pure ⟨by simpa using pending, rfl⟩
  | cons token tokens ih =>
      rw [declareLocals]
      refine Sat.bind (sat_onFunc ((newLocalvar_pending token pending).mono ?_))
      intro _ func pending'
      have rest := ih (c := { c with func }) pending'
      rw [List.length_append, List.length_singleton] at rest
      simpa using rest

theorem localNames_sat (targets : List Node) : Sat (fun _ => True)
    (targets.mapM fun target => (localName target : CompileM Token)) c fun tokens c' =>
      tokens = targets.flatMap names ∧ c = c' ∧ tokens.length = targets.length := by
  induction targets with
  | nil => exact Sat.pure ⟨rfl, rfl, rfl⟩
  | cons target targets ih =>
      rw [List.mapM_cons]
      refine Sat.bind ?_
      cases target with
      | identifier token =>
          refine Sat.bind (ih.mono ?_)
          rintro tokens _ ⟨rfl, rfl, count⟩
          exact Sat.pure ⟨rfl, rfl, by simpa using count⟩
      | _ => trivial

theorem local_walks (targets values : List Node) (h : areExprs values = true) :
    Walks env ds (occurrences ds (namesOf values)) (ds ++ declare env.source targets)
      (genNode env (.assignmentStatement targets values true)) := by
  intro c settled
  rw [genNode]
  refine Sat.bind ((localNames_sat targets).mono ?_)
  rintro tokens _ ⟨named, rfl, count⟩
  have pending : Pending env.source c.func ds (ds ++ []) := by simpa using settled.pending
  refine Sat.bind ((declareLocals_pending tokens pending).mono ?_)
  rintro _ c₁ ⟨pending₁, bindings₁⟩
  rw [List.nil_append, named] at pending₁
  change Pending env.source c₁.func ds (ds ++ declare env.source targets) at pending₁
  refine Sat.bind ((genExpList1_resolves ds values h c₁ pending₁.declared).mono ?_)
  intro _ c₂ ⟨scope₂, bindings₂⟩
  have finish (c₃ : Compiler) (binds : Binds env.source ds [] c₂ c₃) : Sat (fun _ => True) (do
      onExp (Func.adjustAssign targets.length values.length)
      onFunc (Func.adjustlocalvars targets.length)) c₃ fun _ c' =>
        Walked env.source (occurrences ds (namesOf values)) (ds ++ declare env.source targets) c c' := by
    have pending₃ := (pending₁.same scope₂).same binds.scope
    refine Sat.bind ((Resolves.onExp (Func.adjustAssign_keeps sameScope_steps _ _) c₃ pending₃.declared).mono ?_)
    intro _ c₄ ⟨scope₄, bindings₄⟩
    obtain ⟨number, active, named', all, room⟩ := pending₃.same scope₄
    refine sat_onFunc (Sat.modify ⟨⟨⟨?_, active, named'⟩, all, room⟩, ?_⟩)
    · simp only [number, declare, List.length_append, List.length_map, ← named, count]
    · simp only [bindings₄, binds.bindings, bindings₂, bindings₁, List.map_nil, List.append_nil, occurrences,
        List.map_map]
      rfl
  split
  · refine Sat.bind ((Resolves.setExp .void c₂ (pending₁.same scope₂).declared).mono ?_)
    intro _ c₃ binds
    exact finish c₃ binds
  · exact finish c₂ ⟨sameScope_reflexive.refl _, (List.append_nil _).symm⟩

/-! ## Other statements -/

namespace Resolves

theorem emitReturn (first : Nat) (num : Option Nat) : Resolves env ds [] (Compile.onFunc (Func.emitReturn first num)) :=
  onFunc (Func.emitABC_keeps sameScope_steps _ _ _ _)

theorem storeFrom (targets : List ExpDesc) (n : Nat) : Resolves env ds [] (storeFrom targets n) := by
  induction n with
  | zero => exact pure _
  | succ n ih =>
      refine getFunc.silently fun fs => ?_
      split
      · exact throw _
      · split
        · exact throw _
        · refine (onFunc (Func.storevar_keeps sameScope_steps _ _)).silently fun _ => ?_
          exact (setExp _).silently fun _ => ih

theorem genStores (targets : List ExpDesc) (numValues : Nat) : Resolves env ds [] (genStores targets numValues) := by
  have drops (n : Nat) : Resolves env ds [] (dropRegisters n) := by
    refine getFunc.silently fun fs => ?_
    split
    · exact throw _
    · exact modifyFree _
  unfold Compile.genStores
  dsimp only
  split
  · exact throw _
  · split
    · refine (onExp (Func.adjustAssign_keeps sameScope_steps _ _)).silently fun _ => ?_
      exact (drops _).silently fun _ => storeFrom _ _
    · split
      · exact throw _
      · refine (onExp (Func.setoneret_keeps sameScope_steps)).silently fun _ => ?_
        exact (onExp (Func.storevar_keeps sameScope_steps _)).silently fun _ => storeFrom _ _

theorem genReturnValues (numValues : Nat) : Resolves env ds [] (genReturnValues numValues) := by
  have returns (first : Nat) (num : Option Nat) : Resolves env ds [] (do
      let _ ← Compile.onFunc (Func.emitReturn first num)) := (emitReturn first num).silently fun _ => pure _
  refine getFunc.silently fun fs => ?_
  split
  · refine (onFunc (Func.setreturns_keeps sameScope_steps _ _)).silently fun _ => ?_
    split
    · split
      · refine (onFunc (Func.patch_keeps sameScope_steps _ _)).silently fun _ => ?_
        refine (onFunc (Func.getcode_keeps sameScope_steps _)).silently fun i => ?_
        split
        · exact returns _ _
        · exact throw _
      · exact returns _ _
    · exact returns _ _
  · split
    · exact (onExpReg (Func.exp2anyreg_keeps sameScope_steps)).silently fun _ => returns _ _
    · refine nextReg.silently fun _ => ?_
      refine getFunc.silently fun fs => ?_
      split
      · exact returns _ _
      · exact throw _

theorem patchHere (index : Nat) : Resolves env ds [] (patchHere index) := by
  refine getFunc.silently fun fs => ?_
  split
  · exact throw _
  · exact onFunc (Func.patch_keeps sameScope_steps _ _)

theorem patchAll (jumps : List Nat) : Resolves env ds [] (patchAll jumps) := by
  induction jumps with
  | nil => exact pure _
  | cons index rest ih => exact (patchHere index).silently fun _ => ih

theorem emitJump : Resolves env ds [] (Compile.onFunc (Func.emitAsBx .jmp 0 0)) := onFunc (Func.emitWord_keeps sameScope_steps _)

theorem genTest : Resolves env ds [] genTest :=
  nextReg.silently fun _ => (onFunc (Func.emitABC_keeps sameScope_steps _ _ _ _)).silently fun _ => emitJump

end Resolves

theorem areExprs_of_identifiers {targets : List Node} (h : targets.all isIdentifier = true) :
    areExprs targets = true := by
  induction targets with
  | nil => rfl
  | cons target targets ih =>
      simp only [List.all_cons, Bool.and_eq_true] at h
      cases target <;> simp_all [areExprs, isExpr, isIdentifier]

mutual

theorem genNode_walks (ds : List Declaration) (node : Node) (h : isStat node = true) :
    Walks env ds (walk env.source ds node).1 (walk env.source ds node).2 (genNode env node) := by
  cases node with
  | assignmentStatement targets values isLocal =>
      simp only [isStat, Bool.and_eq_true, Bool.or_eq_true] at h
      cases isLocal with
      | true => exact local_walks targets values h.2
      | false =>
          rw [genNode]
          refine Walks.ofResolves ?_
          refine (genTargets_resolves ds targets (areExprs_of_identifiers (by simpa using h.1))).bind fun exps => ?_
          exact (genExpList1_resolves ds values h.2).andThen fun _ => .genStores _ _
  | doStatement body =>
      rw [genNode]
      exact (genBody_walks ds body h).relabel (leaveBlock_names _ _)
  | ifStatement clauses =>
      rw [genNode]
      exact (genClauses_walks ds clauses [] h).andThen fun escapes => .patchAll escapes
  | ifClause _ _ _ =>
      rw [genNode]
      exact fun _ _ => trivial
  | returnStatement values =>
      rw [genNode]
      refine Walks.ofResolves ?_
      cases values with
      | nil => exact (Resolves.emitReturn _ _).silently fun _ => .pure _
      | cons value values =>
          simp only [List.isEmpty_cons, Bool.false_eq_true, if_false]
          split
          · exact .throw _
          · exact (genExpList1_resolves ds _ h).andThen fun _ => .genReturnValues _
  | call expression arguments opens closes isStatement =>
      exact Walks.ofResolves (genNode_resolves ds (.call expression arguments opens closes isStatement) h)
  | _ => cases h

theorem genBody_walks (ds : List Declaration) (nodes : List Node) (h : areStats nodes = true) :
    Walks env ds (walkAll env.source ds nodes).1 (walkAll env.source ds nodes).2 (genBody env nodes) := by
  cases nodes with
  | nil =>
      rw [genBody]
      exact Walks.ofResolves (.pure _)
  | cons node rest =>
      simp only [areStats, Bool.and_eq_true] at h
      rw [genBody]
      exact (genNode_walks ds node h.1).bind fun _ => genBody_walks _ rest h.2

theorem genClause_walks (ds : List Declaration) (last : Bool) (node : Node) (h : isStat node = true) :
    Walks env ds (walk env.source ds node).1 (walk env.source ds node).2 (genClause env last node) := by
  cases node with
  | ifClause token condition body =>
      simp only [isStat, Bool.and_eq_true] at h
      cases condition with
      | none =>
          rw [genClause]
          have body := (genBody_walks ds body h.2).andThen fun _ => Resolves.pure ([] : List Nat)
          exact body.relabel (leaveBlock_names _ _)
      | some condition =>
          rw [genClause]
          refine Walks.relabel ?_ (leaveBlock_names _ _)
          refine (Walks.ofResolves (genNode_resolves ds condition h.1)).bind fun _ => ?_
          refine Walks.silently .genTest fun jump => ?_
          refine (genBody_walks ds body h.2).andThen fun _ => ?_
          have ends (ds : List Declaration) (escapes : List Nat) :
              Resolves env ds [] (do patchHere jump; return escapes) :=
            (Resolves.patchHere jump).silently fun _ => .pure _
          split
          · exact ends _ _
          · exact Resolves.emitJump.silently fun _ => ends _ _
  | _ => exact fun _ _ => trivial

theorem genClauses_walks (ds : List Declaration) (nodes : List Node) (escapes : List Nat)
    (h : areStats nodes = true) :
    Walks env ds (walkAll env.source ds nodes).1 (walkAll env.source ds nodes).2
      (genClauses env nodes escapes) := by
  cases nodes with
  | nil =>
      rw [genClauses]
      exact Walks.ofResolves (.pure _)
  | cons node rest =>
      simp only [areStats, Bool.and_eq_true] at h
      rw [genClauses]
      exact (genClause_walks ds _ node h.1).bind fun _ => genClauses_walks _ rest _ h.2

end

/-! ## Whole chunks -/

theorem genStatements_walks (ds : List Declaration) (nodes : List Node) (h : areStats nodes = true) :
    Walks env ds (walkAll env.source ds nodes).1 (walkAll env.source ds nodes).2 (genStatements env nodes) := by
  induction nodes generalizing ds with
  | nil => exact Walks.ofResolves (.pure _)
  | cons node rest ih =>
      simp only [areStats, Bool.and_eq_true] at h
      refine (genNode_walks ds node h.1).bind fun _ => ?_
      refine Walks.silently .getFunc fun fs => ?_
      split
      · exact Walks.silently (.modifyFree _) fun _ => ih _ h.2
      · exact fun _ _ => trivial

-- what the chunk's names are resolved to
theorem genChunk_bindings {body : List Node} (h : areStats body = true) {breakList : Option (List Nat)}
    (compiled : genChunk env (.chunk body) { breakList } = .ok ((), c)) :
    c.bindings = (walkAll env.source [] body).1.map (Occurrence.binding env.source) := by
  have start : Settled env.source ({ breakList } : Compiler).func [] :=
    ⟨⟨rfl, by simp, by simp⟩, rfl, List.length_replicate⟩
  have whole : Sat (fun _ => True) (genChunk env (.chunk body)) { breakList } fun _ c =>
      c.bindings = (walkAll env.source [] body).1.map (Occurrence.binding env.source) := by
    refine Sat.bind ((genStatements_walks [] body h _ start).mono ?_)
    intro _ c₁ ⟨_, bindings⟩
    have removed : Sat (fun _ => True) Func.removevars c₁.func fun _ _ => True := by
      refine Sat.bind (Sat.get ?_)
      split <;> trivial
    refine Sat.bind (sat_onFunc (removed.mono ?_))
    intro _ func _
    exact bindings
  unfold Sat at whole
  rw [compiled] at whole
  exact whole

-- the resolution by blocks: to the innermost declaration that is live, or to the global of the name
def lexicalBindings (source : List UInt8) (body : List Node) : List (Token × Option Nat) :=
  (walkAll source [] body).1.map fun o => (o.token, innermost o.declared (o.token.slice source))

-- the last declaration of the name stands in a block that has ended
def Occurrence.Stale (source : List UInt8) (o : Occurrence) : Prop :=
  ∃ i d, lastNamed o.declared (o.token.slice source) = some i ∧ o.declared[i]? = some d ∧ d.live = false

theorem lastOf_live {name : List UInt8} {n : Nat} :
    lastOf (fun d => d.name = name) ds n = lastOf (fun d => d.name = name && d.live) ds n ↔
      ¬∃ i d, lastOf (fun d => d.name = name) ds n = some i ∧ ds[i]? = some d ∧ d.live = false := by
  induction n with
  | zero => simp [lastOf]
  | succ n ih =>
      cases found : ds[n]? with
      | none => simpa [lastOf, found] using ih
      | some d =>
          by_cases named : d.name = name
          · cases live : d.live with
            | true => simp [lastOf, found, named, live]
            | false =>
                have earlier : some n ≠ lastOf (fun d => d.name = name && d.live) ds n := by
                  intro same
                  exact lt_irrefl n (lastOf_lt same.symm)
                simp [lastOf, found, named, live, earlier]
          · simpa [lastOf, found, named] using ih

theorem scoping_iff (env : Env) (body : List Node) (fragment : areStats body = true)
    (breakList : Option (List Nat)) (c : Compiler)
    (compiled : genChunk env (.chunk body) { breakList } = .ok ((), c)) :
    c.bindings = lexicalBindings env.source body ↔
      ∀ o ∈ (walkAll env.source [] body).1, ¬ o.Stale env.source := by
  rw [genChunk_bindings fragment compiled, lexicalBindings, List.map_inj_left]
  refine forall₂_congr fun o _ => ?_
  rw [Occurrence.binding, binding, Prod.mk.injEq, and_iff_right rfl]
  exact lastOf_live

-- the tree of `do local x end return x`
def blockBody : List Node :=
  [.doStatement [.assignmentStatement [.identifier ⟨.name, 9, 10, 1, none⟩] [] true],
    .returnStatement [.identifier ⟨.name, 22, 23, 1, none⟩]]

def blockSource : List UInt8 := Lex.bytes "do local x end return x"

theorem blockBody_compiles : ∃ c, genChunk (plainEnv blockSource) (.chunk blockBody) {} = .ok ((), c) ∧
    c.bindings = [(⟨.name, 22, 23, 1, none⟩, some 0)] := by
  have run : (genChunk (plainEnv blockSource) (.chunk blockBody) {}).toOption.map (·.2.bindings) =
      some [(⟨.name, 22, 23, 1, none⟩, some 0)] := by
    decide +kernel
  cases compiled : genChunk (plainEnv blockSource) (.chunk blockBody) {} with
  | error e =>
      rw [compiled] at run
      cases run
  | ok pair =>
      rw [compiled] at run
      exact ⟨pair.2, rfl, Option.some.inj run⟩

theorem local_leaks : ∃ c, genChunk (plainEnv blockSource) (.chunk blockBody) {} = .ok ((), c) ∧
    c.bindings ≠ lexicalBindings blockSource blockBody := by
  obtain ⟨c, compiled, bindings⟩ := blockBody_compiles
  refine ⟨c, compiled, ?_⟩
  rw [bindings]
  decide +kernel

theorem scoping_block : ∃ c, genChunk (plainEnv blockSource) (.chunk blockBody) {} = .ok ((), c) ∧
    (c.bindings = lexicalBindings blockSource blockBody ↔
      ∀ o ∈ (walkAll blockSource [] blockBody).1, ¬ o.Stale blockSource) := by
  obtain ⟨c, compiled, -⟩ := blockBody_compiles
  exact ⟨c, compiled, scoping_iff (plainEnv blockSource) blockBody (by decide +kernel) none c compiled⟩

end Zua.Compile
