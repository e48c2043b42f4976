import Zua.Parse.Statements

/-!
# The shape of trees

The place of a node in a tree is its role, and every role is filled in a few ways only. The trees that the parser
returns have this shape.
-/

namespace Zua.Parse
open Zua.Lex Syntax

inductive Role
  | chunk | statement | expression | callee | target | key | field | path | functionName | clause | lastClause
  deriving DecidableEq

def assignable : Node → Bool
  | .identifier _ | .fieldAccess _ _ _ | .indexAccess _ _ _ _ => true
  | _ => false

inductive Shaped : Role → Node → Prop
  | chunk {body : List Node} : (∀ stat ∈ body, Shaped .statement stat) → Shaped .chunk (.chunk body)
  -- expressions
  | literal {token : Token} : isLiteral token.id = true → Shaped .expression (.literal token)
  | identifier {token : Token} : token.id = .name → Shaped .expression (.identifier token)
  | fieldAccess {operand : Node} {field separator : Token} : Shaped .expression operand →
      separator.isChar (ch '.') = true → Shaped .expression (.fieldAccess operand field separator)
  | indexAccess {operand index : Node} {openToken closeToken : Token} : Shaped .expression operand →
      Shaped .expression index → Shaped .expression (.indexAccess operand index openToken closeToken)
  | call {callee : Node} {arguments : List Node} {openArgs closeArgs : Option Token} : Shaped .callee callee →
      (∀ argument ∈ arguments, Shaped .expression argument) → (closeArgs = none → arguments.length = 1) →
      Shaped .expression (.call callee arguments openArgs closeArgs false)
  | function {parameters : List Token} {body : List Node} : (∀ stat ∈ body, Shaped .statement stat) →
      Shaped .expression (.functionDeclaration none parameters body false)
  | tableConstructor {fields : List Node} {openToken closeToken : Token} : (∀ field ∈ fields, Shaped .field field) →
      Shaped .expression (.tableConstructor fields openToken closeToken)
  | unaryExpression {operator : Token} {argument : Node} : isUnaryOperator operator = true →
      Shaped .expression argument → Shaped .expression (.unaryExpression operator argument)
  | binaryExpression {operator : Token} {left right : Node} : isBinaryOperator operator = true →
      Shaped .expression left → Shaped .expression right →
      Shaped .expression (.binaryExpression operator left right)
  | groupedExpression {openToken closeToken : Token} {expression : Node} : Shaped .expression expression →
      Shaped .expression (.groupedExpression openToken expression closeToken)
  -- the parts of expressions
  | callee {expression : Node} : Shaped .expression expression → Shaped .callee expression
  | method {operand : Node} {field separator : Token} : Shaped .expression operand →
      separator.isChar (ch ':') = true → Shaped .callee (.fieldAccess operand field separator)
  | key {expression : Node} : Shaped .expression expression → Shaped .key expression
  | nameKey {token : Token} : token.id = .name → Shaped .key (.literal token)
  | listField {value : Node} : Shaped .expression value → Shaped .field (.tableField none value)
  | recField {key value : Node} : Shaped .key key → Shaped .expression value →
      Shaped .field (.tableField (some key) value)
  -- statements
  | callStatement {callee : Node} {arguments : List Node} {openArgs closeArgs : Option Token} :
      Shaped .callee callee → (∀ argument ∈ arguments, Shaped .expression argument) →
      (closeArgs = none → arguments.length = 1) →
      Shaped .statement (.call callee arguments openArgs closeArgs true)
  | target {expression : Node} : Shaped .expression expression → assignable expression = true →
      Shaped .target expression
  | assignment {targets values : List Node} : targets ≠ [] → (∀ target ∈ targets, Shaped .target target) →
      (∀ value ∈ values, Shaped .expression value) → Shaped .statement (.assignmentStatement targets values false)
  | localStatement {targets values : List Node} : (∀ target ∈ targets, ∃ token, target = .identifier token) →
      (∀ value ∈ values, Shaped .expression value) → Shaped .statement (.assignmentStatement targets values true)
  | returnStatement {values : List Node} : (∀ value ∈ values, Shaped .expression value) →
      Shaped .statement (.returnStatement values)
  | breakStatement {token : Token} : Shaped .statement (.breakStatement token)
  | whileStatement {condition : Node} {body : List Node} : Shaped .expression condition →
      (∀ stat ∈ body, Shaped .statement stat) → Shaped .statement (.whileStatement condition body)
  | doStatement {body : List Node} : (∀ stat ∈ body, Shaped .statement stat) →
      Shaped .statement (.doStatement body)
  | repeatStatement {condition : Node} {body : List Node} : (∀ stat ∈ body, Shaped .statement stat) →
      Shaped .expression condition → Shaped .statement (.repeatStatement body condition)
  | forStatementNumeric {name : Token} {start stop : Node} {increment : Option Node} {body : List Node} :
      Shaped .expression start → Shaped .expression stop → (∀ e, increment = some e → Shaped .expression e) →
      (∀ stat ∈ body, Shaped .statement stat) →
      Shaped .statement (.forStatementNumeric name start stop increment body)
  | forStatementGeneric {names : List Token} {expressions body : List Node} :
      (∀ e ∈ expressions, Shaped .expression e) → (∀ stat ∈ body, Shaped .statement stat) →
      Shaped .statement (.forStatementGeneric names expressions body)
  | ifStatement {first : List Node} {last : Node} : (∀ clause ∈ first, Shaped .clause clause) →
      Shaped .lastClause last → Shaped .statement (.ifStatement (first ++ [last]))
  | clause {token : Token} {condition : Node} {body : List Node} : Shaped .expression condition →
      (∀ stat ∈ body, Shaped .statement stat) → Shaped .clause (.ifClause token (some condition) body)
  | lastClause {clause : Node} : Shaped .clause clause → Shaped .lastClause clause
  | elseClause {token : Token} {body : List Node} : (∀ stat ∈ body, Shaped .statement stat) →
      Shaped .lastClause (.ifClause token none body)
  -- declarations of functions
  | name {token : Token} : Shaped .path (.identifier token)
  | nameField {operand : Node} {field separator : Token} : Shaped .path operand →
      separator.isChar (ch '.') = true → Shaped .path (.fieldAccess operand field separator)
  | functionName {path : Node} : Shaped .path path → Shaped .functionName path
  | methodName {path : Node} {field separator : Token} : Shaped .path path → separator.isChar (ch ':') = true →
      Shaped .functionName (.fieldAccess path field separator)
  | functionStatement {name : Node} {parameters : List Token} {body : List Node} : Shaped .functionName name →
      (∀ stat ∈ body, Shaped .statement stat) →
      Shaped .statement (.functionDeclaration (some name) parameters body false)
  | localFunction {token : Token} {parameters : List Token} {body : List Node} :
      (∀ stat ∈ body, Shaped .statement stat) →
      Shaped .statement (.functionDeclaration (some (.identifier token)) parameters body true)

abbrev AllShaped (role : Role) (nodes : List Node) : Prop := ∀ node ∈ nodes, Shaped role node

theorem AllShaped.snoc {role : Role} {nodes : List Node} {node : Node} (all : AllShaped role nodes)
    (last : Shaped role node) : AllShaped role (nodes ++ [node]) := by
  intro n member
  rcases List.mem_append.mp member with member | member
  · exact all n member
  · rw [List.mem_singleton.mp member]
    exact last

theorem AllShaped.nil {role : Role} : AllShaped role [] := fun _ member => (List.not_mem_nil member).elim

theorem AllShaped.one {role : Role} {node : Node} (shaped : Shaped role node) : AllShaped role [node] :=
  AllShaped.nil.snoc shaped

/-! ## What the functions of the parser return -/

abbrev Builds {α : Type} (P : α → Prop) (f : ParseM α) : Prop := Yields (fun _ => True) P f

def Turn.Is {σ β : Type} (I : σ → Prop) (Q : β → Prop) : Turn σ β → Prop
  | .again s => I s
  | .leave b => Q b

theorem Builds.loop {σ β : Type} {step : σ → ParseM (Turn σ β)} {I : σ → Prop} {Q : β → Prop} {x : σ} (start : I x)
    (turn : ∀ x, I x → Builds (Turn.Is I Q) (step x)) : Builds Q (loop step x) := by
  intro p
  refine Sat.loop trivial (fun x p h => (turn x h p).mono ?_) start
  rintro (y | b) q is
  · exact is
  · exact is

theorem checkname_shaped : Builds (fun token => token.id = .name) checkname := by
  intro p
  refine Sat.bind (Sat.bind (Sat.get (Sat.pure ?_)))
  refine Sat.bind (Sat.bind (Sat.bind (Sat.bind (Sat.get (Sat.pure ?_)))))
  split
  · rename_i name
    exact Sat.pure (Sat.always fun _ _ => name)
  · exact Sat.bind (Sat.bind (Sat.get (Sat.pure (Sat.throw trivial))))

structure Shapely (c : Calls) : Prop where
  subexpr : ∀ limit, Builds (fun e => Shaped .expression e.node) (c.subexpr limit)
  block : Builds (AllShaped .statement) c.block

section
variable {c : Calls} (shapely : Shapely c)
include shapely

theorem expr_shaped : Builds (Shaped .expression) (expr c) :=
  (shapely.subexpr 0).bind fun _ shaped => Yields.pure shaped

theorem explist1_shaped : Builds (AllShaped .expression) (explist1 c) := by
  refine (expr_shaped shapely).bind fun first shaped => ?_
  refine Builds.loop (I := AllShaped .expression) (AllShaped.one shaped) fun list all => ?_
  refine Yields.after fun more => ?_
  split
  · exact (expr_shaped shapely).bind fun e next => Yields.pure (all.snoc next)
  · exact Yields.pure all

theorem listfield_shaped : Builds (Shaped .field) (listfield c) :=
  (expr_shaped shapely).bind fun _ shaped => Yields.pure (.listField shaped)

theorem recfieldKey_shaped : Builds (Shaped .key) (recfieldKey c) := by
  refine Yields.after fun token => ?_
  split
  · exact checkname_shaped.bind fun name found => Yields.pure (.nameKey found)
  split
  · refine Yields.after fun _ => ?_
    refine (expr_shaped shapely).bind fun key shaped => ?_
    exact Yields.after fun _ => Yields.pure (.key shaped)
  · exact Yields.throw trivial

theorem recfield_shaped : Builds (Shaped .field) (recfield c) := by
  refine (recfieldKey_shaped shapely).bind fun key shapedKey => ?_
  refine Yields.after fun _ => ?_
  exact (expr_shaped shapely).bind fun value shaped => Yields.pure (.recField shapedKey shaped)

theorem tableField_shaped : Builds (Shaped .field) (tableField c) := by
  refine Yields.after fun p => ?_
  split
  · split
    · split
      · exact recfield_shaped shapely
      · exact listfield_shaped shapely
    · exact listfield_shaped shapely
    · exact Yields.throw trivial
  split
  · exact recfield_shaped shapely
  · exact listfield_shaped shapely

theorem constructor_shaped : Builds (Shaped .expression) (constructor c) := by
  refine Yields.after fun openBrace => ?_
  refine Yields.after fun _ => ?_
  refine Yields.bind (Builds.loop (I := AllShaped .field) (Q := AllShaped .field) AllShaped.nil fun fields all => ?_)
    fun fields all => ?_
  · refine Yields.after fun token => ?_
    split
    · exact Yields.pure all
    · refine (tableField_shaped shapely).bind fun field shaped => ?_
      refine Yields.after fun more => ?_
      split
      · exact Yields.pure (all.snoc shaped)
      · exact Yields.pure (all.snoc shaped)
  · refine Yields.after fun closeBrace => ?_
    exact Yields.after fun _ => Yields.pure (.tableConstructor all)

theorem arguments_shaped : Builds (AllShaped .expression) (arguments c) := by
  refine Yields.after fun token => ?_
  split
  · exact Yields.pure AllShaped.nil
  · exact explist1_shaped shapely

-- a call as an expression, of anything that can be called
theorem funcargs_shaped {callee : Node} (called : Shaped .callee callee) :
    Builds (Shaped .expression) (funcargs c callee) := by
  refine Yields.after fun token => ?_
  split
  · split
    · exact Yields.throw trivial
    split
    · exact Yields.after fun _ => Yields.throw trivial
    · refine Yields.after fun _ => ?_
      refine (arguments_shaped shapely).bind fun arguments all => ?_
      refine Yields.after fun closeArgs => ?_
      exact Yields.after fun _ => Yields.pure (.call called all fun none => (Option.some_ne_none _ none).elim)
  split
  · exact (constructor_shaped shapely).bind fun node shaped => Yields.pure (.call called (AllShaped.one shaped) fun _ => rfl)
  split
  · rename_i string
    refine Yields.after fun _ => Yields.pure (.call called (AllShaped.one (.literal ?_)) fun _ => rfl)
    rw [string]
    rfl
  · exact Yields.after fun _ => Yields.throw trivial

structure LShaped (e : PossibleLValueExpression) : Prop where
  shaped : Shaped .expression e.node
  target : e.canBeAssignedTo = true → assignable e.node = true

theorem prefixexp_shaped : Builds LShaped (prefixexp c) := by
  refine Yields.after fun token => ?_
  split
  · rename_i name
    exact Yields.after fun _ => Yields.pure ⟨.identifier name, fun _ => rfl⟩
  split
  · refine Yields.after fun _ => ?_
    refine (expr_shaped shapely).bind fun expression shaped => ?_
    refine Yields.after fun closeParen => ?_
    exact Yields.after fun _ => Yields.pure ⟨.groupedExpression shaped, fun can => Bool.noConfusion can⟩
  · exact Yields.after fun _ => Yields.throw trivial

theorem suffix_shaped {expression : PossibleLValueExpression} (whole : LShaped expression) :
    Builds (Turn.Is LShaped LShaped) (suffix c expression) := by
  refine Yields.after fun token => ?_
  split
  · rename_i dot
    refine Yields.after fun _ => ?_
    exact Yields.after fun field => Yields.pure ⟨.fieldAccess whole.shaped dot, fun _ => rfl⟩
  split
  · refine Yields.after fun _ => ?_
    refine (expr_shaped shapely).bind fun index shaped => ?_
    refine Yields.after fun closeToken => ?_
    exact Yields.after fun _ => Yields.pure ⟨.indexAccess whole.shaped shaped, fun _ => rfl⟩
  split
  · rename_i colon
    refine Yields.after fun _ => ?_
    refine Yields.after fun field => ?_
    exact (funcargs_shaped shapely (.method whole.shaped colon)).bind fun node shaped => Yields.pure ⟨shaped, fun can => Bool.noConfusion can⟩
  split
  · exact (funcargs_shaped shapely (.callee whole.shaped)).bind fun node shaped => Yields.pure ⟨shaped, fun can => Bool.noConfusion can⟩
  · exact Yields.pure whole

theorem primaryexp_shaped : Builds LShaped (primaryexp c) :=
  (prefixexp_shaped shapely).bind fun _ whole => Builds.loop whole fun _ => suffix_shaped shapely

theorem varargBlock_shaped (varargFound : Bool) : Builds (AllShaped .statement) (varargBlock c varargFound) := by
  refine Yields.after fun p => ?_
  refine Yields.after fun _ => ?_
  refine shapely.block.bind fun body all => ?_
  exact Yields.after fun _ => Yields.pure all

theorem funcbody_shaped (functionToken : Token) {name : Option Node} {isLocal : Bool} {role : Role}
    (shape : ∀ parameters body, AllShaped .statement body →
      Shaped role (.functionDeclaration name parameters body isLocal)) :
    Builds (Shaped role) (funcbody c functionToken name isLocal) := by
  refine Yields.after fun _ => ?_
  refine Yields.after fun params => ?_
  refine Yields.after fun _ => ?_
  refine (varargBlock_shaped shapely params.2).bind fun body all => ?_
  exact Yields.after fun _ => Yields.pure (shape params.1 body all)

theorem simpleexp_shaped : Builds (Shaped .expression) (simpleexp c) := by
  refine Yields.after fun p => ?_
  split
  · rename_i literal
    split
    · exact Yields.after fun _ => Yields.throw trivial
    · exact Yields.after fun _ => Yields.pure (.literal literal)
  split
  · exact constructor_shaped shapely
  split
  · exact Yields.after fun _ => funcbody_shaped shapely p.token fun _ _ all => .function all
  · exact (primaryexp_shaped shapely).bind fun _ whole => Yields.pure whole.shaped

theorem operand_shaped : Builds (Shaped .expression) (operand c) := by
  refine Yields.after fun token => ?_
  split
  · rename_i isUnary
    refine Yields.after fun _ => ?_
    exact (shapely.subexpr _).bind fun _ shaped => Yields.pure (.unaryExpression isUnary shaped)
  · exact simpleexp_shaped shapely

theorem binary_shaped (limit : Nat) {e : SubExpr} (left : Shaped .expression e.node) :
    Builds (Turn.Is (fun e => Shaped .expression e.node) fun e => Shaped .expression e.node) (binary c limit e) := by
  unfold binary
  split
  · rename_i op _
    split
    · rename_i isBinary
      show Builds _ (if (getBinaryPriority op).left ≤ limit then _ else _)
      split
      · exact Yields.pure left
      · refine Yields.after fun _ => ?_
        exact (shapely.subexpr _).bind fun _ right => Yields.pure (.binaryExpression isBinary left right)
    · exact Yields.pure left
  · exact Yields.pure left

theorem subexpr_shaped (limit : Nat) : Builds (fun e => Shaped .expression e.node) (subexpr c limit) := by
  refine Yields.after fun _ => ?_
  refine (operand_shaped shapely).bind fun node shaped => ?_
  refine Yields.after fun op => ?_
  refine Yields.bind (Builds.loop (I := fun e => Shaped .expression e.node) shaped fun e left =>
    binary_shaped shapely limit left) fun e whole => ?_
  exact Yields.after fun _ => Yields.pure whole

/-! ## Statements -/

theorem loopBlock_shaped : Builds (AllShaped .statement) (loopBlock c) := by
  refine Yields.after fun p => ?_
  refine Yields.after fun _ => ?_
  refine shapely.block.bind fun body all => ?_
  exact Yields.after fun _ => Yields.pure all

omit shapely in
theorem funcname_shaped : Builds (Shaped .functionName) funcname := by
  refine Yields.after fun name => ?_
  refine Yields.bind (Builds.loop (I := Shaped .path) (Q := Shaped .path) .name fun node shaped => ?_)
    fun node shaped => ?_
  · refine Yields.after fun separator => ?_
    split
    · rename_i dot
      refine Yields.after fun _ => ?_
      exact Yields.after fun field => Yields.pure (.nameField shaped dot)
    · exact Yields.pure shaped
  · refine Yields.after fun separator => ?_
    split
    · rename_i colon
      refine Yields.after fun _ => ?_
      exact Yields.after fun field => Yields.pure (.methodName shaped colon)
    · exact Yields.pure (.functionName shaped)

theorem funcstat_shaped : Builds (Shaped .statement) (funcstat c) := by
  refine Yields.after fun functionToken => ?_
  refine Yields.after fun _ => ?_
  refine funcname_shaped.bind fun name named => ?_
  exact funcbody_shaped shapely functionToken fun _ _ all => .functionStatement named all

theorem retstat_shaped : Builds (Shaped .statement) (retstat c) := by
  refine Yields.after fun _ => ?_
  refine Yields.after fun token => ?_
  split
  · exact Yields.pure (.returnStatement AllShaped.nil)
  · exact (explist1_shaped shapely).bind fun values all => Yields.pure (.returnStatement all)

theorem whilestat_shaped : Builds (Shaped .statement) (whilestat c) := by
  refine Yields.after fun whileToken => ?_
  refine Yields.after fun _ => ?_
  refine (expr_shaped shapely).bind fun condition shaped => ?_
  refine Yields.after fun _ => ?_
  refine (loopBlock_shaped shapely).bind fun body all => ?_
  exact Yields.after fun _ => Yields.pure (.whileStatement shaped all)

omit shapely in
theorem breakstat_shaped : Builds (Shaped .statement) breakstat := by
  refine Yields.after fun breakToken => ?_
  refine Yields.after fun _ => ?_
  refine Yields.after fun p => ?_
  split
  · exact Yields.pure .breakStatement
  · exact Yields.after fun _ => Yields.throw trivial

theorem dostat_shaped : Builds (Shaped .statement) (dostat c) := by
  refine Yields.after fun doToken => ?_
  refine Yields.after fun _ => ?_
  refine shapely.block.bind fun body all => ?_
  exact Yields.after fun _ => Yields.pure (.doStatement all)

theorem repeatstat_shaped : Builds (Shaped .statement) (repeatstat c) := by
  refine Yields.after fun repeatToken => ?_
  refine Yields.after fun _ => ?_
  refine (loopBlock_shaped shapely).bind fun body all => ?_
  refine Yields.after fun _ => ?_
  exact (expr_shaped shapely).bind fun condition shaped => Yields.pure (.repeatStatement all shaped)

theorem increment_shaped : Builds (fun increment => ∀ e, increment = some e → Shaped .expression e) (increment c) := by
  refine Yields.after fun more => ?_
  split
  · refine (expr_shaped shapely).bind fun e shaped => Yields.pure fun e' same => ?_
    cases same
    exact shaped
  · exact Yields.pure fun e none => (Option.some_ne_none e none.symm).elim

theorem fornum_shaped (name : Token) : Builds (Shaped .statement) (fornum c name) := by
  refine Yields.after fun _ => ?_
  refine (expr_shaped shapely).bind fun start shapedStart => ?_
  refine Yields.after fun _ => ?_
  refine (expr_shaped shapely).bind fun stop shapedStop => ?_
  refine (increment_shaped shapely).bind fun step shapedStep => ?_
  refine Yields.after fun _ => ?_
  exact (loopBlock_shaped shapely).bind fun body all =>
    Yields.pure (.forStatementNumeric shapedStart shapedStop shapedStep all)

theorem forlist_shaped (firstName : Token) : Builds (Shaped .statement) (forlist c firstName) := by
  refine Yields.after fun names => ?_
  refine Yields.after fun _ => ?_
  refine (explist1_shaped shapely).bind fun expressions all => ?_
  refine Yields.after fun _ => ?_
  exact (loopBlock_shaped shapely).bind fun body allBody => Yields.pure (.forStatementGeneric all allBody)

theorem forstat_shaped : Builds (Shaped .statement) (forstat c) := by
  refine Yields.after fun forToken => ?_
  refine Yields.after fun _ => ?_
  refine Yields.after fun name => ?_
  have vars : Builds (Shaped .statement) (forvars c name) := by
    refine Yields.after fun token => ?_
    split
    · exact fornum_shaped shapely name
    split
    · exact forlist_shaped shapely name
    · exact Yields.after fun _ => Yields.throw trivial
  exact vars.bind fun node shaped => Yields.after fun _ => Yields.pure shaped

-- only an `else` has no condition
theorem ifclause_shaped (p : Parser) :
    Sat (fun _ => True) (ifclause c) p fun node _ =>
      Shaped .lastClause node ∧ (p.token.id ≠ .keywordElse → Shaped .clause node) := by
  refine Sat.bind (Sat.bind (Sat.get (Sat.pure ?_)))
  refine Sat.last fun _ q => ?_
  have condition : Builds (fun condition => (condition = none ∧ p.token.id = .keywordElse) ∨
      ∃ e, condition = some e ∧ Shaped .expression e) (clauseCondition c p.token) := by
    unfold clauseCondition
    split
    · rename_i isElse
      exact Yields.pure (.inl ⟨rfl, isElse⟩)
    · refine (expr_shaped shapely).bind fun e shaped => ?_
      exact Yields.after fun _ => Yields.pure (.inr ⟨e, rfl, shaped⟩)
  refine Yields.bind condition (fun condition known => ?_) q
  refine shapely.block.bind fun body all => Yields.pure ?_
  rcases known with ⟨rfl, isElse⟩ | ⟨e, rfl, shaped⟩
  · exact ⟨.elseClause all, fun other => absurd isElse other⟩
  · exact ⟨.lastClause (.clause shaped all), fun _ => .clause shaped all⟩

theorem elseclause_shaped {clauses : List Node} (all : AllShaped .clause clauses) (some : clauses ≠ []) :
    Builds (fun clauses => Shaped .statement (.ifStatement clauses)) (elseclause c clauses) := by
  intro p
  refine Sat.bind (Sat.bind (Sat.get (Sat.pure ?_)))
  split
  · refine Sat.bind ((ifclause_shaped shapely p).mono ?_)
    rintro clause q ⟨last, -⟩
    exact Sat.pure (.ifStatement all last)
  · refine Sat.pure ?_
    rw [← List.dropLast_concat_getLast some]
    refine .ifStatement (fun clause member => all clause (List.mem_of_mem_dropLast member)) (.lastClause ?_)
    exact all _ (List.getLast_mem some)

theorem ifstat_shaped (p : Parser) (isIf : p.token.id = .keywordIf) :
    Sat (fun _ => True) (ifstat c) p fun node _ => Shaped .statement node := by
  refine Sat.bind (Sat.bind (Sat.get (Sat.pure ?_)))
  refine Sat.bind ((ifclause_shaped shapely p).mono ?_)
  rintro first q ⟨-, shaped⟩
  refine Yields.bind (Builds.loop (I := fun clauses => AllShaped .clause clauses ∧ clauses ≠ [])
    (Q := fun clauses => AllShaped .clause clauses ∧ clauses ≠ []) ?_ ?_) (fun clauses known => ?_) q
  · exact ⟨AllShaped.one (shaped (by rw [isIf]; decide)), List.cons_ne_nil _ _⟩
  · rintro clauses ⟨all, some⟩ p
    refine Sat.bind (Sat.bind (Sat.get (Sat.pure ?_)))
    split
    · rename_i isElseif
      refine Sat.bind ((ifclause_shaped shapely p).mono ?_)
      rintro clause q ⟨-, next⟩
      have one : clauses ++ [clause] ≠ [] := by simp
      exact Sat.pure ⟨all.snoc (next (by rw [isElseif]; decide)), one⟩
    · exact Sat.pure ⟨all, some⟩
  · refine (elseclause_shaped shapely known.1 known.2).bind fun clauses whole => ?_
    exact Yields.after fun _ => Yields.pure whole

theorem localfunc_shaped (functionToken : Token) : Builds (Shaped .statement) (localfunc c functionToken) :=
  Yields.after fun _ => funcbody_shaped shapely functionToken fun _ _ all => .localFunction all

omit shapely in
theorem localVariable_shaped {targets : List Node} (names : ∀ target ∈ targets, ∃ token, target = .identifier token) :
    Builds (Turn.Is (fun targets => ∀ target ∈ targets, ∃ token, target = .identifier token)
      fun targets => ∀ target ∈ targets, ∃ token, target = .identifier token) (localVariable targets) := by
  refine Yields.after fun name => ?_
  have more : ∀ target ∈ targets ++ [.identifier name], ∃ token, target = .identifier token := by
    intro target member
    rcases List.mem_append.mp member with member | member
    · exact names target member
    · exact ⟨name, List.mem_singleton.mp member⟩
  split
  · exact Yields.after fun _ => Yields.throw trivial
  · refine Yields.after fun comma => Yields.pure ?_
    split
    · exact more
    · exact more

theorem localstat_shaped : Builds (Shaped .statement) (localstat c) := by
  refine Yields.bind (Builds.loop (I := fun targets => ∀ target ∈ targets, ∃ token, target = .identifier token)
    (fun _ member => (List.not_mem_nil member).elim) fun targets => localVariable_shaped) fun targets names => ?_
  have values : Builds (AllShaped .expression) (localValues c) := by
    refine Yields.after fun more => ?_
    split
    · exact explist1_shaped shapely
    · exact Yields.pure AllShaped.nil
  exact values.bind fun values all => Yields.pure (.localStatement names all)

-- a target is only added when it can be assigned to
theorem target_shaped {s : List Node × PossibleLValueExpression} (all : AllShaped .target s.1) (whole : LShaped s.2) :
    Builds (Turn.Is (fun s => AllShaped .target s.1 ∧ LShaped s.2)
      fun targets => targets ≠ [] ∧ AllShaped .target targets) (target c s) := by
  unfold target
  split
  · rename_i can
    have more : AllShaped .target (s.1 ++ [s.2.node]) := all.snoc (.target whole.shaped (whole.target can))
    have some : s.1 ++ [s.2.node] ≠ [] := by simp
    refine Yields.after fun comma => ?_
    split
    · exact (primaryexp_shaped shapely).bind fun next shaped => Yields.pure ⟨more, shaped⟩
    · exact Yields.pure ⟨some, more⟩
  · exact Yields.after fun _ => Yields.throw trivial

theorem assignment_shaped {first : PossibleLValueExpression} (whole : LShaped first) :
    Builds (Shaped .statement) (assignment c first) := by
  refine Yields.bind (Builds.loop (I := fun s => AllShaped .target s.1 ∧ LShaped s.2)
    (Q := fun targets => targets ≠ [] ∧ AllShaped .target targets) ⟨AllShaped.nil, whole⟩
    fun s known => target_shaped shapely known.1 known.2) fun targets known => ?_
  refine Yields.after fun _ => ?_
  exact (explist1_shaped shapely).bind fun values all => Yields.pure (.assignment known.1 known.2 all)

theorem exprstat_shaped : Builds (Shaped .statement) (exprstat c) := by
  refine (primaryexp_shaped shapely).bind fun expression whole => ?_
  split
  · rename_i same
    have shaped := whole.shaped
    rw [same] at shaped
    cases shaped with
    | call called all closed => exact Yields.pure (.callStatement called all closed)
  · exact assignment_shaped shapely whole

theorem statement_shaped : Builds (Shaped .statement) (statement c) := by
  intro p
  refine Sat.bind (Sat.bind (Sat.get (Sat.pure ?_)))
  split
  · rename_i isIf
    exact ifstat_shaped shapely p isIf
  · refine Yields.after (fun _ => ?_) p
    refine Yields.after fun functionToken => ?_
    refine Yields.after fun found => ?_
    split
    · exact localfunc_shaped shapely functionToken
    · exact localstat_shaped shapely
  · exact retstat_shaped shapely p
  · exact whilestat_shaped shapely p
  · exact dostat_shaped shapely p
  · exact repeatstat_shaped shapely p
  · exact breakstat_shaped p
  · exact forstat_shaped shapely p
  · exact funcstat_shaped shapely p
  · exact exprstat_shaped shapely p

theorem block_shaped : Builds (AllShaped .statement) (block c) := by
  refine Yields.after fun _ => ?_
  refine Yields.bind (Builds.loop (I := AllShaped .statement) (Q := AllShaped .statement) AllShaped.nil
    fun list all => ?_) fun list all => ?_
  · refine Yields.after fun token => ?_
    split
    · exact Yields.pure all
    · refine (statement_shaped shapely).bind fun stat shaped => ?_
      refine Yields.after fun _ => Yields.pure ?_
      split
      · exact all.snoc shaped
      · exact all.snoc shaped
  · exact Yields.after fun _ => Yields.pure all

end

theorem calls_shapely (n : Nat) : Shapely (calls n) := by
  induction n with
  | zero => exact ⟨fun _ => Yields.throw trivial, Yields.throw trivial⟩
  | succ n ih => exact ⟨subexpr_shaped ih, block_shaped ih⟩

theorem parse_shaped {lexer : Lexer} {tree : Node} (parsed : parse lexer = .ok tree) : Shaped .chunk tree := by
  unfold parse at parsed
  split at parsed
  · rename_i lexer token _
    have whole : Builds (Shaped .chunk) chunk := by
      refine (block_shaped (calls_shapely _)).bind fun body all => ?_
      exact Yields.after fun _ => Yields.pure (.chunk all)
    have shaped := whole { lexer, token }
    unfold Sat at shaped
    split at shaped
    · rename_i run
      rw [run] at parsed
      cases parsed
      exact shaped
    · rename_i run
      rw [run] at parsed
      cases parsed
  · cases parsed
  · cases parsed

end Zua.Parse
