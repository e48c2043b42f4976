import Zua.Parse.Shape
import Zua.Parse.Precedence

/-!
# The grammar

The rules in the comments of `parse.zig`, as derivations of a sequence of tokens together with its tree. `next` is
the token behind the sequence: a repetition ends only where the next token cannot go on with it.
-/

namespace Zua.Parse
open Zua.Lex Syntax

/-! ## Names -/

-- { `,' NAME }
inductive MoreNames : List Token → List Token → Token → Prop
  | none {next : Token} : next.isChar (ch ',') = false → MoreNames [] [] next
  | more {comma name next : Token} {names ts : List Token} : comma.isChar (ch ',') = true → name.id = .name →
      MoreNames names ts next → MoreNames (name :: names) (comma :: name :: ts) next

-- the parameters, and whether the last one is `...'
inductive Params : List Token → Bool → List Token → Token → Prop
  | last {name next : Token} : name.id = .name → next.isChar (ch ',') = false → Params [name] false [name] next
  | more {name comma next : Token} {params ts : List Token} {vararg : Bool} : name.id = .name →
      comma.isChar (ch ',') = true → Params params vararg ts next →
      Params (name :: params) vararg (name :: comma :: ts) next
  | vararg {dots next : Token} : dots.id = .ellipsis → Params [dots] true [dots] next

-- parlist -> [ param { `,' param } ]
inductive ParList : List Token → Bool → List Token → Token → Prop
  | none {next : Token} : next.isChar (ch ')') = true → ParList [] false [] next
  | some {params ts : List Token} {vararg : Bool} {next : Token} : Params params vararg ts next →
      ParList params vararg ts next

-- { `.' NAME }, from the node in front of it
inductive Fields : Node → Node → List Token → Token → Prop
  | none {node : Node} {next : Token} : next.isChar (ch '.') = false → Fields node node [] next
  | field {node node' : Node} {dot field next : Token} {ts : List Token} : dot.isChar (ch '.') = true →
      field.id = .name → Fields (.fieldAccess node field dot) node' ts next →
      Fields node node' (dot :: field :: ts) next

-- funcname -> NAME {field} [`:' NAME]
inductive FuncName : Node → List Token → Token → Prop
  | plain {node : Node} {name next : Token} {ts : List Token} : name.id = .name →
      Fields (.identifier name) node ts next → next.isChar (ch ':') = false → FuncName node (name :: ts) next
  | method {node : Node} {name colon field next : Token} {ts : List Token} : name.id = .name →
      Fields (.identifier name) node ts colon → colon.isChar (ch ':') = true → field.id = .name →
      FuncName (.fieldAccess node field colon) (name :: (ts ++ [colon, field])) next

-- [`;']
inductive Semicolon : List Token → Token → Prop
  | none {next : Token} : next.isChar (ch ';') = false → Semicolon [] next
  | some {semicolon next : Token} : semicolon.isChar (ch ';') = true → Semicolon [semicolon] next

/-! ## Derivations -/

inductive Phrase
  | block (body : List Node)
  | statements (body : List Node)
  | statement (node : Node)
  | clause (head : Token) (node : Node)
  | elseifs (clauses : List Node)
  | otherwise (clauses : List Node)
  | localValues (values : List Node)
  | increment (e : Option Node)
  | funcbody (name : Option Node) (isLocal : Bool) (node : Node)
  | targets (first : Node) (targets : List Node)
  | explist (values : List Node)
  | others (values : List Node)
  | subexpr (limit : Nat) (node : Node)
  | operations (limit : Nat) (left node : Node)
  | operand (node : Node)
  | simple (node : Node)
  | primary (node : Node)
  | suffixes (operand node : Node)
  | args (callee node : Node)
  | arguments (arguments : List Node)
  | constructor (node : Node)
  | fields (fields : List Node)
  | field (node : Node)

-- the status gives what is around: a loop, a vararg function, and how many blocks and expressions are open
inductive Derives : Status → Phrase → List Token → Token → Prop
  -- block -> { stat [`;'] }
  | block {s : Status} {body : List Node} {ts : List Token} {next : Token} : s.syntaxLevel < maxSyntaxLevels →
      Derives s.deeper (.statements body) ts next → Derives s (.block body) ts next
  | noStatements {s : Status} {next : Token} : blockFollow next = true → Derives s (.statements []) [] next
  | lastStatement {s : Status} {node : Node} {ts semicolon : List Token} {next : Token} :
      Derives s (.statement node) ts (semicolon.headD next) → mustBeLast node = true → Semicolon semicolon next →
      Derives s (.statements [node]) (ts ++ semicolon) next
  | moreStatements {s : Status} {node : Node} {rest : List Node} {ts semicolon us : List Token} {next : Token} :
      Derives s (.statement node) ts ((semicolon ++ us).headD next) → mustBeLast node = false →
      Semicolon semicolon (us.headD next) → Derives s (.statements rest) us next →
      Derives s (.statements (node :: rest)) (ts ++ (semicolon ++ us)) next
  -- ifstat -> IF cond THEN block {ELSEIF cond THEN block} [ELSE block] END
  | ifStatement {s : Status} {ifToken endToken next : Token} {clause : Node} {elseifs otherwise : List Node}
      {ts us vs : List Token} : ifToken.id = .keywordIf →
      Derives s (.clause ifToken clause) ts ((us ++ (vs ++ [endToken])).headD next) →
      Derives s (.elseifs elseifs) us ((vs ++ [endToken]).headD next) → Derives s (.otherwise otherwise) vs endToken →
      endToken.id = .keywordEnd →
      Derives s (.statement (.ifStatement (clause :: (elseifs ++ otherwise)))) (ts ++ (us ++ (vs ++ [endToken]))) next
  | clause {s : Status} {head thenToken next : Token} {condition : Node} {body : List Node} {ts us : List Token} :
      head.id = .keywordIf ∨ head.id = .keywordElseif → Derives s (.subexpr 0 condition) ts thenToken →
      thenToken.id = .keywordThen → Derives s (.block body) us next →
      Derives s (.clause head (.ifClause head (some condition) body)) (head :: (ts ++ thenToken :: us)) next
  | elseClause {s : Status} {head next : Token} {body : List Node} {ts : List Token} : head.id = .keywordElse →
      Derives s (.block body) ts next → Derives s (.clause head (.ifClause head none body)) (head :: ts) next
  | noElseif {s : Status} {next : Token} : next.id ≠ .keywordElseif → Derives s (.elseifs []) [] next
  | moreElseif {s : Status} {head next : Token} {clause : Node} {rest : List Node} {ts us : List Token} :
      head.id = .keywordElseif → Derives s (.clause head clause) ts (us.headD next) →
      Derives s (.elseifs rest) us next → Derives s (.elseifs (clause :: rest)) (ts ++ us) next
  | noElse {s : Status} {next : Token} : next.id ≠ .keywordElse → Derives s (.otherwise []) [] next
  | withElse {s : Status} {head next : Token} {clause : Node} {ts : List Token} : head.id = .keywordElse →
      Derives s (.clause head clause) ts next → Derives s (.otherwise [clause]) ts next
  -- stat -> LOCAL FUNCTION NAME body
  | localFunction {s : Status} {localToken functionToken name next : Token} {node : Node} {ts : List Token} :
      localToken.id = .keywordLocal → functionToken.id = .keywordFunction → name.id = .name →
      Derives s (.funcbody (some (.identifier name)) true node) ts next →
      Derives s (.statement node) (localToken :: functionToken :: name :: ts) next
  -- stat -> LOCAL NAME {`,' NAME} [`=' explist1]
  | localStatement {s : Status} {localToken name next : Token} {names : List Token} {values : List Node}
      {ts us : List Token} : localToken.id = .keywordLocal → name.id = .name → MoreNames names ts (us.headD next) →
      (name :: names).length ≤ maxLocalVars → Derives s (.localValues values) us next →
      Derives s (.statement (.assignmentStatement ((name :: names).map .identifier) values true))
        (localToken :: name :: (ts ++ us)) next
  | noLocalValues {s : Status} {next : Token} : next.isChar (ch '=') = false → Derives s (.localValues []) [] next
  | withLocalValues {s : Status} {equals next : Token} {values : List Node} {ts : List Token} :
      equals.isChar (ch '=') = true → Derives s (.explist values) ts next →
      Derives s (.localValues values) (equals :: ts) next
  -- stat -> RETURN explist
  | returnNothing {s : Status} {returnToken next : Token} : returnToken.id = .keywordReturn →
      (blockFollow next || next.isChar (ch ';')) = true →
      Derives s (.statement (.returnStatement [])) [returnToken] next
  | returnValues {s : Status} {returnToken next : Token} {values : List Node} {ts : List Token} :
      returnToken.id = .keywordReturn → Derives s (.explist values) ts next →
      Derives s (.statement (.returnStatement values)) (returnToken :: ts) next
  -- whilestat -> WHILE cond DO block END
  | whileStatement {s : Status} {whileToken doToken endToken next : Token} {condition : Node} {body : List Node}
      {ts us : List Token} : whileToken.id = .keywordWhile → Derives s (.subexpr 0 condition) ts doToken →
      doToken.id = .keywordDo → Derives { s with inLoop := true } (.block body) us endToken →
      endToken.id = .keywordEnd →
      Derives s (.statement (.whileStatement condition body)) (whileToken :: (ts ++ doToken :: (us ++ [endToken]))) next
  | doStatement {s : Status} {doToken endToken next : Token} {body : List Node} {ts : List Token} :
      doToken.id = .keywordDo → Derives s (.block body) ts endToken → endToken.id = .keywordEnd →
      Derives s (.statement (.doStatement body)) (doToken :: (ts ++ [endToken])) next
  -- repeatstat -> REPEAT block UNTIL cond
  | repeatStatement {s : Status} {repeatToken untilToken next : Token} {body : List Node} {condition : Node}
      {ts us : List Token} : repeatToken.id = .keywordRepeat →
      Derives { s with inLoop := true } (.block body) ts untilToken → untilToken.id = .keywordUntil →
      Derives s (.subexpr 0 condition) us next →
      Derives s (.statement (.repeatStatement body condition)) (repeatToken :: (ts ++ untilToken :: us)) next
  | breakStatement {s : Status} {breakToken next : Token} : breakToken.id = .keywordBreak → s.inLoop = true →
      Derives s (.statement (.breakStatement breakToken)) [breakToken] next
  -- fornum -> NAME = exp1,exp1[,exp1] forbody
  | forNumeric {s : Status} {forToken name equals comma doToken endToken next : Token} {start stop : Node}
      {increment : Option Node} {body : List Node} {ts us vs ws : List Token} : forToken.id = .keywordFor →
      name.id = .name → equals.isChar (ch '=') = true → Derives s (.subexpr 0 start) ts comma →
      comma.isChar (ch ',') = true →
      Derives s (.subexpr 0 stop) us ((vs ++ doToken :: (ws ++ [endToken])).headD next) →
      Derives s (.increment increment) vs doToken → doToken.id = .keywordDo →
      Derives { s with inLoop := true } (.block body) ws endToken → endToken.id = .keywordEnd →
      Derives s (.statement (.forStatementNumeric name start stop increment body))
        (forToken :: name :: equals :: (ts ++ comma :: (us ++ (vs ++ doToken :: (ws ++ [endToken]))))) next
  | noIncrement {s : Status} {next : Token} : next.isChar (ch ',') = false → Derives s (.increment none) [] next
  | withIncrement {s : Status} {comma next : Token} {e : Node} {ts : List Token} : comma.isChar (ch ',') = true →
      Derives s (.subexpr 0 e) ts next → Derives s (.increment (some e)) (comma :: ts) next
  -- forlist -> NAME {,NAME} IN explist1 forbody
  | forGeneric {s : Status} {forToken name inToken doToken endToken next : Token} {names : List Token}
      {expressions body : List Node} {ts us vs : List Token} : forToken.id = .keywordFor → name.id = .name →
      MoreNames names ts inToken → inToken.id = .keywordIn → Derives s (.explist expressions) us doToken →
      doToken.id = .keywordDo → Derives { s with inLoop := true } (.block body) vs endToken →
      endToken.id = .keywordEnd →
      Derives s (.statement (.forStatementGeneric (name :: names) expressions body))
        (forToken :: name :: (ts ++ inToken :: (us ++ doToken :: (vs ++ [endToken])))) next
  -- funcstat -> FUNCTION funcname body
  | function {s : Status} {functionToken next : Token} {name node : Node} {ts us : List Token} :
      functionToken.id = .keywordFunction → FuncName name ts (us.headD next) →
      Derives s (.funcbody (some name) false node) us next →
      Derives s (.statement node) (functionToken :: (ts ++ us)) next
  -- body -> `(' parlist `)' chunk END
  | funcbody {s : Status} {openToken closeToken endToken next : Token} {name : Option Node} {isLocal vararg : Bool}
      {params : List Token} {body : List Node} {ts us : List Token} : openToken.isChar (ch '(') = true →
      ParList params vararg ts closeToken → closeToken.isChar (ch ')') = true →
      Derives { s with inVarargFunc := vararg } (.block body) us endToken → endToken.id = .keywordEnd →
      Derives s (.funcbody name isLocal (.functionDeclaration name params body isLocal))
        (openToken :: (ts ++ closeToken :: (us ++ [endToken]))) next
  -- stat -> func | assignment
  | callStatement {s : Status} {callee : Node} {arguments : List Node} {openArgs closeArgs : Option Token}
      {isStatement : Bool} {ts : List Token} {next : Token} :
      Derives s (.primary (.call callee arguments openArgs closeArgs isStatement)) ts next →
      Derives s (.statement (.call callee arguments openArgs closeArgs true)) ts next
  | assignment {s : Status} {first : Node} {targets values : List Node} {equals next : Token} {ts us vs : List Token} :
      Derives s (.primary first) ts ((us ++ equals :: vs).headD next) → Derives s (.targets first targets) us equals →
      equals.isChar (ch '=') = true → Derives s (.explist values) vs next →
      Derives s (.statement (.assignmentStatement targets values false)) (ts ++ (us ++ equals :: vs)) next
  | lastTarget {s : Status} {first : Node} {next : Token} : assignable first = true → next.isChar (ch ',') = false →
      Derives s (.targets first [first]) [] next
  | moreTargets {s : Status} {first second : Node} {rest : List Node} {comma next : Token} {ts us : List Token} :
      assignable first = true → comma.isChar (ch ',') = true → Derives s (.primary second) ts (us.headD next) →
      Derives s (.targets second rest) us next → Derives s (.targets first (first :: rest)) (comma :: (ts ++ us)) next
  -- explist1 -> exp { `,' exp }
  | explist {s : Status} {value : Node} {rest : List Node} {ts us : List Token} {next : Token} :
      Derives s (.subexpr 0 value) ts (us.headD next) → Derives s (.others rest) us next →
      Derives s (.explist (value :: rest)) (ts ++ us) next
  | noOthers {s : Status} {next : Token} : next.isChar (ch ',') = false → Derives s (.others []) [] next
  | moreOthers {s : Status} {value : Node} {rest : List Node} {comma next : Token} {ts us : List Token} :
      comma.isChar (ch ',') = true → Derives s (.subexpr 0 value) ts (us.headD next) →
      Derives s (.others rest) us next → Derives s (.others (value :: rest)) (comma :: (ts ++ us)) next
  -- subexpr -> (simpleexp | unop subexpr) { binop subexpr }
  | subexpr {s : Status} {limit : Nat} {head node : Node} {ts us : List Token} {next : Token} :
      s.syntaxLevel < maxSyntaxLevels → Derives s.deeper (.operand head) ts (us.headD next) →
      Derives s.deeper (.operations limit head node) us next → Derives s (.subexpr limit node) (ts ++ us) next
  | noOperation {s : Status} {limit : Nat} {node : Node} {next : Token} :
      (isBinaryOperator next = true → (getBinaryPriority next).left ≤ limit) →
      Derives s (.operations limit node node) [] next
  | operation {s : Status} {limit : Nat} {left right node : Node} {op next : Token} {ts us : List Token} :
      isBinaryOperator op = true → limit < (getBinaryPriority op).left →
      Derives s (.subexpr (getBinaryPriority op).right right) ts (us.headD next) →
      Derives s (.operations limit (.binaryExpression op left right) node) us next →
      Derives s (.operations limit left node) (op :: (ts ++ us)) next
  | unary {s : Status} {op next : Token} {argument : Node} {ts : List Token} : isUnaryOperator op = true →
      Derives s (.subexpr unaryPriority argument) ts next →
      Derives s (.operand (.unaryExpression op argument)) (op :: ts) next
  | simple {s : Status} {node : Node} {ts : List Token} {next : Token} : Derives s (.simple node) ts next →
      Derives s (.operand node) ts next
  -- simpleexp -> NUMBER | STRING | NIL | true | false | ... | constructor | FUNCTION body | primaryexp
  | literal {s : Status} {token next : Token} : isLiteral token.id = true →
      (token.id = .ellipsis → s.inVarargFunc = true) → Derives s (.simple (.literal token)) [token] next
  | table {s : Status} {node : Node} {ts : List Token} {next : Token} : Derives s (.constructor node) ts next →
      Derives s (.simple node) ts next
  | closure {s : Status} {functionToken next : Token} {node : Node} {ts : List Token} :
      functionToken.id = .keywordFunction → Derives s (.funcbody none false node) ts next →
      Derives s (.simple node) (functionToken :: ts) next
  | primary {s : Status} {node : Node} {ts : List Token} {next : Token} : Derives s (.primary node) ts next →
      Derives s (.simple node) ts next
  | name {s : Status} {name next : Token} {node : Node} {ts : List Token} : name.id = .name →
      Derives s (.suffixes (.identifier name) node) ts next → Derives s (.primary node) (name :: ts) next
  | group {s : Status} {openToken closeToken next : Token} {e node : Node} {ts us : List Token} :
      openToken.isChar (ch '(') = true → Derives s (.subexpr 0 e) ts closeToken → closeToken.isChar (ch ')') = true →
      Derives s (.suffixes (.groupedExpression openToken e closeToken) node) us next →
      Derives s (.primary node) (openToken :: (ts ++ closeToken :: us)) next
  | noSuffix {s : Status} {node : Node} {next : Token} : continues next = false →
      Derives s (.suffixes node node) [] next
  | fieldAccess {s : Status} {operand node : Node} {dot field next : Token} {ts : List Token} :
      dot.isChar (ch '.') = true → field.id = .name →
      Derives s (.suffixes (.fieldAccess operand field dot) node) ts next →
      Derives s (.suffixes operand node) (dot :: field :: ts) next
  | indexAccess {s : Status} {operand index node : Node} {openToken closeToken next : Token} {ts us : List Token} :
      openToken.isChar (ch '[') = true → Derives s (.subexpr 0 index) ts closeToken →
      closeToken.isChar (ch ']') = true →
      Derives s (.suffixes (.indexAccess operand index openToken closeToken) node) us next →
      Derives s (.suffixes operand node) (openToken :: (ts ++ closeToken :: us)) next
  | method {s : Status} {operand call node : Node} {colon field next : Token} {ts us : List Token} :
      colon.isChar (ch ':') = true → field.id = .name →
      Derives s (.args (.fieldAccess operand field colon) call) ts (us.headD next) →
      Derives s (.suffixes call node) us next → Derives s (.suffixes operand node) (colon :: field :: (ts ++ us)) next
  | call {s : Status} {operand call node : Node} {next : Token} {ts us : List Token} :
      Derives s (.args operand call) ts (us.headD next) → Derives s (.suffixes call node) us next →
      Derives s (.suffixes operand node) (ts ++ us) next
  -- the parenthesis is on the line of the token in front of it
  | parenthesised {s : Status} {callee : Node} {arguments : List Node} {openArgs closeArgs last next : Token}
      {ts : List Token} : openArgs.isChar (ch '(') = true → callee.getLastToken = some last →
      last.lineNumber = openArgs.lineNumber → Derives s (.arguments arguments) ts closeArgs →
      closeArgs.isChar (ch ')') = true →
      Derives s (.args callee (.call callee arguments (some openArgs) (some closeArgs) false))
        (openArgs :: (ts ++ [closeArgs])) next
  | tableArgument {s : Status} {callee node : Node} {ts : List Token} {next : Token} :
      Derives s (.constructor node) ts next → Derives s (.args callee (.call callee [node] none none false)) ts next
  | stringArgument {s : Status} {callee : Node} {token next : Token} : token.id = .string →
      Derives s (.args callee (.call callee [.literal token] none none false)) [token] next
  | noArguments {s : Status} {next : Token} : next.isChar (ch ')') = true → Derives s (.arguments []) [] next
  | withArguments {s : Status} {arguments : List Node} {ts : List Token} {next : Token} :
      Derives s (.explist arguments) ts next → Derives s (.arguments arguments) ts next
  | constructor {s : Status} {openToken closeToken next : Token} {fields : List Node} {ts : List Token} :
      openToken.isChar (ch '{') = true → Derives s (.fields fields) ts closeToken →
      closeToken.isChar (ch '}') = true →
      Derives s (.constructor (.tableConstructor fields openToken closeToken)) (openToken :: (ts ++ [closeToken])) next
  | noFields {s : Status} {next : Token} : next.isChar (ch '}') = true → Derives s (.fields []) [] next
  | lastField {s : Status} {field : Node} {ts : List Token} {next : Token} : Derives s (.field field) ts next →
      next.isChar (ch '}') = true → Derives s (.fields [field]) ts next
  | moreFields {s : Status} {field : Node} {rest : List Node} {separator next : Token} {ts us : List Token} :
      Derives s (.field field) ts separator → (separator.isChar (ch ',') || separator.isChar (ch ';')) = true →
      Derives s (.fields rest) us next → Derives s (.fields (field :: rest)) (ts ++ separator :: us) next
  -- recfield -> (NAME | `['exp1`]') = exp1
  | nameField {s : Status} {name equals next : Token} {value : Node} {ts : List Token} : name.id = .name →
      equals.isChar (ch '=') = true → Derives s (.subexpr 0 value) ts next →
      Derives s (.field (.tableField (some (.literal name)) value)) (name :: equals :: ts) next
  | keyField {s : Status} {openToken closeToken equals next : Token} {key value : Node} {ts us : List Token} :
      openToken.isChar (ch '[') = true → Derives s (.subexpr 0 key) ts closeToken →
      closeToken.isChar (ch ']') = true → equals.isChar (ch '=') = true → Derives s (.subexpr 0 value) us next →
      Derives s (.field (.tableField (some key) value)) (openToken :: (ts ++ closeToken :: equals :: us)) next
  -- listfield -> expr
  | listField {s : Status} {value : Node} {ts : List Token} {next : Token} : Derives s (.subexpr 0 value) ts next →
      Derives s (.field (.tableField none value)) ts next

end Zua.Parse
