import Zua.Base.Hoare
import Zua.Lex.Lexer
import Zua.Syntax.Ast

/-!
# The parser

The functions of `parse.zig`. Every cycle of calls goes through `subexpr` or `block`, which both enter a syntax
level; `calls` unfolds the cycles as often as levels can be entered. A `while` goes round at most once for each
token that is left.
-/

namespace Zua.Syntax
open Zua.Lex (Token)

mutual

-- `none` is the panic
def Node.getLastToken : Node → Option Token
  | .identifier token => some token
  | .groupedExpression _ _ closeToken => some closeToken
  | .fieldAccess _ field _ => some field
  | .indexAccess _ _ _ closeToken => some closeToken
  | .call _ _ _ (some closeToken) _ => some closeToken
  | .call _ arguments _ none _ => lastTokenOf arguments
  | .literal token => some token
  | .tableConstructor _ _ closeToken => some closeToken
  | _ => none

def lastTokenOf : List Node → Option Token
  | [] => none
  | [node] => node.getLastToken
  | _ :: rest => lastTokenOf rest

end

end Zua.Syntax

namespace Zua.Parse
open Zua.Lex Syntax

inductive ParseError
  | functionArgumentsExpected | expectedEqualsOrIn | expectedNameOrVarArg | unexpectedSymbol | syntaxError
  | expectedDifferentToken | tooManyLocalVariables | noLoopToBreak | tooManySyntaxLevels | ambiguousSyntax
  | varArgOutsideVarArgFunction
  deriving DecidableEq, Repr

structure ParseErrorContext where
  token : Token
  expected : Option Token
  expectedMatch : Option Token
  err : ParseError
  deriving DecidableEq, Repr

-- a failed safety check is a panic; `timeout` is not an outcome of the code
inductive Stop
  | parse (context : ParseErrorContext)
  | lex (lexer : Lexer) (err : LexError)
  | panic
  | timeout
  deriving DecidableEq, Repr

-- what is left to read, with the current token in front
structure Input where
  lexer : Lexer
  token : Token

structure Status where
  inLoop : Bool := false
  inVarargFunc : Bool := true
  syntaxLevel : Nat := 0

structure Parser extends Input, Status

abbrev ParseM := StateT Parser (Except Stop)

def maxLocalVars : Nat := 2 ^ 15 - 1
def maxSyntaxLevels : Nat := 200

/-! ## Tokens -/

def current : ParseM Token := do
  let p ← get
  return p.token

def nextToken : ParseM Unit := do
  let p ← get
  match p.lexer.next with
  | .token lexer token => set { p with lexer, token }
  | .error lexer err => throw (.lex lexer err)
  | .trap => throw .panic

def reportParseErrorExpectedToMatch {α : Type} (err : ParseError) (expected expectedMatch : Option Token) :
    ParseM α := do
  let token ← current
  throw (.parse { token, expected, expectedMatch, err })

def reportParseErrorExpected {α : Type} (err : ParseError) (expected : Option Token) : ParseM α :=
  reportParseErrorExpectedToMatch err expected none

def reportParseError {α : Type} (err : ParseError) : ParseM α := reportParseErrorExpectedToMatch err none none

-- skips the current token if it has the property
def testIf (test : Token → Bool) : ParseM Bool := do
  let token ← current
  if test token then do
    nextToken
    return true
  else return false

def testnext (id : Token.Id) : ParseM Bool := testIf fun token => token.id == id
def testcharnext (char : UInt8) : ParseM Bool := testIf fun token => token.isChar char

-- the token that an error says was expected in place of `token`
def expectedToken (token : Token) (id : Token.Id) (char : Option UInt8) : Token := { token with id, char }

def check (id : Token.Id) : ParseM Unit := do
  let token ← current
  if token.id = id then return ()
  else reportParseErrorExpected .expectedDifferentToken (some (expectedToken token id none))

def checkchar (char : UInt8) : ParseM Unit := do
  let token ← current
  if token.isChar char then return ()
  else reportParseErrorExpected .expectedDifferentToken (some (expectedToken token .singleChar (some char)))

def checknext (id : Token.Id) : ParseM Unit := do
  check id
  nextToken

def checkcharnext (char : UInt8) : ParseM Unit := do
  checkchar char
  nextToken

def checkname : ParseM Token := do
  let token ← current
  checknext .name
  return token

def checkMatch (id : Token.Id) (toClose : Token) : ParseM Unit := do
  let found ← testnext id
  if found then return ()
  else
    let token ← current
    reportParseErrorExpectedToMatch .expectedDifferentToken (some (expectedToken token id none)) (some toClose)

def checkcharMatch (char : UInt8) (toClose : Token) : ParseM Unit := do
  let found ← testcharnext char
  if found then return ()
  else
    let token ← current
    reportParseErrorExpectedToMatch .expectedDifferentToken
      (some (expectedToken token .singleChar (some char))) (some toClose)

def enterlevel : ParseM Unit := do
  modify fun p => { p with syntaxLevel := p.syntaxLevel + 1 }
  let p ← get
  if maxSyntaxLevels < p.syntaxLevel then reportParseError .tooManySyntaxLevels else return ()

def leavelevel : ParseM Unit := do
  let p ← get
  if p.syntaxLevel = 0 then throw .panic else set { p with syntaxLevel := p.syntaxLevel - 1 }

def blockFollow (token : Token) : Bool :=
  match token.id with
  | .keywordElse | .keywordElseif | .keywordEnd | .keywordUntil | .eof => true
  | _ => false

def isUnaryOperator (token : Token) : Bool :=
  match token.id with
  | .keywordNot => true
  | .singleChar => token.char == some (ch '-') || token.char == some (ch '#')
  | _ => false

def binaryChars : List UInt8 := [ch '+', ch '-', ch '*', ch '/', ch '%', ch '^', ch '<', ch '>']

def isBinaryOperator (token : Token) : Bool :=
  match token.id with
  | .concat | .ne | .eq | .le | .ge | .keywordAnd | .keywordOr => true
  | .singleChar => token.char.any fun c => binaryChars.contains c
  | _ => false

structure BinaryPriority where
  left : Nat
  right : Nat
  deriving DecidableEq

def charPriority (c : UInt8) : BinaryPriority :=
  if c = ch '+' ∨ c = ch '-' then ⟨6, 6⟩
  else if c = ch '*' ∨ c = ch '/' ∨ c = ch '%' then ⟨7, 7⟩
  else if c = ch '^' then ⟨10, 9⟩
  else ⟨3, 3⟩

-- it is only called with a binary operator
def getBinaryPriority (token : Token) : BinaryPriority :=
  match token.id with
  | .singleChar => charPriority (token.char.getD 0)
  | .concat => ⟨5, 4⟩
  | .keywordAnd => ⟨2, 2⟩
  | .keywordOr => ⟨1, 1⟩
  | _ => ⟨3, 3⟩

def unaryPriority : Nat := 8

/-! ## Loops -/

-- one time round a loop either goes on or leaves it
inductive Turn (σ β : Type)
  | again (s : σ)
  | leave (b : β)

def iterate {σ β : Type} (step : σ → ParseM (Turn σ β)) : Nat → σ → ParseM β
  | 0, _ => throw .timeout
  | n + 1, s => do
      match ← step s with
      | .again s => iterate step n s
      | .leave b => return b

def loop {σ β : Type} (step : σ → ParseM (Turn σ β)) (s : σ) : ParseM β := do
  let p ← get
  iterate step (p.lexer.buffer.length + 2) s

def Turn.Holds {σ β : Type} (I : σ → Parser → Prop) (Q : β → Parser → Prop) : Turn σ β → Parser → Prop
  | .again s, p => I s p
  | .leave b, p => Q b p

-- what every turn keeps, a loop keeps
theorem Sat.loop {σ β : Type} {ok : Stop → Prop} {step : σ → ParseM (Turn σ β)} {I : σ → Parser → Prop}
    {Q : β → Parser → Prop} {x : σ} {p : Parser} (timeout : ok .timeout)
    (turn : ∀ x p, I x p → Sat ok (step x) p (Turn.Holds I Q)) (start : I x p) : Sat ok (loop step x) p Q := by
  suffices rounds : ∀ n x p, I x p → Sat ok (iterate step n x) p Q from
    Sat.bind (Sat.get (rounds _ x p start))
  intro n
  induction n with
  | zero => exact fun x p _ => Sat.throw timeout
  | succ n ih =>
      intro x p h
      refine Sat.bind ((turn x p h).mono ?_)
      rintro (y | b) q holds
      · exact ih y q holds
      · exact Sat.pure holds

/-! ## Expressions -/

structure PossibleLValueExpression where
  node : Node
  canBeAssignedTo : Bool := true

structure SubExpr where
  node : Node
  untreatedOperator : Option Token

structure Calls where
  subexpr : Nat → ParseM SubExpr
  block : ParseM (List Node)

section
variable (c : Calls)

def expr : ParseM Node := do
  let e ← c.subexpr 0
  return e.node

def cond : ParseM Node := expr c

def explist1 : ParseM (List Node) := do
  let first ← expr c
  loop (fun list => do
    let more ← testcharnext (ch ',')
    if more then
      let e ← expr c
      return .again (list ++ [e])
    else return .leave list) [first]

def listfield : ParseM Node := do
  let value ← expr c
  return .tableField none value

def recfieldKey : ParseM Node := do
  let token ← current
  if token.id = .name then
    -- the name is more of a string, so that it is a literal
    let name ← checkname
    return .literal name
  else if token.isChar (ch '[') then
    nextToken
    let key ← expr c
    checkcharnext (ch ']')
    return key
  else throw .panic

def recfield : ParseM Node := do
  let key ← recfieldKey c
  checkcharnext (ch '=')
  let value ← expr c
  return .tableField (some key) value

def tableField : ParseM Node := do
  let p ← get
  if p.token.id = .name then
    match p.lexer.lookahead with
    | .token _ token => if token.isChar (ch '=') then recfield c else listfield c
    | .error _ _ => listfield c
    | .trap => throw .panic
  else if p.token.isChar (ch '[') then recfield c
  else listfield c

def fieldSeparator : ParseM Bool := do
  let comma ← testcharnext (ch ',')
  if comma then return true else testcharnext (ch ';')

def constructor : ParseM Node := do
  let openBrace ← current
  checkcharnext (ch '{')
  let fields ← loop (fun fields => do
    let token ← current
    if token.isChar (ch '}') then return .leave fields
    else
      let field ← tableField c
      let more ← fieldSeparator
      if more then return .again (fields ++ [field]) else return .leave (fields ++ [field])) []
  let closeBrace ← current
  checkcharMatch (ch '}') openBrace
  return .tableConstructor fields openBrace closeBrace

-- the arguments in front of a closing parenthesis
def arguments : ParseM (List Node) := do
  let token ← current
  if token.isChar (ch ')') then return [] else explist1 c

def funcargs (expression : Node) : ParseM Node := do
  let token ← current
  if token.isChar (ch '(') then
    match expression.getLastToken with
    | none => throw .panic
    | some last =>
        if last.lineNumber ≠ token.lineNumber then reportParseError .ambiguousSyntax
        else
          nextToken
          let arguments ← arguments c
          let closeArgs ← current
          checkcharMatch (ch ')') token
          return .call expression arguments (some token) (some closeArgs) false
  else if token.isChar (ch '{') then
    let node ← constructor c
    return .call expression [node] none none false
  else if token.id = .string then
    nextToken
    return .call expression [.literal token] none none false
  else reportParseError .functionArgumentsExpected

def prefixexp : ParseM PossibleLValueExpression := do
  let token ← current
  if token.id = .name then
    nextToken
    return { node := .identifier token }
  else if token.isChar (ch '(') then
    nextToken
    let expression ← expr c
    let closeParen ← current
    checkcharMatch (ch ')') token
    return { node := .groupedExpression token expression closeParen, canBeAssignedTo := false }
  else reportParseError .unexpectedSymbol

-- one suffix of a primary expression
def suffix (expression : PossibleLValueExpression) :
    ParseM (Turn PossibleLValueExpression PossibleLValueExpression) := do
  let token ← current
  if token.isChar (ch '.') then
    nextToken
    let field ← checkname
    return .again { node := .fieldAccess expression.node field token }
  else if token.isChar (ch '[') then
    nextToken
    let index ← expr c
    let closeToken ← current
    checkcharnext (ch ']')
    return .again { node := .indexAccess expression.node index token closeToken }
  else if token.isChar (ch ':') then
    nextToken
    let field ← checkname
    let node ← funcargs c (.fieldAccess expression.node field token)
    return .again { node, canBeAssignedTo := false }
  else if token.isChar (ch '(') || token.isChar (ch '{') || token.id == .string then
    let node ← funcargs c expression.node
    return .again { node, canBeAssignedTo := false }
  else return .leave expression

def primaryexp : ParseM PossibleLValueExpression := do
  let expression ← prefixexp c
  loop (suffix c) expression

/-! ## Functions -/

def param (list : List Token) : ParseM (Turn (List Token) (List Token × Bool)) := do
  let token ← current
  if token.id = .name then
    nextToken
    let more ← testcharnext (ch ',')
    return if more then .again (list ++ [token]) else .leave (list ++ [token], false)
  else if token.id = .ellipsis then
    nextToken
    return .leave (list ++ [token], true)
  else reportParseError .expectedNameOrVarArg

def parlist : ParseM (List Token × Bool) := do
  let token ← current
  if token.isChar (ch ')') then return ([], false) else loop param []

def varargBlock (varargFound : Bool) : ParseM (List Node) := do
  let p ← get
  set { p with inVarargFunc := varargFound }
  let body ← c.block
  modify fun q => { q with inVarargFunc := p.inVarargFunc }
  return body

def funcbody (functionToken : Token) (name : Option Node) (isLocal : Bool) : ParseM Node := do
  checkcharnext (ch '(')
  let (params, varargFound) ← parlist
  checkcharnext (ch ')')
  let body ← varargBlock c varargFound
  checkMatch .keywordEnd functionToken
  return .functionDeclaration name params body isLocal

def isLiteral (id : Token.Id) : Bool :=
  match id with
  | .string | .number | .keywordFalse | .keywordTrue | .keywordNil | .ellipsis => true
  | _ => false

def simpleexp : ParseM Node := do
  let p ← get
  if isLiteral p.token.id then
    if p.token.id = .ellipsis ∧ p.inVarargFunc = false then reportParseError .varArgOutsideVarArgFunction
    else
      nextToken
      return .literal p.token
  else if p.token.isChar (ch '{') then constructor c
  else if p.token.id = .keywordFunction then
    nextToken
    funcbody c p.token none false
  else
    let expression ← primaryexp c
    return expression.node

/-! ## Operators -/

def operand : ParseM Node := do
  let token ← current
  if isUnaryOperator token then
    nextToken
    let argument ← c.subexpr unaryPriority
    return .unaryExpression token argument.node
  else simpleexp c

-- one binary operator of the loop, while `op` is not null
def binary (limit : Nat) (e : SubExpr) : ParseM (Turn SubExpr SubExpr) :=
  match e.untreatedOperator with
  | some op =>
      if isBinaryOperator op then
        let priority := getBinaryPriority op
        if priority.left ≤ limit then return .leave e
        else do
          nextToken
          let right ← c.subexpr priority.right
          return .again ⟨.binaryExpression op e.node right.node, right.untreatedOperator⟩
      else return .leave { e with untreatedOperator := none }
  | none => return .leave e

def subexpr (limit : Nat) : ParseM SubExpr := do
  enterlevel
  let node ← operand c
  let op ← current
  let e ← loop (binary c limit) ⟨node, some op⟩
  leavelevel
  return e

end

end Zua.Parse
