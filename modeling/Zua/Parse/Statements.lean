import Zua.Parse.Parser

/-!
# The parser of statements

The functions of `parse.zig` for statements and chunks, and the parser as a whole.
-/

namespace Zua.Parse
open Zua.Lex Syntax

section
variable (c : Calls)

-- a block in which `break` is allowed
def loopBlock : ParseM (List Node) := do
  let p ← get
  set { p with inLoop := true }
  let body ← c.block
  modify fun q => { q with inLoop := p.inLoop }
  return body

def funcname : ParseM Node := do
  let name ← checkname
  let node ← loop (fun node => do
    let separator ← current
    if separator.isChar (ch '.') then
      nextToken
      let field ← checkname
      return .again (Node.fieldAccess node field separator)
    else return .leave node) (Node.identifier name)
  let separator ← current
  if separator.isChar (ch ':') then
    nextToken
    let field ← checkname
    return .fieldAccess node field separator
  else return node

def funcstat : ParseM Node := do
  let functionToken ← current
  nextToken
  let name ← funcname
  funcbody c functionToken (some name) false

def retstat : ParseM Node := do
  nextToken
  let token ← current
  if blockFollow token || token.isChar (ch ';') then return .returnStatement []
  else
    let values ← explist1 c
    return .returnStatement values

def whilestat : ParseM Node := do
  let whileToken ← current
  nextToken
  let condition ← cond c
  checknext .keywordDo
  let body ← loopBlock c
  checkMatch .keywordEnd whileToken
  return .whileStatement condition body

def breakstat : ParseM Node := do
  let breakToken ← current
  nextToken
  let p ← get
  if p.inLoop then return .breakStatement breakToken else reportParseError .noLoopToBreak

def dostat : ParseM Node := do
  let doToken ← current
  nextToken
  let body ← c.block
  checkMatch .keywordEnd doToken
  return .doStatement body

def repeatstat : ParseM Node := do
  let repeatToken ← current
  nextToken
  let body ← loopBlock c
  checkMatch .keywordUntil repeatToken
  let condition ← cond c
  return .repeatStatement body condition

def increment : ParseM (Option Node) := do
  let more ← testcharnext (ch ',')
  if more then
    let e ← expr c
    return some e
  else return none

def fornum (name : Token) : ParseM Node := do
  checkcharnext (ch '=')
  let start ← expr c
  checkcharnext (ch ',')
  let stop ← expr c
  let step ← increment c
  checknext .keywordDo
  let body ← loopBlock c
  return .forStatementNumeric name start stop step body

def forlist (firstName : Token) : ParseM Node := do
  let names ← loop (fun names => do
    let more ← testcharnext (ch ',')
    if more then
      let name ← checkname
      return .again (names ++ [name])
    else return .leave names) [firstName]
  checknext .keywordIn
  let expressions ← explist1 c
  checknext .keywordDo
  let body ← loopBlock c
  return .forStatementGeneric names expressions body

def forvars (name : Token) : ParseM Node := do
  let token ← current
  if token.isChar (ch '=') then fornum c name
  else if token.isChar (ch ',') || token.id == .keywordIn then forlist c name
  else reportParseError .expectedEqualsOrIn

def forstat : ParseM Node := do
  let forToken ← current
  nextToken
  let name ← checkname
  let node ← forvars c name
  checkMatch .keywordEnd forToken
  return node

-- an else has no condition
def clauseCondition (ifToken : Token) : ParseM (Option Node) :=
  if ifToken.id = .keywordElse then return none
  else do
    let condition ← cond c
    checknext .keywordThen
    return some condition

def ifclause : ParseM Node := do
  let ifToken ← current
  nextToken
  let condition ← clauseCondition c ifToken
  let body ← c.block
  return .ifClause ifToken condition body

def elseclause (clauses : List Node) : ParseM (List Node) := do
  let token ← current
  if token.id = .keywordElse then
    let clause ← ifclause c
    return clauses ++ [clause]
  else return clauses

def ifstat : ParseM Node := do
  let ifToken ← current
  let first ← ifclause c
  let clauses ← loop (fun clauses => do
    let token ← current
    if token.id = .keywordElseif then
      let clause ← ifclause c
      return .again (clauses ++ [clause])
    else return .leave clauses) [first]
  let clauses ← elseclause c clauses
  checkMatch .keywordEnd ifToken
  return .ifStatement clauses

def localfunc (functionToken : Token) : ParseM Node := do
  let name ← checkname
  funcbody c functionToken (some (.identifier name)) true

def localVariable (targets : List Node) : ParseM (Turn (List Node) (List Node)) := do
  let name ← checkname
  if maxLocalVars < targets.length + 1 then reportParseError .tooManyLocalVariables
  else
    let more ← testcharnext (ch ',')
    return if more then .again (targets ++ [.identifier name]) else .leave (targets ++ [.identifier name])

def localValues : ParseM (List Node) := do
  let more ← testcharnext (ch '=')
  if more then explist1 c else return []

-- `assignment`, of local variables
def localstat : ParseM Node := do
  let targets ← loop localVariable []
  let values ← localValues c
  return .assignmentStatement targets values true

def target (s : List Node × PossibleLValueExpression) :
    ParseM (Turn (List Node × PossibleLValueExpression) (List Node)) := do
  if s.2.canBeAssignedTo then
    let more ← testcharnext (ch ',')
    if more then
      let next ← primaryexp c
      return .again (s.1 ++ [s.2.node], next)
    else return .leave (s.1 ++ [s.2.node])
  else reportParseError .syntaxError

def assignment (first : PossibleLValueExpression) : ParseM Node := do
  let targets ← loop (target c) ([], first)
  checkcharnext (ch '=')
  let values ← explist1 c
  return .assignmentStatement targets values false

def exprstat : ParseM Node := do
  let expression ← primaryexp c
  match expression.node with
  | .call callee arguments openArgs closeArgs _ => return .call callee arguments openArgs closeArgs true
  | _ => assignment c expression

def statement : ParseM Node := do
  let token ← current
  match token.id with
  | .keywordIf => ifstat c
  | .keywordLocal => do
      nextToken
      let functionToken ← current
      let found ← testnext .keywordFunction
      if found then localfunc c functionToken else localstat c
  | .keywordReturn => retstat c
  | .keywordWhile => whilestat c
  | .keywordDo => dostat c
  | .keywordRepeat => repeatstat c
  | .keywordBreak => breakstat
  | .keywordFor => forstat c
  | .keywordFunction => funcstat c
  | _ => exprstat c

def mustBeLast : Node → Bool
  | .returnStatement _ | .breakStatement _ => true
  | _ => false

def blockTurn (list : List Node) : ParseM (Turn (List Node) (List Node)) := do
  let token ← current
  if blockFollow token then return .leave list
  else
    let stat ← statement c
    let _ ← testcharnext (ch ';')
    return if mustBeLast stat then .leave (list ++ [stat]) else .again (list ++ [stat])

def block : ParseM (List Node) := do
  enterlevel
  let list ← loop (blockTurn c) []
  leavelevel
  return list

end

/-! ## The parser -/

-- the calls inside a function that has entered all but `n` levels
def calls : Nat → Calls
  | 0 => ⟨fun _ => throw .timeout, throw .timeout⟩
  | n + 1 => ⟨subexpr (calls n), block (calls n)⟩

def chunk : ParseM Node := do
  let body ← block (calls maxSyntaxLevels)
  check .eof
  return .chunk body

def parse (lexer : Lexer) : Except Stop Node :=
  match lexer.next with
  | .token lexer token => (chunk { lexer, token }).map (·.1)
  | .error lexer err => .error (.lex lexer err)
  | .trap => .error .panic

end Zua.Parse
