import Zua.Lex.Token

/-!
# Syntax trees

The nodes of `ast.zig`. There is one type for statements, expressions and the parts of both, as in the
source; the constructors are its ids.
-/

namespace Zua.Syntax
open Zua.Lex (Token)

inductive Node
  | chunk (body : List Node)
  | call (expression : Node) (arguments : List Node) (openArgsToken closeArgsToken : Option Token)
      (isStatement : Bool)
  | literal (token : Token)
  | identifier (token : Token)
  | assignmentStatement (targets values : List Node) (isLocal : Bool)
  | fieldAccess (operand : Node) (field separator : Token)
  | indexAccess (operand index : Node) (openToken closeToken : Token)
  | ifStatement (clauses : List Node)
  | ifClause (ifToken : Token) (condition : Option Node) (body : List Node)
  | returnStatement (values : List Node)
  | whileStatement (condition : Node) (body : List Node)
  | doStatement (body : List Node)
  | repeatStatement (body : List Node) (condition : Node)
  | breakStatement (token : Token)
  | forStatementNumeric (name : Token) (start stop : Node) (increment : Option Node) (body : List Node)
  | forStatementGeneric (names : List Token) (expressions body : List Node)
  | functionDeclaration (name : Option Node) (parameters : List Token) (body : List Node) (isLocal : Bool)
  | tableConstructor (fields : List Node) (openToken closeToken : Token)
  | tableField (key : Option Node) (value : Node)
  | unaryExpression (operator : Token) (argument : Node)
  | binaryExpression (operator : Token) (left right : Node)
  | groupedExpression (openToken : Token) (expression : Node) (closeToken : Token)
  deriving Inhabited

end Zua.Syntax
