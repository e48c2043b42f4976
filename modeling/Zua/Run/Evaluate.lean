import Zua.Compile.Gen
import Zua.Vm.Machine

/-!
# The value of an expression

A direct evaluator over the operations of the machine. Local variables are the registers from the base on, in the
order of their names, and the last of several with one name is the one that is meant.
-/

namespace Zua.Run
open Code Object Compile Vm Syntax
open Memory (Constant)
open Zua.Lex (Token ch)

/-! ## Operators -/

def negated (v : Value) : Value := .boolean v.isFalsy

def unary (P : Platform) (op : Token) (s : Machine P) (v : Value) : Except Vm.Stop Value :=
  if op.id = .keywordNot then return negated v
  else if op.isChar (ch '-') then unm P v
  else length s v

def concatenate (P : Platform) : Value → Value → Except Vm.Stop Value
  | .string a, .string b => .ok (.string (P.intern (a.data ++ b.data)))
  | _, _ => .error (.error .attemptToConcatenate)

def operation (P : Platform) (op : Token) : Option (F64 → F64 → F64) :=
  if op.isChar (ch '+') then some P.add
  else if op.isChar (ch '-') then some P.sub
  else if op.isChar (ch '*') then some P.mul
  else if op.isChar (ch '/') then some P.div
  else if op.isChar (ch '%') then some P.mod
  else if op.isChar (ch '^') then some P.pow
  else none

def binary (P : Platform) (op : Token) (a b : Value) : Except Vm.Stop Value :=
  if op.id = .concat then concatenate P a b
  else match operation P op with
    | some f => arith f a b
    | none => .error .panic

def index {P : Platform} (s : Machine P) (t key : Value) : Except Vm.Stop Value := do
  let a ← expectTable t
  s.tableGet a key

/-! ## Names and literals -/

-- the register of the last of the first `n` names that is the one looked for
def register (names : List (List UInt8)) (name : List UInt8) : Nat → Option Nat
  | 0 => none
  | n + 1 => if names[n]? = some name then some n else register names name n

def variableValue {P : Platform} (names : List (List UInt8)) (base : Nat) (s : Machine P) (name : List UInt8) :
    Except Vm.Stop Value :=
  match register names name names.length with
  | some r => s.slot (base + r)
  | none => getGlobal s name

-- the constant that a literal stands for
def literal (env : Env) (token : Token) : Option Constant :=
  match token.id with
  | .string => (Lex.parseString (token.slice env.source) (token.slice env.source).length).toOption.map .string
  | .number => (Lex.parseNumber env.parseFloat (token.slice env.source)).toOption.map .number
  | .keywordTrue => some (.boolean true)
  | .keywordFalse => some (.boolean false)
  | .keywordNil => some .nil
  | _ => none

/-! ## Expressions -/

def isUnary (op : Token) : Bool := op.id == .keywordNot || op.isChar (ch '-') || op.isChar (ch '#')

def isBinary (op : Token) : Bool := op.id == .concat || [ch '+', ch '-', ch '*', ch '/', ch '%', ch '^'].any op.isChar

-- the expressions that are evaluated here
def isExpression (env : Env) : Node → Bool
  | .literal token => (literal env token).isSome
  | .identifier _ => true
  | .groupedExpression _ e _ => isExpression env e
  | .unaryExpression op e => isUnary op && isExpression env e
  | .binaryExpression op l r => isBinary op && isExpression env l && isExpression env r
  | .fieldAccess e _ separator => !separator.isChar (ch ':') && isExpression env e
  | .indexAccess e k _ _ => isExpression env e && isExpression env k
  | _ => false

def evaluate {P : Platform} (env : Env) (names : List (List UInt8)) (base : Nat) (s : Machine P) :
    Node → Except Vm.Stop Value
  | .literal token =>
      match literal env token with
      | some constant => .ok (Machine.constantToValue P constant)
      | none => .error .panic
  | .identifier token => variableValue names base s (token.slice env.source)
  | .groupedExpression _ e _ => evaluate env names base s e
  | .unaryExpression op e => do
      let v ← evaluate env names base s e
      unary P op s v
  | .binaryExpression op l r => do
      let a ← evaluate env names base s l
      let b ← evaluate env names base s r
      binary P op a b
  | .fieldAccess e field _ => do
      let t ← evaluate env names base s e
      index s t (.string (P.intern (field.slice env.source)))
  | .indexAccess e k _ _ => do
      let t ← evaluate env names base s e
      let key ← evaluate env names base s k
      index s t key
  | _ => .error .panic

-- strings keep their content
def Interns (P : Platform) : Prop := ∀ data, (P.intern data).data = data

end Zua.Run
