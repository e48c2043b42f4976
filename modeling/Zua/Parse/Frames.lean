import Zua.Parse.Reads

/-!
# Open frames

The keywords that are read open and close the bodies of functions and loops. The parser knows whether some loop is
open, over all functions; whether one is open in the innermost function is read off the tokens here.
-/

namespace Zua.Parse
open Zua.Lex Syntax

/-! ## The frames of the tokens -/

inductive Frame
  | body | loop | head | block
  deriving DecidableEq

-- a `while` or `for` is the head of a loop up to its `do`
def opened (frames : List Frame) (id : Token.Id) : List Frame :=
  match id with
  | .keywordFunction => .body :: frames
  | .keywordWhile | .keywordFor => .head :: frames
  | .keywordDo =>
      match frames with
      | .head :: outer => .loop :: outer
      | _ => .block :: frames
  | .keywordRepeat => .loop :: frames
  | .keywordIf => .block :: frames
  | .keywordEnd | .keywordUntil => frames.tail
  | _ => frames

def framesOf (ts : List Token) : List Frame := ts.foldl (fun frames t => opened frames t.id) []

theorem framesOf_snoc (ts : List Token) (t : Token) : framesOf (ts ++ [t]) = opened (framesOf ts) t.id := by
  unfold framesOf
  rw [List.foldl_append]
  rfl

def anyLoop (frames : List Frame) : Bool := frames.contains .loop

-- up to the innermost function body
def ownLoop : List Frame → Bool
  | .loop :: _ => true
  | .body :: _ | [] => false
  | .head :: outer | .block :: outer => ownLoop outer

theorem anyLoop_of_own {frames : List Frame} (own : ownLoop frames = true) : anyLoop frames = true := by
  induction frames with
  | nil => cases own
  | cons frame outer ih =>
      cases frame with
      | loop => rfl
      | body => cases own
      | head => exact ih own
      | block => exact ih own

-- the tokens that open and close nothing
def quiet (id : Token.Id) : Bool :=
  match id with
  | .keywordFunction | .keywordWhile | .keywordFor | .keywordDo | .keywordRepeat | .keywordIf | .keywordEnd
  | .keywordUntil | .keywordBreak => false
  | _ => true

theorem opened_quiet {frames : List Frame} {id : Token.Id} (h : quiet id = true) : opened frames id = frames := by
  cases id <;> first | rfl | cases h

theorem quiet_break {id : Token.Id} (h : quiet id = true) : id ≠ .keywordBreak := by
  rintro rfl
  cases h

theorem isChar_quiet {token : Token} {char : UInt8} (is : token.isChar char = true) : quiet token.id = true := by
  unfold Token.isChar at is
  obtain ⟨single, -⟩ := Bool.and_eq_true_iff.mp is
  rw [eq_of_beq single]
  rfl

/-! ## Breaks of a tree -/

mutual

-- a break is in a loop of its own function, where `inLoop` says whether one is around the node
def breaksOwn (inLoop : Bool) : Node → Bool
  | .literal _ | .identifier _ => true
  | .breakStatement _ => inLoop
  | .chunk body => breaksOwnOf false body
  | .functionDeclaration name _ body _ => breaksOwn? inLoop name && breaksOwnOf false body
  | .whileStatement condition body => breaksOwn inLoop condition && breaksOwnOf true body
  | .repeatStatement body condition => breaksOwnOf true body && breaksOwn inLoop condition
  | .forStatementNumeric _ start stop increment body =>
      breaksOwn inLoop start && breaksOwn inLoop stop && breaksOwn? inLoop increment && breaksOwnOf true body
  | .forStatementGeneric _ expressions body => breaksOwnOf inLoop expressions && breaksOwnOf true body
  | .doStatement body => breaksOwnOf inLoop body
  | .ifStatement clauses => breaksOwnOf inLoop clauses
  | .ifClause _ condition body => breaksOwn? inLoop condition && breaksOwnOf inLoop body
  | .returnStatement values => breaksOwnOf inLoop values
  | .assignmentStatement targets values _ => breaksOwnOf inLoop targets && breaksOwnOf inLoop values
  | .call expression arguments _ _ _ => breaksOwn inLoop expression && breaksOwnOf inLoop arguments
  | .fieldAccess operand _ _ => breaksOwn inLoop operand
  | .indexAccess operand index _ _ => breaksOwn inLoop operand && breaksOwn inLoop index
  | .tableConstructor fields _ _ => breaksOwnOf inLoop fields
  | .tableField key value => breaksOwn? inLoop key && breaksOwn inLoop value
  | .unaryExpression _ argument => breaksOwn inLoop argument
  | .binaryExpression _ left right => breaksOwn inLoop left && breaksOwn inLoop right
  | .groupedExpression _ expression _ => breaksOwn inLoop expression

def breaksOwnOf (inLoop : Bool) : List Node → Bool
  | [] => true
  | node :: rest => breaksOwn inLoop node && breaksOwnOf inLoop rest

def breaksOwn? (inLoop : Bool) : Option Node → Bool
  | none => true
  | some node => breaksOwn inLoop node

end

section

variable {inLoop : Bool} {node left right condition value expression operand index start stop : Node}
  {nodes body targets values arguments expressions : List Node} {token openToken closeToken : Token}
  {name key increment clause : Option Node}

@[simp] theorem breaksOwnOf_nil : breaksOwnOf inLoop [] = true := rfl

@[simp] theorem breaksOwnOf_cons :
    breaksOwnOf inLoop (node :: nodes) = (breaksOwn inLoop node && breaksOwnOf inLoop nodes) := rfl

@[simp] theorem breaksOwn_none : breaksOwn? inLoop none = true := rfl

@[simp] theorem breaksOwn_some : breaksOwn? inLoop (some node) = breaksOwn inLoop node := rfl

@[simp] theorem breaksOwn_function {parameters : List Token} {isLocal : Bool} :
    breaksOwn inLoop (.functionDeclaration name parameters body isLocal) =
      (breaksOwn? inLoop name && breaksOwnOf false body) := rfl

@[simp] theorem breaksOwn_while :
    breaksOwn inLoop (.whileStatement condition body) = (breaksOwn inLoop condition && breaksOwnOf true body) := rfl

@[simp] theorem breaksOwn_repeat :
    breaksOwn inLoop (.repeatStatement body condition) = (breaksOwnOf true body && breaksOwn inLoop condition) := rfl

@[simp] theorem breaksOwn_forNumeric : breaksOwn inLoop (.forStatementNumeric token start stop increment body) =
    (breaksOwn inLoop start && breaksOwn inLoop stop && breaksOwn? inLoop increment && breaksOwnOf true body) := rfl

@[simp] theorem breaksOwn_forGeneric {names : List Token} :
    breaksOwn inLoop (.forStatementGeneric names expressions body) =
      (breaksOwnOf inLoop expressions && breaksOwnOf true body) := rfl

@[simp] theorem breaksOwn_ifClause :
    breaksOwn inLoop (.ifClause token clause body) = (breaksOwn? inLoop clause && breaksOwnOf inLoop body) := rfl

@[simp] theorem breaksOwn_assignment {isLocal : Bool} : breaksOwn inLoop (.assignmentStatement targets values isLocal) =
    (breaksOwnOf inLoop targets && breaksOwnOf inLoop values) := rfl

@[simp] theorem breaksOwn_call {openArgs closeArgs : Option Token} {isStatement : Bool} :
    breaksOwn inLoop (.call expression arguments openArgs closeArgs isStatement) =
      (breaksOwn inLoop expression && breaksOwnOf inLoop arguments) := rfl

@[simp] theorem breaksOwn_index : breaksOwn inLoop (.indexAccess operand index openToken closeToken) =
    (breaksOwn inLoop operand && breaksOwn inLoop index) := rfl

@[simp] theorem breaksOwn_tableField :
    breaksOwn inLoop (.tableField key value) = (breaksOwn? inLoop key && breaksOwn inLoop value) := rfl

@[simp] theorem breaksOwn_binary :
    breaksOwn inLoop (.binaryExpression token left right) = (breaksOwn inLoop left && breaksOwn inLoop right) := rfl

end

@[simp] theorem breaksOwnOf_append (inLoop : Bool) (first rest : List Node) :
    breaksOwnOf inLoop (first ++ rest) = (breaksOwnOf inLoop first && breaksOwnOf inLoop rest) := by
  induction first with
  | nil => rfl
  | cons node first ih =>
      show (breaksOwn inLoop node && breaksOwnOf inLoop (first ++ rest)) = _
      rw [ih, ← Bool.and_assoc]
      rfl

end Zua.Parse
