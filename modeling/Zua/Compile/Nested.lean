import Zua.Base.Except
import Zua.Compile.Gen

/-!
# Nested functions

The function nodes of a tree against the prototypes of the compiled function.
-/

namespace Zua.Compile
open Code Syntax
open Zua.Lex (Token)

-- a function node with the function nodes of its body, in the order of the source
inductive FunctionNode
  | mk (parameters : List Token) (nested : List FunctionNode)

mutual

def functionNodes : Node → List FunctionNode
  | .chunk body | .doStatement body => functionNodesOf body
  | .call expression arguments _ _ _ => functionNodes expression ++ functionNodesOf arguments
  | .literal _ | .identifier _ | .breakStatement _ => []
  | .assignmentStatement targets values _ => functionNodesOf targets ++ functionNodesOf values
  | .fieldAccess operand _ _ => functionNodes operand
  | .indexAccess operand index _ _ => functionNodes operand ++ functionNodes index
  | .ifStatement clauses => functionNodesOf clauses
  | .ifClause _ condition body => functionNodes? condition ++ functionNodesOf body
  | .returnStatement values => functionNodesOf values
  | .whileStatement condition body => functionNodes condition ++ functionNodesOf body
  | .repeatStatement body condition => functionNodesOf body ++ functionNodes condition
  | .forStatementNumeric _ start stop increment body =>
      functionNodes start ++ functionNodes stop ++ functionNodes? increment ++ functionNodesOf body
  | .forStatementGeneric _ expressions body => functionNodesOf expressions ++ functionNodesOf body
  | .functionDeclaration _ parameters body _ => [.mk parameters (functionNodesOf body)]
  | .tableConstructor fields _ _ => functionNodesOf fields
  | .tableField key value => functionNodes? key ++ functionNodes value
  | .unaryExpression _ argument => functionNodes argument
  | .binaryExpression _ left right => functionNodes left ++ functionNodes right
  | .groupedExpression _ expression _ => functionNodes expression

def functionNodesOf : List Node → List FunctionNode
  | [] => []
  | node :: rest => functionNodes node ++ functionNodesOf rest

def functionNodes? : Option Node → List FunctionNode
  | none => []
  | some node => functionNodes node

end

-- the operands `Bx` of the closures of a function, in the order of its code
def closureIndices (f : Function) : List Nat :=
  f.code.filterMap fun word => (Instruction.ofWord word).bind fun i => if i.op = .closure then some i.bx else none

-- the closure of the node `k` is made from the prototype `k`
def ClosuresInOrder (f : Function) (nodes : List FunctionNode) : Prop :=
  ∀ k < nodes.length, (closureIndices f)[k]? = some k

mutual

def Mirrors : List Function → List FunctionNode → Prop
  | [], [] => True
  | f :: functions, node :: nodes => MirrorsNode f node ∧ Mirrors functions nodes
  | _, _ => False

def MirrorsNode (f : Function) : FunctionNode → Prop
  | .mk parameters nested =>
      f.numParams.toNat = (parameters.filter (·.id = .name)).length ∧
      (f.varargs.isVarArg = true ↔ ∃ parameter ∈ parameters, parameter.id = .ellipsis) ∧
      ClosuresInOrder f nested ∧ Mirrors f.protos nested

end

def BodiesSurvive (f : Function) (tree : Node) : Prop :=
  ClosuresInOrder f (functionNodes tree) ∧ Mirrors f.protos (functionNodes tree)

variable {env : Env} {breakList : Option (List Nat)} {tree : Node} {f : Function}

theorem compileTree_protos (h : compileTree env breakList tree = .ok f) : f.protos = [] := by
  obtain ⟨⟨_, c⟩, -, rest⟩ := bind_ok.mp h
  rw [← pure_ok.mp rest]

theorem mirrors_nil {nodes : List FunctionNode} : Mirrors [] nodes ↔ nodes = [] := by
  cases nodes <;> simp [Mirrors]

theorem bodies_survive_iff (env : Env) (breakList : Option (List Nat)) (tree : Node) (f : Function)
    (compiled : compileTree env breakList tree = .ok f) :
    BodiesSurvive f tree ↔ functionNodes tree = [] := by
  unfold BodiesSurvive
  rw [compileTree_protos compiled, mirrors_nil]
  constructor
  · exact And.right
  · intro none
    refine ⟨?_, none⟩
    intro k inside
    rw [none] at inside
    exact absurd inside (Nat.not_lt_zero k)

-- an environment for small programs, without number literals
def plainEnv (source : List UInt8) : Env where
  add a _ := a
  sub a _ := a
  mul a _ := a
  div a _ := a
  mod a _ := a
  pow a _ := a
  neg a := ⟨a.bits ^^^ 0x8000000000000000⟩
  source
  parseFloat _ := none

-- the tree of `function f() end`
def functionProgram : Node :=
  .chunk [.functionDeclaration (some (.identifier ⟨.name, 9, 10, 1, none⟩)) [] [] false]

def functionSource : List UInt8 := Lex.bytes "function f() end"

theorem functionProgram_compiles :
    (compileTree (plainEnv functionSource) none functionProgram).toOption.isSome = true := by
  decide +kernel

theorem body_lost : ∃ f, compileTree (plainEnv functionSource) none functionProgram = .ok f ∧
    ¬ BodiesSurvive f functionProgram := by
  cases compiled : compileTree (plainEnv functionSource) none functionProgram with
  | error e =>
      have returns := functionProgram_compiles
      rw [compiled] at returns
      cases returns
  | ok f =>
      refine ⟨f, rfl, ?_⟩
      rintro ⟨-, mirrors⟩
      rw [compileTree_protos compiled, mirrors_nil] at mirrors
      cases mirrors

theorem bodies_survive_function : ∃ f, compileTree (plainEnv functionSource) none functionProgram = .ok f ∧
    (BodiesSurvive f functionProgram ↔ functionNodes functionProgram = []) := by
  cases compiled : compileTree (plainEnv functionSource) none functionProgram with
  | error e =>
      have returns := functionProgram_compiles
      rw [compiled] at returns
      cases returns
  | ok f => exact ⟨f, rfl, bodies_survive_iff _ _ _ f compiled⟩

end Zua.Compile
