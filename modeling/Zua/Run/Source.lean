import Zua.Parse.Sound
import Zua.Run.Chunks

/-!
# Sources

`LuaState.load` and `LuaState.run` one after the other, as `executeString` calls them: from the bytes of a source to the
state that its chunk leaves.
-/

namespace Zua.Run
open Code Object Syntax Compile Vm
open Parse (parse Tokens Derives)
open Zua.Lex (Lexer Token)

variable {P : Platform} {env : Env} {s : Machine P}

inductive Failure
  | parse (e : Parse.Stop)
  | compile (e : Compile.Stop)
  | run (e : Vm.Stop)

def compile (env : Env) : Except Failure Code.Function := do
  let tree ← (parse (Lexer.init env.source env.source)).mapError .parse
  (compileTree env none tree).mapError .compile

def LuaState.load (env : Env) (s : Machine P) : Except Failure (Machine P) := do
  let func ← compile env
  let created : Machine P := { s with closures := s.closures ++ [{ proto := func }] }
  (created.push (.closure s.closures.length)).mapError .run

-- `s` is the state with the libraries
def executeString (host : Host P) (env : Env) (fuel : Nat) (s : Machine P) : Except Failure (Machine P) := do
  let s ← LuaState.load env s
  (run (executeLua host fuel) host s).mapError .run

-- the closure of the chunk is on top of the stack
def afterLoad (f : Code.Function) (s : Machine P) : Machine P where
  stack := s.stack.set s.top (.closure s.closures.length)
  top := s.top + 1
  ci := s.ci
  globals := s.globals
  tables := s.tables
  closures := s.closures ++ [{ proto := f }]
  upvals := s.upvals

def chunkEntry (f : Code.Function) (s : Machine P) : Machine P := enterRun (.closure s.closures.length) (afterLoad f s)

theorem frameOf_chunkEntry (f : Code.Function) (s : Machine P) :
    frameOf (chunkEntry f s) = some ⟨{ proto := f }, s.top⟩ := by
  have found : (afterLoad f s).closures[s.closures.length]? = some { proto := f } := List.getElem?_concat_length
  show ((afterLoad f s).closures[s.closures.length]?).map _ = _
  rw [found]
  rfl

theorem load_afterLoad {f : Code.Function} (compiled : compile env = .ok f) (room : s.top < s.stack.length) :
    LuaState.load env s = .ok (afterLoad f s) := by
  unfold LuaState.load
  rw [compiled]
  show Except.mapError Failure.run (Machine.push _ _) = _
  unfold Machine.push
  rw [if_neg (Nat.not_le_of_lt room)]
  rfl

theorem run_afterLoad (f : Code.Function) (room : s.top < s.stack.length)
    (execute : Machine P → Except Vm.Stop (Machine P)) (host : Host P) :
    run execute host (afterLoad f s) = execute (chunkEntry f s) := by
  have here : (afterLoad f s).slot ((afterLoad f s).top - 1) = .ok (.closure s.closures.length) := by
    unfold Machine.slot
    rw [show (afterLoad f s).stack[(afterLoad f s).top - 1]? = some (Value.closure s.closures.length) from
      List.getElem?_set_self room]
  unfold run
  rw [if_neg (show (afterLoad f s).top ≠ 0 from Nat.succ_ne_zero s.top), here]
  rfl

theorem executeString_runs {f : Code.Function} (compiled : compile env = .ok f) (room : s.top < s.stack.length)
    (host : Host P) (fuel : Nat) :
    executeString host env fuel s = (executeLua host fuel (chunkEntry f s)).mapError .run := by
  unfold executeString
  rw [load_afterLoad compiled room]
  exact congrArg (Except.mapError Failure.run) (run_afterLoad f room _ host)

theorem executeString_rejects {e : Failure} (stopped : compile env = .error e) (host : Host P) (fuel : Nat) :
    executeString host env fuel s = .error e := by
  unfold executeString LuaState.load
  rw [stopped]
  rfl

theorem compileTree_small {breakList : Option (List Nat)} {tree : Node} {f : Code.Function}
    (compiled : compileTree env breakList tree = .ok f) : f.maxStackSize.toNat ≤ Code.maxStackSize := by
  obtain ⟨⟨_, c⟩, -, rest⟩ := bind_ok.mp compiled
  obtain rfl := pure_ok.mp rest
  have small := c.func.maxStackSize.lt
  have limit : Code.maxStackSize = 250 := rfl
  simp only [UInt8.toNat_ofNat']
  omega

theorem compile_derived {body : List Node} {ts : List Token} {eof : Token}
    (tokens : Tokens (Lexer.init env.source env.source) ts eof) (derives : Derives {} (.block body) ts eof) :
    compile env = (compileTree env none (.chunk body)).mapError .compile := by
  unfold compile
  rw [Parse.parse_of_derives tokens derives]
  rfl

theorem executeString_unparsed (host : Host P) (room : s.top < s.stack.length) :
    (∃ e, ∀ fuel, executeString host env fuel s = .error (.parse e)) ↔
      ¬ ∃ body ts eof, Tokens (Lexer.init env.source env.source) ts eof ∧ Derives {} (.block body) ts eof := by
  constructor
  · rintro ⟨e, fails⟩ ⟨body, ts, eof, tokens, derives⟩
    have failed := fails 0
    cases compiled : compile env with
    | ok f =>
        rw [executeString_runs compiled room] at failed
        cases left : executeLua host 0 (chunkEntry f s) <;> rw [left] at failed <;> cases failed
    | error e' =>
        rw [executeString_rejects compiled] at failed
        cases failed
        rw [compile_derived tokens derives] at compiled
        cases tree : compileTree env none (.chunk body) <;> rw [tree] at compiled <;> cases compiled
  · intro underivable
    cases parsed : parse (Lexer.init env.source env.source) with
    | ok tree =>
        obtain ⟨body, ts, eof, -, tokens, derives⟩ := Parse.derives_of_parse parsed
        exact absurd ⟨body, ts, eof, tokens, derives⟩ underivable
    | error e =>
        have rejected : compile env = .error (.parse e) := by
          unfold compile
          rw [parsed]
          rfl
        exact ⟨e, fun fuel => executeString_rejects rejected host fuel⟩

deriving instance DecidableEq for StackSize
deriving instance DecidableEq for Func

-- `Unelided` as a test on the two results
def unelided (w : Word) (env : Env) (body : List Node) (c : Compiler) : Bool :=
  match genStatements env body c, genStatements env body { c with func := { c.func with code := w :: c.func.code } } with
  | .ok (_, c₁), .ok (_, c₂) => c₂.func = { c₁.func with code := w :: c₁.func.code, curExp := c₂.func.curExp }
  | _, _ => false

theorem unelided_sound {w : Word} {body : List Node} {c : Compiler} (h : unelided w env body c = true) :
    Unelided env body c := by
  unfold unelided at h
  split at h
  · rename_i c₁ _ c₂ first second
    exact ⟨w, c₁, c₂, first, second, of_decide_eq_true h⟩
  · cases h

def trueSource : List UInt8 := Lex.bytes "x=true"

def trueBody : List Node :=
  [.assignmentStatement [.identifier ⟨.name, 0, 1, 1, none⟩] [.literal ⟨.keywordTrue, 2, 6, 1, none⟩] false]

def isTrueTree : Except Parse.Stop Node → Bool
  | .ok (.chunk [.assignmentStatement [.identifier name] [.literal value] false]) =>
      name = ⟨.name, 0, 1, 1, none⟩ && value = ⟨.keywordTrue, 2, 6, 1, none⟩
  | _ => false

theorem trueSource_parses : parse (Lexer.init trueSource trueSource) = .ok (.chunk trueBody) := by
  have tree : isTrueTree (parse (Lexer.init trueSource trueSource)) = true := by decide +kernel
  unfold isTrueTree at tree
  split at tree
  · rename_i name value parsed
    simp only [Bool.and_eq_true, decide_eq_true_eq] at tree
    obtain ⟨rfl, rfl⟩ := tree
    exact parsed
  · cases tree

-- a state without libraries
def emptyMachine : Machine Platform.plain where
  stack := List.replicate 1024 .nil
  globals := 0
  tables := [Table.init _]
  closures := []

end Zua.Run
