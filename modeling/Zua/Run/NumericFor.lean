import Zua.Run.Locals

/-!
# Numeric loops

The control values are loaded behind the registers that are reserved for them, and the offsets of both loop
instructions are never patched: the machine goes past a loop with an empty body, and the code of a body is not
compiled, since the register of the loop variable is taken for a declaration.
-/

namespace Zua.Run
open Code Object Compile Vm Syntax
open Memory (Constant)
open Zua.Lex (Token ch)

variable {P : Platform} {frame : Frame} {size low mid : Nat} {fs fs' : Func} {e : ExpDesc} {c c' : Compiler} {env : Env}
  {names : List (List UInt8)} {code words : List Word}

/-! ## What a numeric loop is for -/

-- the results of a loop that ends: one step for each value of the variable that is not past the limit
inductive Iterates (P : Platform) (limit step : F64) (body : F64 → Machine P → Except Vm.Stop (Machine P)) :
    F64 → Machine P → Except Vm.Stop (Machine P) → Prop
  | done {v s} (past : (if F64.lt ⟨0⟩ step then v.le limit else limit.le v) = false) : Iterates P limit step body v s (.ok s)
  | fails {v s e} (inside : (if F64.lt ⟨0⟩ step then v.le limit else limit.le v) = true) (run : body v s = .error e) :
      Iterates P limit step body v s (.error e)
  | next {v s s' result} (inside : (if F64.lt ⟨0⟩ step then v.le limit else limit.le v) = true) (run : body v s = .ok s')
      (rest : Iterates P limit step body (P.add v step) s' result) : Iterates P limit step body v s result

-- assignments to single globals
def isGlobalAssignment (env : Env) (names : List (List UInt8)) : Node → Bool
  | .assignmentStatement [.identifier x] [e] false =>
      register names (x.slice env.source) names.length == none && isExpression env e
  | _ => false

-- the loop variable is in the register behind the locals while a value is computed
def assign (env : Env) (names : List (List UInt8)) (name : List UInt8) (base : Nat) (v : F64) (s : Machine P) :
    List Node → Except Vm.Stop (Machine P)
  | .assignmentStatement [.identifier x] [e] false :: rest => do
      let inside : Machine P := { s with stack := s.stack.set (base + names.length) (.number v) }
      let w ← evaluate env (names ++ [name]) base inside e
      let s ← s.tableSet s.globals (.string (P.intern (x.slice env.source))) w
      assign env names name base v s rest
  | [] => .ok s
  | _ => .error .panic

def stepValue (env : Env) (names : List (List UInt8)) (base : Nat) (s : Machine P) : Option Node → Except Vm.Stop Value
  | some increment => evaluate env names base s increment
  | none => .ok (.number F64.one)

def evaluateControl (env : Env) (names : List (List UInt8)) (base : Nat) (start stop : Node) (increment : Option Node)
    (s : Machine P) : Except Vm.Stop (List Value) := do
  let a ← evaluate env names base s start
  let b ← evaluate env names base s stop
  let d ← stepValue env names base s increment
  return [a, b, d]

-- the registers from `low` on are not looked at
def Agrees (frame : Frame) (size low : Nat) : Except Vm.Stop (Machine P) → Except Vm.Stop (Machine P) → Prop
  | .ok s, .ok s' => Above frame size low s s'
  | .error e, .error e' => e = e'
  | _, _ => False

-- compiling reaches the end or a limit, and the code runs the body for the values of the variable
def RunsLoop (P : Platform) (frame : Frame) (size : Nat) (env : Env) (names : List (List UInt8)) (name : Token)
    (start stop : Node) (increment : Option Node) (body : List Node) (c : Compiler) : Prop :=
  Sat (fun e => Full e ∨ e = .localLimit) (genNode env (.forStatementNumeric name start stop increment body)) c fun _ c' =>
    Behaves P frame size c.func.freeRegister c.func.code c'.func.code c'.func fun s result =>
      ∀ a b d expected, evaluateControl env names frame.base start stop increment s = .ok [.number a, .number b, .number d] →
        Iterates P b d (fun v s => assign env names (name.slice env.source) frame.base v s body) a s expected →
          Agrees frame size c.func.freeRegister expected result

/-! ## The control values -/

-- one more value behind those that are loaded already
theorem nextReg_snoc {n : Nat} {values : Machine P → Except Vm.Stop (List Value)} {value : Machine P → Except Vm.Stop Value}
    (before : Simulates frame size code words low fs values fun s => slots s (frame.base + low) n)
    (computes : Computes P frame size (low + n) words c value) (wider : Wider fs c.func)
    (steady : ∀ s s', Above frame size low s s' → value s' = value s) (upper : low + n ≤ fs.maxStackSize.val) :
    Makes nextReg c fun _ c' => c'.func.freeRegister = low + (n + 1) ∧
      Simulates frame size code c'.func.code low c'.func (fun s => do
        let vs ← values s
        let v ← value s
        return vs ++ [v]) fun s => slots s (frame.base + low) (n + 1) := by
  refine (nextReg_computes computes).mono ?_
  rintro _ c' wider' ⟨-, free, simulates⟩
  refine ⟨free, ?_⟩
  have first := (before.bind (fun vs s => do
    let v ← value s
    return vs ++ [v]) ?_).wider (wider.trans wider')
  · have second := (simulates.beside (w := fun s : Machine P => slots s (frame.base + low) n) ?_
      (fun s s' above => slots_steady above le_rfl) (fun vs v _ => .ok (vs ++ [v])) fun _ _ _ _ _ => rfl).mono
        (Nat.le_add_right _ _)
    · refine (first.trans second).congr fun _ s _ => ?_
      rw [slots_concat, Nat.add_assoc]
      rfl
    · intro extended s room
      have := (wider.trans wider').registers
      have := extended.registers
      exact slots_inside (by omega)
  · intro vs s s' above
    rw [steady s s' above]

def genControl (env : Env) (start stop : Node) (increment : Option Node) : CompileM Unit := do
  onFunc (Func.reserveregs 4)
  genNode env start
  let _ ← nextReg
  genNode env stop
  let _ ← nextReg
  genIncrement env increment
  let _ ← nextReg

theorem stepValue_steady {s s' : Machine P} (le : names.length ≤ low) (above : Above frame size low s s')
    (increment : Option Node) :
    stepValue env names frame.base s' increment = stepValue env names frame.base s increment := by
  cases increment with
  | none => rfl
  | some e => exact evaluate_steady le above e

variable (frame size) in
theorem genIncrement_computes (interns : Interns P) (arithmetic : env.toArithmetic = P.toArithmetic)
    (increment : Option Node) (is : ∀ e ∈ increment, isExpression env e = true) (c : Compiler)
    (inScope : Scoped env names c.func) (locals : c.func.numActiveLocalVars ≤ c.func.freeRegister) :
    Makes (genIncrement env increment) c fun _ c' => Computes P frame size c.func.freeRegister c.func.code c'
      fun s => stepValue env names frame.base s increment := by
  cases increment with
  | none =>
      rw [genIncrement]
      exact setExp_computes ⟨rfl, trivial, locals⟩ (.refl _)
  | some e =>
      rw [genIncrement]
      exact genNode_computes frame size interns arithmetic e (is e rfl) c inScope locals

variable (frame size) in
theorem genControl_computes (interns : Interns P) (arithmetic : env.toArithmetic = P.toArithmetic) (start stop : Node)
    (increment : Option Node) (isStart : isExpression env start = true) (isStop : isExpression env stop = true)
    (is : ∀ e ∈ increment, isExpression env e = true) (c : Compiler) (inScope : Scoped env names c.func)
    (locals : c.func.numActiveLocalVars ≤ c.func.freeRegister) :
    Makes (genControl env start stop increment) c fun _ c' => c.func.freeRegister + 4 + 3 ≤ c'.func.maxStackSize.val ∧
      Simulates frame size c.func.code c'.func.code (c.func.freeRegister + 4) c'.func
        (fun s : Machine P => evaluateControl env names frame.base start stop increment s)
        fun s => slots s (frame.base + (c.func.freeRegister + 4)) 3 := by
  have known : names.length ≤ c.func.freeRegister + 4 := (inScope.count.trans_le locals).trans (Nat.le_add_right _ _)
  unfold genControl
  refine .bind (.onFunc (reserveregs_emits 4)) ?_
  rintro _ c₁ wider₁ ⟨-, same, room⟩
  have free₁ : c₁.func.freeRegister = c.func.freeRegister + 4 := by rw [same]
  have code₁ : c₁.func.code = c.func.code := by rw [same]
  have locals₁ : c₁.func.numActiveLocalVars ≤ c₁.func.freeRegister := by
    rw [wider₁.number, free₁]
    omega
  have inScope₁ := inScope.wider wider₁
  refine .bind (genNode_computes frame size interns arithmetic start isStart c₁ inScope₁ locals₁) ?_
  rintro _ c₂ wider₂ computes
  rw [free₁, code₁] at computes
  have nothing : Simulates frame size c.func.code c.func.code (c.func.freeRegister + 4) c₁.func
      (fun _ : Machine P => .ok []) fun s => slots s (frame.base + (c.func.freeRegister + 4)) 0 := .refl _
  refine .bind (nextReg_snoc nothing computes wider₂
    (fun s s' above => evaluate_steady known above start) room) ?_
  rintro _ c₃ wider₃ ⟨free₃, first⟩
  have locals₃ : c₃.func.numActiveLocalVars ≤ c₃.func.freeRegister := by
    rw [wider₃.number, wider₂.number, free₃]
    omega
  have inScope₃ := (inScope₁.wider wider₂).wider wider₃
  refine Makes.roomy fun roomy₃ => ?_
  refine .bind (genNode_computes frame size interns arithmetic stop isStop c₃ inScope₃ locals₃) ?_
  rintro _ c₄ wider₄ computes
  rw [free₃] at computes
  refine .bind (nextReg_snoc first computes wider₄ (fun s s' above => evaluate_steady known above stop)
    (free₃ ▸ roomy₃.registers)) ?_
  rintro _ c₅ wider₅ ⟨free₅, second⟩
  have locals₅ : c₅.func.numActiveLocalVars ≤ c₅.func.freeRegister := by
    rw [wider₅.number, wider₄.number, free₅]
    omega
  have inScope₅ := (inScope₃.wider wider₄).wider wider₅
  refine Makes.roomy fun roomy₅ => ?_
  refine .bind (genIncrement_computes frame size interns arithmetic increment is c₅ inScope₅ locals₅) ?_
  rintro _ c₆ wider₆ computes
  rw [free₅] at computes
  refine .bind (nextReg_snoc second computes wider₆ (fun s s' above => stepValue_steady known above increment)
    (free₅ ▸ roomy₅.registers)) ?_
  rintro _ c₇ wider₇ ⟨free₇, third⟩
  refine Makes.roomy fun roomy₇ => ?_
  refine .pure ⟨free₇ ▸ roomy₇.registers, ?_⟩
  have same : (fun s : Machine P => evaluateControl env names frame.base start stop increment s) = fun s => do
      let vs ← (do
        let vs ← (do
          let vs ← (Except.ok [] : Except Vm.Stop (List Value))
          let v ← evaluate env names frame.base s start
          return vs ++ [v])
        let v ← evaluate env names frame.base s stop
        return vs ++ [v])
      let v ← stepValue env names frame.base s increment
      return vs ++ [v] := by
    funext s
    simp [evaluateControl]
  rw [same]
  exact third

/-! ## The loop instructions -/

theorem forward (op : OpCode) {reg : Nat} (register : reg < 256) :
    (Instruction.asbx op reg 0).Fits ∧ (Instruction.asbx op reg 0).op = op ∧ (Instruction.asbx op reg 0).a = reg ∧
      (Instruction.asbx op reg 0).sbx = 0 := by
  refine ⟨fits_bx register (by decide), rfl, rfl, ?_⟩
  unfold Instruction.sbx Instruction.asbx
  rw [Instruction.bx_abx]
  rfl

-- `FORPREP` goes past the instruction behind it
variable (P frame size code) in
theorem emptyLoop_behaves {reg : Nat} (register : reg + 4 ≤ fs.maxStackSize.val) :
    Behaves P frame size reg code (code ++ [.instr (.asbx .forprep reg 0), .instr (.asbx .forloop reg 0)]) fs
      fun s result => ∃ s', result = .ok s' ∧ Above frame size reg s s' := by
  have limit := fs.maxStackSize.lt
  have small : Code.maxStackSize = 250 := rfl
  obtain ⟨fits, op, a, offset⟩ := forward .forprep (show reg < 256 by omega)
  refine ⟨[_, _], rfl, fun extended host s pc located starts => ?_⟩
  have upper := extended.registers
  have inside := starts.room
  obtain ⟨idx, first⟩ := slot_inside (s := s) (k := frame.base + reg) (by omega)
  obtain ⟨step, third⟩ := slot_inside (s := s) (k := frame.base + reg + 2) (by omega)
  have jump : jump pc 0 = .ok (pc + 1) := by
    unfold Vm.jump
    rw [if_neg (by omega)]
    congr 1
  obtain ⟨s', run, above⟩ : ∃ s', execForprep frame pc (.asbx .forprep reg 0) s = .ok (.next s' (pc + 2)) ∧
      Above frame size reg s s' := by
    simp only [execForprep, a, offset, first, third, ok_bind, jump]
    split
    · rw [setSlot_inside (by omega)]
      exact ⟨_, rfl, above_set le_rfl (by omega) _⟩
    · exact ⟨s, rfl, .refl s⟩
  refine ⟨.ok s', .exec (located.read fits) fun execute => ?_, ⟨?_, fun wrong => by cases wrong⟩, s', rfl, above⟩
  · unfold exec
    rw [op]
    exact run
  · rintro _ ⟨⟩
    exact above.length

/-! ## The statement -/

-- the part behind the control values
def genLoop (env : Env) (base : Nat) (name : Token) (body : List Node) : CompileM Unit := do
  let _ ← onFunc (Func.emitAsBx .forprep base 0)
  let outer ← enterLoop
  declareLoopVars (base + 3) [name] 0
  genBody env body
  let _ ← onFunc (Func.emitAsBx .forloop base 0)
  let breaks ← leaveLoop outer
  leaveFor base 1 breaks

theorem genNode_for (env : Env) (name : Token) (start stop : Node) (increment : Option Node) (body : List Node) :
    genNode env (.forStatementNumeric name start stop increment body) = (do
      let fs ← getFunc
      genControl env start stop increment
      genLoop env fs.freeRegister name body) := by
  rw [genNode]
  simp only [genControl, genLoop, bind_assoc, pure_bind]

-- the state in which the body is compiled
def entered (c : Compiler) (base : Nat) (name : Token) : Compiler :=
  { c with
    func := { c.func with
      code := c.func.code ++ [.instr (.asbx .forprep base 0)]
      activeLocalVars := (c.func.activeLocalVars.set c.func.numActiveLocalVars c.func.localVars.length).set
        c.func.numActiveLocalVars (base + 3)
      localVars := c.func.localVars ++ [name]
      numActiveLocalVars := c.func.numActiveLocalVars + 1 }
    breakList := some [] }

theorem newLocalvar_room {index : Nat} (name : Token) (room : fs.numActiveLocalVars + index < maxVars) :
    Func.newLocalvar name index fs = .ok ((), { fs with
      activeLocalVars := fs.activeLocalVars.set (fs.numActiveLocalVars + index) fs.localVars.length
      localVars := fs.localVars ++ [name] }) := by
  refine (bind_runs rfl).trans ?_
  rw [if_neg (Nat.not_le.mpr room)]
  rfl

theorem newLocalvar_full {index : Nat} (name : Token) (full : maxVars ≤ fs.numActiveLocalVars + index) :
    Func.newLocalvar name index fs = .error .localLimit := by
  refine (bind_runs rfl).trans ?_
  rw [if_pos full]
  rfl

theorem onFunc_throws {α : Type} {x : FuncM α} {e : Compile.Stop} (run : x c.func = .error e) : onFunc x c = .error e := by
  unfold onFunc
  rw [run]
  rfl

theorem onFunc_runs {α : Type} {x : FuncM α} {a : α} (run : x c.func = .ok (a, fs)) :
    onFunc x c = .ok (a, { c with func := fs }) := by
  unfold onFunc
  rw [run]
  rfl

theorem genLoop_entered (base : Nat) (name : Token) (body : List Node) (room : c.func.numActiveLocalVars < maxVars) :
    genLoop env base name body c = (do
      genBody env body
      let _ ← onFunc (Func.emitAsBx .forloop base 0)
      let breaks ← leaveLoop c.breakList
      leaveFor base 1 breaks : CompileM Unit) (entered c base name) := by
  unfold genLoop
  rw [bind_runs (onFunc_runs rfl), bind_runs rfl]
  refine bind_runs (a := ()) ?_
  rw [declareLoopVars, bind_runs (onFunc_runs (newLocalvar_room name room))]
  rfl

theorem genLoop_full (base : Nat) (name : Token) (body : List Node) (full : maxVars ≤ c.func.numActiveLocalVars) :
    genLoop env base name body c = .error .localLimit := by
  unfold genLoop
  rw [bind_runs (onFunc_runs rfl), bind_runs rfl]
  refine bind_throws ?_
  rw [declareLoopVars]
  exact bind_throws (onFunc_throws (newLocalvar_full name full))

theorem genLoop_empty (base : Nat) (name : Token) : Sat (· = .localLimit) (genLoop env base name []) c fun _ c' =>
    c'.func.code = c.func.code ++ [.instr (.asbx .forprep base 0), .instr (.asbx .forloop base 0)] ∧
      c'.func.constants = c.func.constants ∧ c'.func.maxStackSize = c.func.maxStackSize := by
  unfold Sat
  by_cases room : c.func.numActiveLocalVars < maxVars
  · rw [genLoop_entered base name [] room, genBody]
    refine ⟨?_, rfl, rfl⟩
    show (c.func.code ++ _) ++ _ = _
    rw [List.append_assoc]
    rfl
  · rw [genLoop_full base name [] (Nat.not_lt.mp room)]

variable (env) in
theorem genLoop_body (x : Token) (e : Node) (rest : List Node) {base : Nat} (name : Token)
    (room : c.func.numActiveLocalVars < maxVars) (slots : c.func.activeLocalVars.length = maxVars)
    (few : c.func.localVars.length ≤ base + 2) :
    genLoop env base name (.assignmentStatement [.identifier x] [e] false :: rest) c = .error .outOfBounds := by
  have missing : (entered c base name).func.getlocvar c.func.numActiveLocalVars = none := by
    unfold Func.getlocvar entered
    dsimp only
    rw [List.getElem?_set_self (by rw [List.length_set, slots]; exact room), Option.bind_some]
    refine List.getElem?_eq_none ?_
    rw [List.length_append, List.length_singleton]
    omega
  have lookup : Func.findLocalVarByToken env.source x (entered c base name).func = .error .outOfBounds := by
    unfold Func.findLocalVarByToken
    refine (bind_runs rfl).trans ?_
    have search : (entered c base name).func.searchVar env.source (x.slice env.source)
        (c.func.numActiveLocalVars + 1) = .error .outOfBounds := by
      rw [Func.searchVar, missing]
    show StateT.lift ((entered c base name).func.searchVar env.source (x.slice env.source) (c.func.numActiveLocalVars + 1)) _ = _
    rw [search]
    rfl
  have target : genIdentifier env x (entered c base name) = .error .outOfBounds := by
    exact bind_throws (onFunc_throws lookup)
  rw [genLoop_entered base name _ room]
  refine bind_throws ?_
  rw [genBody]
  refine bind_throws ?_
  rw [genNode]
  refine bind_throws ?_
  rw [genTargets]
  refine bind_throws ?_
  rw [genNode]
  exact target

theorem iterates_empty {limit step v : F64} {base : Nat} {name : List UInt8} {s : Machine P}
    {result : Except Vm.Stop (Machine P)}
    (h : Iterates P limit step (fun v s => assign env names name base v s []) v s result) : result = .ok s := by
  induction h with
  | done past => rfl
  | fails inside run => cases run
  | next inside run rest ih =>
      cases run
      exact ih

theorem runsLoop_empty (interns : Interns P) (arithmetic : env.toArithmetic = P.toArithmetic) (name : Token)
    {start stop : Node} {increment : Option Node} (isStart : isExpression env start = true)
    (isStop : isExpression env stop = true) (isStep : ∀ e ∈ increment, isExpression env e = true) (c : Compiler)
    (inScope : Scoped env names c.func) (locals : c.func.numActiveLocalVars ≤ c.func.freeRegister) (roomy : Roomy c.func) :
    RunsLoop P frame size env names name start stop increment [] c := by
  have control := genControl_computes frame size interns arithmetic start stop increment isStart isStop isStep c inScope
    locals roomy
  unfold RunsLoop
  rw [genNode_for]
  refine Sat.bind (x := getFunc) ?_
  show Sat _ (do genControl env start stop increment; genLoop env c.func.freeRegister name []) c _
  refine Sat.bind ((control.stops fun e full => Or.inl full).mono ?_)
  rintro _ c₁ ⟨roomy₁, wider, room, simulates⟩
  refine ((genLoop_empty c.func.freeRegister name).stops fun e limit => Or.inr limit).mono ?_
  rintro _ c₂ ⟨code, constants, registers⟩
  have loaded := (simulates.behaves fun extended s inside => slots_inside (s := s) (by
    have := extended.registers
    omega)).lower (Nat.le_add_right _ _)
  have past := emptyLoop_behaves P frame size c₁.func.code
    (show c.func.freeRegister + 4 ≤ c₁.func.maxStackSize.val by omega)
  rw [code]
  refine ((loaded.trans past).limits constants registers).mono fun extended s result starts h => ?_
  intro a b d expected control iterates
  obtain rfl := iterates_empty iterates
  unfold Ends at h
  simp only [control] at h
  rcases h with ⟨e, -, s', wrong, -⟩ | ⟨s', ⟨_, ⟨⟩, above, -⟩, t, rfl, above'⟩
  · cases wrong
  · exact (above.mono (Nat.le_add_right _ _)).trans above'

theorem runsLoop_body {x : Token} {e : Node} {rest : List Node} (interns : Interns P)
    (arithmetic : env.toArithmetic = P.toArithmetic) {name : Token} {start stop : Node} {increment : Option Node}
    (isStart : isExpression env start = true) (isStop : isExpression env stop = true)
    (isStep : ∀ e ∈ increment, isExpression env e = true) {c : Compiler} (inScope : Scoped env names c.func)
    (locals : c.func.numActiveLocalVars ≤ c.func.freeRegister) (roomy : Roomy c.func)
    (slots : c.func.activeLocalVars.length = maxVars) (few : c.func.localVars.length ≤ c.func.freeRegister + 2)
    (compiles : ∃ c', genNode env (.forStatementNumeric name start stop increment []) c = .ok ((), c')) :
    ¬RunsLoop P frame size env names name start stop increment (.assignmentStatement [.identifier x] [e] false :: rest) c := by
  obtain ⟨c', compiles⟩ := compiles
  rw [genNode_for] at compiles
  obtain ⟨fs, c₀, ⟨⟩, compiles⟩ := bind_returns.mp compiles
  obtain ⟨u, c₁, control, entering⟩ := bind_returns.mp compiles
  have made := genControl_computes frame size interns arithmetic start stop increment isStart isStop isStep c inScope
    locals roomy
  unfold Sat at made
  rw [control] at made
  obtain ⟨-, wider, -⟩ := made
  have room : c₁.func.numActiveLocalVars < maxVars := by
    by_contra full
    rw [genLoop_full _ name [] (Nat.not_lt.mp full)] at entering
    cases entering
  have throws := genLoop_body env x e rest name room
    (wider.scope.active ▸ slots) (wider.scope.locals ▸ few)
  intro runs
  unfold RunsLoop Sat at runs
  rw [genNode_for, bind_runs (x := getFunc) rfl, bind_runs control, throws] at runs
  rcases runs with (wrong | wrong) | wrong <;> cases wrong

variable (frame size) in
theorem numericFor_runs (interns : Interns P) (arithmetic : env.toArithmetic = P.toArithmetic) (name : Token)
    (start stop : Node) (increment : Option Node) (body : List Node) (isStart : isExpression env start = true)
    (isStop : isExpression env stop = true) (isStep : ∀ e ∈ increment, isExpression env e = true)
    (isBody : ∀ node ∈ body, isGlobalAssignment env (names ++ [name.slice env.source]) node = true) (c : Compiler)
    (inScope : Scoped env names c.func) (locals : c.func.numActiveLocalVars ≤ c.func.freeRegister) (roomy : Roomy c.func)
    (slots : c.func.activeLocalVars.length = maxVars)
    (compiles : ∃ c', genNode env (.forStatementNumeric name start stop increment []) c = .ok ((), c')) :
    (body = [] → RunsLoop P frame size env names name start stop increment body c) ∧
      (c.func.localVars.length ≤ c.func.freeRegister + 2 →
        (RunsLoop P frame size env names name start stop increment body c ↔ body = [])) := by
  have empty : body = [] → RunsLoop P frame size env names name start stop increment body c := by
    rintro rfl
    exact runsLoop_empty interns arithmetic name isStart isStop isStep c inScope locals roomy
  refine ⟨empty, fun few => ⟨fun runs => ?_, empty⟩⟩
  cases body with
  | nil => rfl
  | cons node rest =>
      have first := isBody node List.mem_cons_self
      unfold isGlobalAssignment at first
      split at first
      · exact (runsLoop_body interns arithmetic isStart isStop isStep inScope locals roomy slots few compiles runs).elim
      · cases first

-- `for i=1,1 do x=i end`
def countingEnv : Env := { plainEnv (Lex.bytes "for i=1,1 do x=i end") with parseFloat := fun _ => some F64.one }

def countingBody : List Node := [.assignmentStatement [.identifier ⟨.name, 13, 14, 1, none⟩] [.identifier ⟨.name, 15, 16, 1, none⟩] false]

theorem counting_compiles : ∃ c', genNode countingEnv (.forStatementNumeric ⟨.name, 4, 5, 1, none⟩
    (.literal ⟨.number, 6, 7, 1, none⟩) (.literal ⟨.number, 8, 9, 1, none⟩) none []) {} = .ok ((), c') := by
  have compiles : (genNode countingEnv (.forStatementNumeric ⟨.name, 4, 5, 1, none⟩
      (.literal ⟨.number, 6, 7, 1, none⟩) (.literal ⟨.number, 8, 9, 1, none⟩) none []) {}).toOption.isSome = true := by
    decide +kernel
  generalize genNode countingEnv _ {} = result at compiles
  cases result with
  | error e => cases compiles
  | ok pair => exact ⟨pair.2, rfl⟩

theorem counting_stuck : ¬RunsLoop Platform.plain plainFrame 10 countingEnv [] ⟨.name, 4, 5, 1, none⟩
    (.literal ⟨.number, 6, 7, 1, none⟩) (.literal ⟨.number, 8, 9, 1, none⟩) none countingBody {} :=
  runsLoop_body (fun _ => rfl) rfl (by decide) (by decide) (fun _ wrong => by cases wrong) (scoped_empty _) le_rfl
    roomy_empty rfl (Nat.zero_le _) counting_compiles

theorem counting_runs :
    (countingBody = [] → RunsLoop Platform.plain plainFrame 10 countingEnv [] ⟨.name, 4, 5, 1, none⟩
      (.literal ⟨.number, 6, 7, 1, none⟩) (.literal ⟨.number, 8, 9, 1, none⟩) none countingBody {}) ∧
      (0 ≤ 0 + 2 → (RunsLoop Platform.plain plainFrame 10 countingEnv [] ⟨.name, 4, 5, 1, none⟩
        (.literal ⟨.number, 6, 7, 1, none⟩) (.literal ⟨.number, 8, 9, 1, none⟩) none countingBody {} ↔
          countingBody = [])) :=
  numericFor_runs plainFrame 10 (fun _ => rfl) rfl ⟨.name, 4, 5, 1, none⟩ (.literal ⟨.number, 6, 7, 1, none⟩)
    (.literal ⟨.number, 8, 9, 1, none⟩) none countingBody (by decide) (by decide) (fun _ wrong => by cases wrong)
    (by decide) {} (scoped_empty _) le_rfl roomy_empty rfl counting_compiles

end Zua.Run
