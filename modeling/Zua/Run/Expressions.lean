import Zua.Run.Operators

/-!
# The code of expressions

The code that is generated for an expression computes what the evaluator says, from every state in which the
registers of the locals hold their values.
-/

namespace Zua.Run
open Code Object Compile Vm Syntax
open Memory (Constant)
open Zua.Lex (Token ch)

/-! ## Computations of the compiler -/

def Makes {α : Type} (x : CompileM α) (c : Compiler) (Q : α → Compiler → Prop) : Prop :=
  Roomy c.func → Sat Full x c fun a c' => Roomy c'.func ∧ Wider c.func c'.func ∧ Q a c'

namespace Makes

variable {α β : Type} {c : Compiler} {Q : α → Compiler → Prop}

theorem pure {a : α} (h : Q a c) : Makes (Pure.pure a) c Q := fun roomy => ⟨roomy, .refl c.func, h⟩

theorem bind {x : CompileM α} {f : α → CompileM β} {R : β → Compiler → Prop} (first : Makes x c Q)
    (rest : ∀ a c', Wider c.func c'.func → Q a c' → Makes (f a) c' R) : Makes (x >>= f) c R := by
  intro roomy
  refine Sat.bind (Sat.mono (first roomy) ?_)
  rintro a c' ⟨roomy, wider, h⟩
  refine Sat.mono (rest a c' wider h roomy) ?_
  rintro b c'' ⟨roomy, wider', h'⟩
  exact ⟨roomy, wider.trans wider', h'⟩

theorem mono {x : CompileM α} {R : α → Compiler → Prop} (h : Makes x c Q)
    (weaker : ∀ a c', Wider c.func c'.func → Q a c' → R a c') : Makes x c R := by
  intro roomy
  refine Sat.mono (h roomy) ?_
  rintro a c' ⟨roomy, wider, holds⟩
  exact ⟨roomy, wider, weaker a c' wider holds⟩

theorem roomy {x : CompileM α} (h : Roomy c.func → Makes x c Q) : Makes x c Q := fun roomy => h roomy roomy

theorem getFunc {f : Func → CompileM α} (h : Makes (f c.func) c Q) : Makes (Compile.getFunc >>= f) c Q := h

theorem onFunc {x : FuncM α} {Q : α → Func → Prop} (emits : Emits x c.func Q) :
    Makes (onFunc x) c fun a c' => c'.func.curExp = c.func.curExp ∧ Q a c'.func := by
  intro roomy
  refine sat_onFunc ((emits roomy).mono ?_)
  rintro a fs ⟨roomy, wider, same, h⟩
  exact ⟨roomy, wider, same, h⟩

theorem setExp (e : ExpDesc) : Makes (setExp e) c fun _ c' => c'.func = { c.func with curExp := e } :=
  fun roomy => ⟨⟨roomy.registers, roomy.constants⟩, ⟨le_rfl, List.prefix_rfl, rfl, rfl, rfl⟩, rfl⟩

theorem onExp {f : ExpDesc → FuncM ExpDesc} {Q : ExpDesc → Func → Prop} (emits : Emits (f c.func.curExp) c.func Q) :
    Makes (onExp f) c fun _ c' => ∃ fs, c'.func = { fs with curExp := c'.func.curExp } ∧ Q c'.func.curExp fs := by
  refine .getFunc (.bind (.onFunc emits) ?_)
  rintro e c₁ - ⟨-, h⟩
  refine (setExp e).mono ?_
  rintro _ c₂ - same
  rw [same]
  exact ⟨c₁.func, rfl, h⟩

theorem onExpReg {f : ExpDesc → FuncM (Nat × ExpDesc)} {Q : Nat × ExpDesc → Func → Prop}
    (emits : Emits (f c.func.curExp) c.func Q) : Makes (onExpReg f) c fun r c' =>
      ∃ fs, c'.func = { fs with curExp := c'.func.curExp } ∧ Q (r, c'.func.curExp) fs := by
  refine .getFunc (.bind (.onFunc emits) ?_)
  rintro ⟨r, e⟩ c₁ - ⟨-, h⟩
  refine .bind (setExp e) ?_
  rintro _ c₂ - same
  refine .pure ?_
  rw [same]
  exact ⟨c₁.func, rfl, h⟩

end Makes

/-! ## What the current description stands for -/

variable {P : Platform} {frame : Frame} {size low mid : Nat} {fs fs' : Func} {e : ExpDesc} {c c' : Compiler}

theorem Ready.setExp (ready : Ready low fs e) (d : ExpDesc) : Ready low { fs with curExp := d } e := by
  refine ⟨?_, ready.valid.grow rfl ⟨le_rfl, List.prefix_rfl, rfl, rfl, rfl⟩, ready.locals⟩
  have temps := ready.temps
  cases e <;> exact temps

-- the code after `code` and the current description have the value
structure Computes (P : Platform) (frame : Frame) (size low : Nat) (code : List Word) (c : Compiler)
    (value : Machine P → Except Vm.Stop Value) : Prop where
  ready : Ready low c.func c.func.curExp
  simulates : Simulates frame size code (fixed c.func c.func.curExp) low c.func value (denote frame c.func c.func.curExp)

theorem computes_set (fs : Func) {code : List Word} {value : Machine P → Except Vm.Stop Value}
    (same : c.func = { fs with curExp := c.func.curExp })
    (ready : Ready low fs c.func.curExp)
    (simulates : Simulates frame size code (fixed fs c.func.curExp) low fs value (denote frame fs c.func.curExp)) :
    Computes P frame size low code c value := by
  have code : c.func.code = fs.code := by rw [same]
  refine ⟨?_, ?_⟩
  · rw [same]
    exact ready.setExp _
  · rw [fixed_frame code, denote_frame code]
    refine simulates.wider ?_
    rw [same]
    exact ⟨le_rfl, List.prefix_rfl, rfl, rfl, rfl⟩

theorem setExp_computes {code : List Word} {value : Machine P → Except Vm.Stop Value} (ready : Ready low c.func e)
    (simulates : Simulates frame size code (fixed c.func e) low c.func value (denote frame c.func e)) :
    Makes (setExp e) c fun _ c' => Computes P frame size low code c' value := by
  refine (Makes.setExp e).mono ?_
  rintro _ c' - same
  have exp : c'.func.curExp = e := by rw [same]
  refine computes_set c.func ?_ ?_ ?_
  · rw [same]
  · rw [exp]
    exact ready
  · rw [exp]
    exact simulates

/-! ## Names and literals -/

variable {env : Env} {names : List (List UInt8)}

-- the names of the active variables
structure Scoped (env : Env) (names : List (List UInt8)) (fs : Func) : Prop where
  count : names.length = fs.numActiveLocalVars
  each : ∀ n < names.length, ∃ token, fs.getlocvar n = some token ∧ names[n]? = some (token.slice env.source)

theorem Scoped.wider (inScope : Scoped env names fs) (wider : Wider fs fs') : Scoped env names fs' := by
  refine ⟨inScope.count.trans wider.number.symm, fun n inside => ?_⟩
  obtain ⟨token, found, named⟩ := inScope.each n inside
  refine ⟨token, ?_, named⟩
  unfold Func.getlocvar at found ⊢
  rw [wider.scope.active, wider.scope.locals]
  exact found

theorem searchVar_register (inScope : Scoped env names fs) (name : List UInt8) {n : Nat} (le : n ≤ names.length) :
    fs.searchVar env.source name n = .ok (register names name n) := by
  induction n with
  | zero => rfl
  | succ n ih =>
      obtain ⟨token, found, named⟩ := inScope.each n le
      simp only [Func.searchVar, register, found, named, Option.some.injEq]
      split
      · rfl
      · exact ih (Nat.le_of_succ_le le)

theorem register_lt {name : List UInt8} {n r : Nat} (found : register names name n = some r) : r < n := by
  induction n with
  | zero => cases found
  | succ n ih =>
      unfold register at found
      split at found
      · cases found
        exact Nat.lt_succ_self _
      · exact (ih found).trans (Nat.lt_succ_self n)

theorem genName_makes (token : Token) : Makes (genName env token) c fun k c' =>
    c'.func = { c.func with constants := c'.func.constants } ∧
      c'.func.constants[k]? = some (.string (token.slice env.source)) := by
  refine (Makes.onFunc (putConstant_emits _)).mono ?_
  rintro k c' - ⟨-, same, found, -⟩
  exact ⟨same, found⟩

theorem denote_global {k : Nat} {name : List UInt8} (found : frame.constants[k]? = some (.string name)) (s : Machine P) :
    denote frame fs (.global k) s = getGlobal s name := by
  simp only [denote, computed, Instruction.abx_op, Instruction.bx_abx, found]

theorem denote_constant {k : Nat} {name : List UInt8} (found : frame.constants[k]? = some (.string name)) (s : Machine P) :
    denote frame fs (.constantIndex k) s = .ok (.string (P.intern name)) := by
  rw [denote, Machine.constant, found]
  rfl

theorem genIdentifier_computes (inScope : Scoped env names c.func)
    (locals : c.func.numActiveLocalVars ≤ c.func.freeRegister) (token : Token) :
    Makes (genIdentifier env token) c fun _ c' => Computes P frame size c.func.freeRegister c.func.code c'
      fun s => variableValue names frame.base s (token.slice env.source) := by
  have search : Emits (Func.findLocalVarByToken env.source token) c.func fun found fs' =>
      found = register names (token.slice env.source) names.length ∧ fs' = c.func := by
    refine Emits.of_run ?_
    have found := searchVar_register inScope (token.slice env.source) le_rfl
    rw [inScope.count] at found ⊢
    unfold Func.findLocalVarByToken
    show (StateT.lift (c.func.searchVar env.source (token.slice env.source) c.func.numActiveLocalVars)) c.func = _
    rw [found]
    rfl
  refine .bind (.onFunc search) ?_
  rintro found c₁ wider₁ ⟨-, rfl, same₁⟩
  refine .bind (x := recordBinding token _) (Q := fun _ c' => c'.func = c₁.func)
    (fun roomy => ⟨⟨roomy.registers, roomy.constants⟩, .refl _, rfl⟩) ?_
  rintro _ c₂ wider₂ same₂
  have same : c₂.func = c.func := same₂.trans same₁
  cases found : register names (token.slice env.source) names.length with
  | some r =>
      dsimp only
      have small : r < c.func.numActiveLocalVars := by
        rw [← inScope.count]
        exact register_lt found
      refine setExp_computes ?_ ?_
      · rw [same]
        exact ⟨⟨small, rfl⟩, trivial, locals⟩
      · rw [same]
        refine (Simulates.refl _).congr fun _ s _ => ?_
        simp only [variableValue, found, denote]
  | none =>
      refine .bind (genName_makes token) ?_
      rintro k c₃ - ⟨same₃, located⟩
      rw [same] at same₃
      have code : c₃.func.code = c.func.code := by rw [same₃]
      refine setExp_computes ?_ ?_
      · refine ⟨?_, ⟨_, located⟩, ?_⟩
        · show c₃.func.freeRegister = c.func.freeRegister
          rw [same₃]
        · rw [same₃]
          exact locals
      · show Simulates _ _ _ c₃.func.code _ _ _ _
        rw [code]
        refine (Simulates.refl _).congr fun extended s _ => ?_
        rw [denote_global (getElem?_of_initial located extended.constants)]
        simp only [variableValue, found]

theorem literal_computes {constant : Constant} {token : Token} (is : literal env token = some constant)
    (locals : c.func.numActiveLocalVars ≤ c.func.freeRegister) :
    Makes (genLiteral env token) c fun _ c' => Computes P frame size c.func.freeRegister c.func.code c'
      fun _ => .ok (Machine.constantToValue P constant) := by
  have direct {e : ExpDesc} (temps : Temps c.func.freeRegister c.func e) (valid : Valid c.func e)
      (code : fixed c.func e = c.func.code)
      (value : ∀ s : Machine P, denote frame c.func e s = .ok (Machine.constantToValue P constant)) :
      Makes (setExp e) c fun _ c' => Computes P frame size c.func.freeRegister c.func.code c'
        fun _ => .ok (Machine.constantToValue P constant) := by
    refine setExp_computes ⟨temps, valid, locals⟩ ?_
    rw [code]
    exact (Simulates.refl _).congr fun _ s _ => (value s).symm
  unfold literal at is
  unfold genLiteral
  cases id : token.id <;> rw [id] at is <;> try cases is
  case string =>
      dsimp only at is ⊢
      cases parsed : Lex.parseString (token.slice env.source) (token.slice env.source).length with
      | error e =>
          rw [parsed] at is
          cases is
      | ok content =>
          rw [parsed] at is
          cases is
          refine .bind (.onFunc (putConstant_emits _)) ?_
          rintro k c₁ - ⟨-, same, found, -⟩
          have code : c₁.func.code = c.func.code := by rw [same]
          refine setExp_computes ⟨?_, ⟨_, found⟩, ?_⟩ ?_
          · show c₁.func.freeRegister = c.func.freeRegister
            rw [same]
          · rw [same]
            exact locals
          · show Simulates _ _ _ c₁.func.code _ _ _ _
            rw [code]
            refine (Simulates.refl _).congr fun extended s _ => ?_
            rw [denote_constant (getElem?_of_initial found extended.constants)]
            rfl
  case number =>
      dsimp only at is ⊢
      cases parsed : Lex.parseNumber env.parseFloat (token.slice env.source) with
      | error e =>
          rw [parsed] at is
          cases is
      | ok n =>
          rw [parsed] at is
          cases is
          exact direct rfl trivial rfl fun _ => rfl
  case keywordTrue => exact direct rfl trivial rfl fun _ => rfl
  case keywordFalse => exact direct rfl trivial rfl fun _ => rfl
  case keywordNil => exact direct rfl trivial rfl fun _ => rfl

/-! ## Expressions -/

-- a value depends on the registers of the locals only
theorem evaluate_steady {s s' : Machine P} (le : names.length ≤ low) (above : Above frame size low s s') (node : Node) :
    evaluate env names frame.base s' node = evaluate env names frame.base s node := by
  cases node with
  | literal token => rfl
  | identifier token =>
      simp only [evaluate, variableValue]
      split
      · rename_i r found
        exact above.slot ((register_lt found).trans_le le)
      · exact above.getGlobal _
  | groupedExpression openToken e closeToken =>
      simp only [evaluate]
      exact evaluate_steady le above e
  | unaryExpression op e =>
      simp only [evaluate, evaluate_steady le above e]
      refine bind_congr fun v => ?_
      unfold unary
      rw [above.lengthOf]
  | binaryExpression op l r => simp only [evaluate, evaluate_steady le above l, evaluate_steady le above r]
  | fieldAccess e field separator =>
      simp only [evaluate, evaluate_steady le above e]
      exact bind_congr fun t => index_steady above t _
  | indexAccess e k openToken closeToken =>
      simp only [evaluate, evaluate_steady le above e, evaluate_steady le above k]
      exact bind_congr fun t => bind_congr fun key => index_steady above t key
  | _ => simp only [evaluate]

theorem Wider.described {fs'' : Func} (wider : Wider fs fs') (same : fs' = { fs'' with curExp := e }) : Wider fs fs'' := by
  rw [same] at wider
  exact ⟨wider.registers, wider.constants, wider.scope.number, wider.scope.active, wider.scope.locals⟩

-- an operation on the current description that computes a further value from its value
theorem Computes.next {f : ExpDesc → FuncM ExpDesc} {code : List Word} {value : Machine P → Except Vm.Stop Value}
    (computes : Computes P frame size low code c value) (k : Value → Machine P → Except Vm.Stop Value)
    (steady : ∀ v s s', Above frame size low s s' → k v s' = k v s)
    (emits : Emits (f c.func.curExp) c.func fun d fs' => Ready low fs' d ∧
      Simulates frame size (fixed c.func c.func.curExp) (fixed fs' d) low fs' (fun s => do
        let v ← denote frame c.func c.func.curExp s
        k v s) (denote frame fs' d)) :
    Makes (onExp f) c (fun _ c' => Computes P frame size low code c' (fun s => do
      let v ← value s
      k v s)) := by
  refine (Makes.onExp emits).mono ?_
  rintro _ c' wider ⟨fs', same, ready, simulates⟩
  refine computes_set fs' same ready ?_
  exact ((computes.simulates.bind k steady).wider (wider.described same)).trans simulates

theorem wider_setExp (fs : Func) (d : ExpDesc) : Wider fs { fs with curExp := d } := ⟨le_rfl, List.prefix_rfl, rfl, rfl, rfl⟩

-- the left operand stays where it is while the right one is computed
structure LeftValue (P : Platform) (frame : Frame) (size low : Nat) (code : List Word) (op : Token) (c : Compiler)
    (value : Machine P → Except Vm.Stop Value) : Prop where
  waits : Func.Waits c.func low c.func.freeRegister c.func.curExp
  valid : Valid c.func c.func.curExp
  locals : c.func.numActiveLocalVars ≤ low
  concat : op.id = .concat → c.func.curExp = .nonreloc low
  simulates : Simulates frame size code c.func.code low c.func value (denote frame c.func c.func.curExp)

theorem leftOperand_computes {op : Token} {code : List Word} {value : Machine P → Except Vm.Stop Value}
    (operator : isBinary op = true) (computes : Computes P frame size low code c value) :
    Makes (onExp (Func.leftOperand op)) c fun _ c' => LeftValue P frame size low code op c' value := by
  refine (Makes.onExp (leftOperand_emits P frame size operator computes.ready)).mono ?_
  rintro _ c' wider ⟨fs, same, waits, valid, concat, moves⟩
  have grows := wider_setExp fs c'.func.curExp
  rw [← same] at grows
  have free : c'.func.freeRegister = fs.freeRegister := by rw [same]
  refine ⟨Func.Waits.frame grows.number ?_, Waits.grow waits valid grows, ?_, concat, ?_⟩
  · rw [free]
    exact waits
  · rw [wider.number]
    exact computes.ready.locals
  · have simulates := (computes.simulates.wider (wider.described same)).trans moves
    rw [Waits.fixed waits, Waits.denoted waits fs c'.func] at simulates
    rw [same] at simulates ⊢
    exact simulates.wider (wider_setExp fs _)

theorem binaryOperator_computes {op : Token} {code : List Word} {left right : Machine P → Except Vm.Stop Value}
    (interns : Interns P) (operator : isBinary op = true) (operand : LeftValue P frame size low code op c left)
    (steady : ∀ s s', Above frame size low s s' → right s' = right s) (wider : Wider c.func c'.func)
    (computes : Computes P frame size c.func.freeRegister c.func.code c' right) :
    Makes (onExp fun e => Func.binaryOperator P.toArithmetic op c.func.curExp e) c' (fun _ c'' =>
      Computes P frame size low code c'' (fun s => do
        let a ← left s
        let b ← right s
        binary P op a b)) := by
  have waits := Func.Waits.frame wider.number operand.waits
  have valid := Waits.grow operand.waits operand.valid wider
  have locals : c'.func.numActiveLocalVars ≤ low := wider.number.trans_le operand.locals
  refine Makes.roomy fun roomy => ?_
  refine (Makes.onExp (binaryOperator_emits frame size interns operator waits valid
    operand.concat computes.ready locals)).mono ?_
  rintro _ c'' wider' ⟨fs, same, ready, final⟩
  refine computes_set fs same ready ?_
  have first := (operand.simulates.bind (fun a s => do
    let b ← right s
    binary P op a b) ?_).wider (wider.trans (wider'.described same))
  · have upper : c.func.freeRegister ≤ c'.func.maxStackSize.val :=
      (Temps.le computes.ready.temps computes.ready.valid).trans roomy.registers
    have second := (computes.simulates.beside (Waits.there waits valid locals upper)
      (fun s s' above => Waits.steady waits locals above) (fun a b _ => binary P op a b) fun _ _ _ _ _ => rfl).mono
        (Func.Waits.le waits)
    rw [Waits.denoted operand.waits c.func c'.func] at first
    exact first.trans ((second.wider (wider'.described same)).trans final)
  · intro a s s' above
    rw [steady s s' above]

-- the table stays in its register while the key is computed
structure Held (P : Platform) (frame : Frame) (size low : Nat) (code : List Word) (r : Nat) (fs : Func)
    (value : Machine P → Except Vm.Stop Value) : Prop where
  slot : Slot fs low fs.freeRegister r
  locals : fs.numActiveLocalVars ≤ low
  simulates : Simulates frame size code fs.code low fs value fun s => s.slot (frame.base + r)

theorem exp2anyreg_computes {code : List Word} {value : Machine P → Except Vm.Stop Value}
    (computes : Computes P frame size low code c value) :
    Makes (onExpReg Func.exp2anyreg) c fun r c' => c'.func.curExp = .nonreloc r ∧
      Held P frame size low code r c'.func value := by
  refine (Makes.onExpReg (exp2anyreg_emits P frame size computes.ready)).mono ?_
  rintro r c' wider ⟨fs, same, is, slot, moves⟩
  have locals : c'.func.numActiveLocalVars ≤ low := wider.number.trans_le computes.ready.locals
  refine ⟨is, ?_, locals, ?_⟩
  · rw [same]
    exact slot
  · have simulates := (computes.simulates.wider (wider.described same)).trans moves
    rw [same]
    exact simulates.wider (wider_setExp fs _)

theorem exp2val_computes {code : List Word} {value : Machine P → Except Vm.Stop Value}
    (computes : Computes P frame size low code c value) :
    Makes (onExp Func.exp2val) c fun _ c' => Computes P frame size low code c' value := by
  refine (Makes.onExp (dischargevars_emits P frame size computes.ready)).mono ?_
  rintro _ c' wider ⟨fs, same, ready, -, moves⟩
  exact computes_set fs same ready ((computes.simulates.wider (wider.described same)).trans moves)

-- `fs` is what the key is described in
theorem indexed_computes {f : ExpDesc → FuncM ExpDesc} {code : List Word} {t : Nat}
    {table key : Machine P → Except Vm.Stop Value} {fs : Func} (run : f c.func.curExp = Func.indexed (.nonreloc t) e)
    (held : Held P frame size low code t fs table) (steady : ∀ s s', Above frame size low s s' → key s' = key s)
    (wider : Wider fs c.func) (ready : Ready fs.freeRegister c.func e)
    (simulates : Simulates frame size fs.code (fixed c.func e) fs.freeRegister c.func key (denote frame c.func e)) :
    Makes (onExp f) c (fun _ c' => Computes P frame size low code c' (fun s => do
      let a ← table s
      let b ← key s
      index s a b)) := by
  have slot : Slot c.func low fs.freeRegister t := by
    unfold Slot
    rw [wider.number]
    exact held.slot
  have locals : c.func.numActiveLocalVars ≤ low := wider.number.trans_le held.locals
  have below : t < fs.freeRegister := by
    have := held.locals
    rcases held.slot with ⟨small, same⟩ | ⟨same, next⟩ <;> omega
  refine Makes.roomy fun roomy => ?_
  have upper : fs.freeRegister ≤ c.func.maxStackSize.val := (Temps.le ready.temps ready.valid).trans roomy.registers
  have inside : t < c.func.maxStackSize.val := Slot.lt slot locals upper
  have emits := indexed_emits P frame size slot ready locals
  rw [← run] at emits
  refine (Makes.onExp emits).mono ?_
  rintro _ c' wider' ⟨fs', same, ready', final⟩
  refine computes_set fs' same ready' ?_
  have first := (held.simulates.bind (fun a s => do
    let b ← key s
    index s a b) ?_).wider (wider.trans (wider'.described same))
  · have second := (simulates.beside (w := fun s : Machine P => s.slot (frame.base + t)) ?_ (fun s s' above => above.slot below)
      (fun a b s => index s a b) fun a b s s' above => index_steady above a b).mono (Slot.le slot)
    · exact first.trans ((second.wider (wider'.described same)).trans final)
    · intro extended s room
      have := extended.registers
      exact slot_inside (by omega)
  · intro a s s' above
    rw [steady s s' above]
    exact bind_congr fun b => index_steady above a b

variable (frame size) in
theorem genNode_computes (interns : Interns P) (arithmetic : env.toArithmetic = P.toArithmetic) (node : Node)
    (is : isExpression env node = true) (c : Compiler) (inScope : Scoped env names c.func)
    (locals : c.func.numActiveLocalVars ≤ c.func.freeRegister) :
    Makes (genNode env node) c fun _ c' => Computes P frame size c.func.freeRegister c.func.code c'
      fun s => evaluate env names frame.base s node := by
  have known : names.length ≤ c.func.freeRegister := inScope.count.trans_le locals
  cases node with
  | literal token =>
      rw [genNode]
      obtain ⟨constant, found⟩ := Option.isSome_iff_exists.mp is
      simp only [evaluate, found]
      exact literal_computes found locals
  | identifier token =>
      rw [genNode]
      simp only [evaluate]
      exact genIdentifier_computes inScope locals token
  | groupedExpression openToken e closeToken =>
      rw [genNode]
      simp only [evaluate]
      exact genNode_computes interns arithmetic e is c inScope locals
  | unaryExpression op e =>
      simp only [isExpression, Bool.and_eq_true] at is
      obtain ⟨operator, is⟩ := is
      rw [genNode, arithmetic]
      simp only [evaluate]
      refine .bind (genNode_computes interns arithmetic e is c inScope locals) ?_
      rintro _ c₁ - computes
      refine computes.next (fun v s => unary P op s v) ?_ (unaryOperator_emits operator computes.ready)
      intro v s s' above
      unfold unary
      rw [above.lengthOf]
  | binaryExpression op l r =>
      simp only [isExpression, Bool.and_eq_true] at is
      obtain ⟨⟨operator, isLeft⟩, isRight⟩ := is
      rw [genNode, arithmetic]
      simp only [evaluate]
      refine .bind (genNode_computes interns arithmetic l isLeft c inScope locals) ?_
      rintro _ c₁ wider₁ left
      refine .bind (leftOperand_computes operator left) ?_
      rintro _ c₂ wider₂ left
      have inScope₂ := (inScope.wider wider₁).wider wider₂
      have mid := Func.Waits.le left.waits
      refine .getFunc (.bind (genNode_computes interns arithmetic r isRight c₂ inScope₂ (left.locals.trans mid)) ?_)
      rintro _ c₃ wider₃ right
      exact binaryOperator_computes interns operator left (fun s s' above => evaluate_steady known above r) wider₃ right
  | fieldAccess e field separator =>
      simp only [isExpression, Bool.and_eq_true, Bool.not_eq_true'] at is
      obtain ⟨dot, is⟩ := is
      rw [genNode]
      simp only [evaluate]
      refine .bind (genNode_computes interns arithmetic e is c inScope locals) ?_
      rintro _ c₁ wider₁ computes
      rw [genField, dot, if_neg Bool.false_ne_true]
      refine .bind (exp2anyreg_computes computes) ?_
      rintro r c₂ wider₂ ⟨is₂, held⟩
      refine .bind (genName_makes field) ?_
      rintro k c₃ wider₃ ⟨same₃, found⟩
      have is₃ : c₃.func.curExp = .nonreloc r := by
        rw [same₃]
        exact is₂
      have ready : Ready c₂.func.freeRegister c₃.func (.constantIndex k) := by
        refine ⟨?_, ⟨_, found⟩, wider₃.number.trans_le (held.locals.trans (Slot.le held.slot))⟩
        show c₃.func.freeRegister = c₂.func.freeRegister
        rw [same₃]
      have code : c₃.func.code = c₂.func.code := by rw [same₃]
      have key : Simulates frame size c₂.func.code (fixed c₃.func (.constantIndex k)) c₂.func.freeRegister c₃.func
          (fun _ : Machine P => .ok (.string (P.intern (field.slice env.source))))
          (denote frame c₃.func (.constantIndex k)) := by
        show Simulates frame size c₂.func.code c₃.func.code _ _ _ _
        rw [code]
        refine (Simulates.refl _).congr fun extended s _ => ?_
        rw [denote_constant (getElem?_of_initial found extended.constants)]
      refine indexed_computes ?_ held (fun _ _ _ => rfl) wider₃ ready key
      rw [is₃]
  | indexAccess e k openToken closeToken =>
      simp only [isExpression, Bool.and_eq_true] at is
      rw [genNode]
      simp only [evaluate]
      refine .bind (genNode_computes interns arithmetic e is.1 c inScope locals) ?_
      rintro _ c₁ wider₁ computes
      refine .bind (exp2anyreg_computes computes) ?_
      rintro r c₂ wider₂ ⟨is₂, held⟩
      refine .getFunc (.bind (Makes.setExp .void) ?_)
      rintro _ c₃ wider₃ same₃
      have inScope₃ := ((inScope.wider wider₁).wider wider₂).wider wider₃
      have free : c₃.func.freeRegister = c₂.func.freeRegister := by rw [same₃]
      have code : c₃.func.code = c₂.func.code := by rw [same₃]
      have locals₃ : c₃.func.numActiveLocalVars ≤ c₃.func.freeRegister := by
        rw [free, wider₃.number]
        exact held.locals.trans (Slot.le held.slot)
      refine .bind (genNode_computes interns arithmetic k is.2 c₃ inScope₃ locals₃) ?_
      rintro _ c₄ wider₄ key
      refine .bind (exp2val_computes key) ?_
      rintro _ c₅ wider₅ key
      rw [free, code] at key
      refine indexed_computes ?_ held ?_ ((wider₃.trans wider₄).trans wider₅) key.ready key.simulates
      · rw [is₂]
      · exact fun s s' above => evaluate_steady known above k
  | _ => cases is

end Zua.Run
