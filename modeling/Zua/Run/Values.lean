import Zua.Run.Expressions
import Zua.Vm.Paths

/-!
# The values of expressions

Running the code of an expression, and of a list of expressions, puts the values into the next free registers.
-/

namespace Zua.Run
open Code Object Compile Vm Syntax
open Memory (Constant)
open Zua.Lex (Token ch)

variable {P : Platform} {frame : Frame} {size low mid : Nat} {fs fs' : Func} {e : ExpDesc} {c c' : Compiler} {env : Env}
  {names : List (List UInt8)} {code words : List Word}

/-! ## Running what simulates -/

-- no registers come or go, and without instructions nothing happens
structure Stays (is : List Instruction) (s : Machine P) (result : Except Vm.Stop (Machine P)) : Prop where
  length : ∀ s', result = .ok s' → s'.stack.length = s.stack.length
  idle : is = [] → result = .ok s

-- the words are behind the code, and running them ends as `Q` says, for what was before and what comes out
def Behaves (P : Platform) (frame : Frame) (size low : Nat) (code words : List Word) (fs : Func)
    (Q : Machine P → Except Vm.Stop (Machine P) → Prop) : Prop :=
  ∃ is, words = code ++ is.map .instr ∧ (Extends frame size fs → ∀ host s pc, Located frame pc is →
    Starts frame size code low s → ∃ result, Leads host frame s pc (pc + is.length) result ∧ Stays is s result ∧ Q s result)

namespace Behaves

variable {Q R : Machine P → Except Vm.Stop (Machine P) → Prop} {more : List Word}

theorem mono (behaves : Behaves P frame size low code words fs Q)
    (weaker : Extends frame size fs → ∀ s result, Starts frame size code low s → Q s result → R s result) :
    Behaves P frame size low code words fs R := by
  obtain ⟨is, same, holds⟩ := behaves
  refine ⟨is, same, fun extended host s pc located starts => ?_⟩
  obtain ⟨result, leads, stays, h⟩ := holds extended host s pc located starts
  exact ⟨result, leads, stays, weaker extended s result starts h⟩

theorem lower (behaves : Behaves P frame size mid code words fs Q) (le : low ≤ mid) :
    Behaves P frame size low code words fs Q := by
  obtain ⟨is, same, holds⟩ := behaves
  exact ⟨is, same, fun extended host s pc located starts => holds extended host s pc located (starts.mono le)⟩

theorem wider (behaves : Behaves P frame size low code words fs Q) (wider : Wider fs fs') :
    Behaves P frame size low code words fs' Q := by
  obtain ⟨is, same, holds⟩ := behaves
  exact ⟨is, same, fun extended => holds (extended.narrow wider)⟩

-- only the constants and the registers of the function matter
theorem limits (behaves : Behaves P frame size low code words fs Q) (constants : fs'.constants = fs.constants)
    (registers : fs'.maxStackSize = fs.maxStackSize) : Behaves P frame size low code words fs' Q := by
  obtain ⟨is, same, holds⟩ := behaves
  exact ⟨is, same, fun extended => holds ⟨constants ▸ extended.constants, registers ▸ extended.registers⟩⟩

theorem trans (first : Behaves P frame size low code words fs Q) (second : Behaves P frame size low words more fs R) :
    Behaves P frame size low code more fs fun s result =>
      (∃ e, result = .error e ∧ Q s (.error e)) ∨ ∃ s', Q s (.ok s') ∧ R s' result := by
  obtain ⟨is, rfl, holds⟩ := first
  obtain ⟨js, rfl, holds'⟩ := second
  refine ⟨is ++ js, by rw [List.map_append, List.append_assoc], fun extended host s pc located starts => ?_⟩
  obtain ⟨here, there⟩ := located.append
  obtain ⟨result, leads, stays, h⟩ := holds extended host s pc here starts
  cases result with
  | error e =>
      refine ⟨.error e, leads.fails, ⟨?_, fun none => stays.idle (List.append_eq_nil_iff.mp none).1⟩, .inl ⟨e, rfl, h⟩⟩
      intro s' wrong
      cases wrong
  | ok t =>
      have starts' : Starts frame size (code ++ is.map .instr) low t := by
        refine ⟨stays.length t rfl ▸ starts.room, fun none => ?_⟩
        obtain ⟨rfl, nothing⟩ := List.append_eq_nil_iff.mp none
        cases stays.idle (List.map_eq_nil_iff.mp nothing)
        exact starts.fresh rfl
      obtain ⟨result, leads', stays', h'⟩ := holds' extended host t _ there starts'
      refine ⟨result, ?_, ⟨fun s' is => (stays'.length s' is).trans (stays.length t rfl), fun none => ?_⟩, .inr ⟨t, h, h'⟩⟩
      · rw [List.length_append, ← Nat.add_assoc]
        exact leads.trans leads'
      · obtain ⟨rfl, rfl⟩ := List.append_eq_nil_iff.mp none
        cases stays.idle rfl
        exact stays'.idle rfl

end Behaves

-- the state in which `g` is the value, when there is one
def Ends (frame : Frame) (size low : Nat) {β : Type} (value : Machine P → Except Vm.Stop β)
    (g : β → Machine P → Prop) (s : Machine P) (result : Except Vm.Stop (Machine P)) : Prop :=
  match value s with
  | .ok v => ∃ s', result = .ok s' ∧ Above frame size low s s' ∧ g v s'
  | .error e => result = .error e

theorem Simulates.behaves {β : Type} {f g : Machine P → Except Vm.Stop β}
    (simulates : Simulates frame size code words low fs f g)
    (there : Extends frame size fs → ∀ s, frame.base + size ≤ s.stack.length → ∃ v, g s = .ok v) :
    Behaves P frame size low code words fs (Ends frame size low f fun v s => g s = .ok v) := by
  obtain ⟨is, same, holds⟩ := simulates
  refine ⟨is, same, fun extended host s pc located starts => ?_⟩
  obtain ⟨loads, runs⟩ := holds extended
  obtain ⟨equal, above⟩ := runs s starts
  refine ⟨_, .loads located loads, ⟨fun s' run => (above s' run).length, ?_⟩, ?_⟩
  · rintro rfl
    rfl
  unfold Ends
  rw [equal]
  cases run : Vm.runs frame is s with
  | error e => rfl
  | ok s' =>
      have kept := above s' run
      obtain ⟨v, value⟩ := there extended s' (kept.length ▸ starts.room)
      simp only [ok_bind, value]
      exact ⟨s', rfl, kept, value⟩

/-! ## One expression -/

theorem nextReg_computes {value : Machine P → Except Vm.Stop Value} (computes : Computes P frame size low code c value) :
    Makes nextReg c fun r c' => r = low ∧ c'.func.freeRegister = low + 1 ∧
      Simulates frame size code c'.func.code low c'.func value fun s => s.slot (frame.base + low) := by
  refine (Makes.onExpReg (exp2nextreg_emits P frame size computes.ready)).mono ?_
  rintro r c' wider ⟨fs, same, equal, free, moves⟩
  obtain rfl : r = low := congrArg Prod.fst equal
  have is : c'.func.curExp = .nonreloc r := congrArg Prod.snd equal
  have simulates := (computes.simulates.wider (wider.described same)).trans moves
  refine ⟨rfl, ?_, ?_⟩
  · rw [same]
    exact free
  · rw [same]
    exact simulates.wider (wider_setExp fs _)

variable (frame size names) in
theorem genNode_nextReg_correct (interns : Interns P) (arithmetic : env.toArithmetic = P.toArithmetic) (node : Node)
    (is : isExpression env node = true) (c : Compiler) (inScope : Scoped env names c.func)
    (locals : c.func.numActiveLocalVars ≤ c.func.freeRegister) (roomy : Roomy c.func) :
    Sat Full (do genNode env node; nextReg) c fun r c' =>
      r = c.func.freeRegister ∧ c'.func.freeRegister = c.func.freeRegister + 1 ∧
        c'.func.numActiveLocalVars = c.func.numActiveLocalVars ∧
        Behaves P frame size r c.func.code c'.func.code c'.func (Ends frame size r
          (fun s : Machine P => evaluate env names frame.base s node) fun v s => s.slot (frame.base + r) = .ok v) := by
  have makes : Makes (do genNode env node; nextReg) c fun r c' =>
      r = c.func.freeRegister ∧ c'.func.freeRegister = c.func.freeRegister + 1 ∧
        Simulates frame size c.func.code c'.func.code c.func.freeRegister c'.func
          (fun s : Machine P => evaluate env names frame.base s node) fun s => s.slot (frame.base + c.func.freeRegister) := by
    refine .bind (genNode_computes frame size interns arithmetic node is c inScope locals) ?_
    rintro _ c₁ - computes
    exact nextReg_computes computes
  refine (makes roomy).mono ?_
  rintro _ c' ⟨roomy', wider, rfl, free, simulates⟩
  refine ⟨rfl, free, wider.number, simulates.behaves fun extended s room => ?_⟩
  have := roomy'.registers
  have := extended.registers
  exact slot_inside (by omega)

def plainFrame : Frame := ⟨{ proto := { maxStackSize := 2 } }, 0⟩

def negatedName : Node := .unaryExpression ⟨.keywordNot, 0, 3, 1, none⟩ (.identifier ⟨.name, 4, 5, 1, none⟩)

theorem scoped_empty (env : Env) : Scoped env [] {} := ⟨rfl, fun n inside => absurd inside (Nat.not_lt_zero n)⟩

theorem roomy_empty : Roomy {} := ⟨Nat.zero_le _, Nat.zero_le _⟩

theorem genNode_nextReg_not :
    Sat Full (do genNode (plainEnv (Lex.bytes "not x")) negatedName; nextReg) {} fun r c' =>
      r = 0 ∧ c'.func.freeRegister = 0 + 1 ∧ c'.func.numActiveLocalVars = 0 ∧
        Behaves Platform.plain plainFrame 2 r [] c'.func.code c'.func (Ends plainFrame 2 r
          (fun s : Machine Platform.plain => evaluate (plainEnv (Lex.bytes "not x")) [] plainFrame.base s negatedName)
          fun v s => s.slot (plainFrame.base + r) = .ok v) :=
  genNode_nextReg_correct plainFrame 2 [] (fun _ => rfl) rfl negatedName (by decide) {} (scoped_empty _) le_rfl roomy_empty

/-! ## Lists of expressions -/

def evaluateAll (env : Env) (names : List (List UInt8)) (base : Nat) (s : Machine P) : List Node → Except Vm.Stop (List Value)
  | [] => .ok []
  | node :: rest => do
      let v ← evaluate env names base s node
      let vs ← evaluateAll env names base s rest
      return v :: vs

-- the values of `n` slots
def slots (s : Machine P) (start : Nat) : Nat → Except Vm.Stop (List Value)
  | 0 => .ok []
  | n + 1 => do
      let v ← s.slot start
      let vs ← slots s (start + 1) n
      return v :: vs

theorem slots_inside {s : Machine P} {start n : Nat} (inside : start + n ≤ s.stack.length) : ∃ vs, slots s start n = .ok vs := by
  induction n generalizing start with
  | zero => exact ⟨[], rfl⟩
  | succ n ih =>
      obtain ⟨v, here⟩ := slot_inside (s := s) (k := start) (by omega)
      have rest : start + 1 + n ≤ s.stack.length := by omega
      obtain ⟨vs, above⟩ := ih rest
      refine ⟨v :: vs, ?_⟩
      simp only [slots, here, above, ok_bind]
      rfl

theorem slots_steady {s s' : Machine P} {n : Nat} (above : Above frame size mid s s') (le : low + n ≤ mid) :
    slots s' (frame.base + low) n = slots s (frame.base + low) n := by
  induction n generalizing low with
  | zero => rfl
  | succ n ih =>
      have rest : low + 1 + n ≤ mid := by omega
      simp only [slots, above.slot (show low < mid by omega), Nat.add_assoc, ih rest]

theorem slots_length {s : Machine P} {start n : Nat} {vs : List Value} (h : slots s start n = .ok vs) : vs.length = n := by
  induction n generalizing start vs with
  | zero =>
      cases h
      rfl
  | succ n ih =>
      obtain ⟨v, -, rest⟩ := bind_ok.mp h
      obtain ⟨vs', above, ⟨⟩⟩ := bind_ok.mp rest
      rw [List.length_cons, ih above]

theorem slots_get {s : Machine P} {start n : Nat} {vs : List Value} (h : slots s start n = .ok vs) {i : Nat} (lt : i < n) :
    s.slot (start + i) = .ok (vs.getD i .nil) := by
  induction n generalizing start vs i with
  | zero => omega
  | succ n ih =>
      obtain ⟨v, here, rest⟩ := bind_ok.mp h
      obtain ⟨vs', above, ⟨⟩⟩ := bind_ok.mp rest
      cases i with
      | zero => exact here
      | succ i =>
          rw [show start + (i + 1) = start + 1 + i by omega]
          exact ih above (Nat.lt_of_succ_lt_succ lt)

theorem evaluateAll_length {s : Machine P} {nodes : List Node} {vs : List Value} {base : Nat}
    (h : evaluateAll env names base s nodes = .ok vs) : vs.length = nodes.length := by
  induction nodes generalizing vs with
  | nil =>
      cases h
      rfl
  | cons node rest ih =>
      obtain ⟨v, -, h'⟩ := bind_ok.mp h
      obtain ⟨vs', others, ⟨⟩⟩ := bind_ok.mp h'
      rw [List.length_cons, List.length_cons, ih others]

theorem evaluateAll_steady {s s' : Machine P} (le : names.length ≤ low) (above : Above frame size low s s')
    (nodes : List Node) : evaluateAll env names frame.base s' nodes = evaluateAll env names frame.base s nodes := by
  induction nodes with
  | nil => rfl
  | cons node rest ih => simp only [evaluateAll, evaluate_steady le above node, ih]

-- the values but the last are in the registers from `low` on, and the last one is described
structure ComputesAll (P : Platform) (frame : Frame) (size low n : Nat) (code : List Word) (c : Compiler)
    (values : Machine P → Except Vm.Stop (List Value)) : Prop where
  ready : Ready (low + n) c.func c.func.curExp
  simulates : Simulates frame size code (fixed c.func c.func.curExp) low c.func values fun s => do
    let vs ← slots s (frame.base + low) n
    let v ← denote frame c.func c.func.curExp s
    return vs ++ [v]

variable (frame size) in
theorem genExpList1_computes (interns : Interns P) (arithmetic : env.toArithmetic = P.toArithmetic) (node : Node)
    (rest : List Node) (all : ∀ e ∈ node :: rest, isExpression env e = true) (c : Compiler)
    (inScope : Scoped env names c.func) (locals : c.func.numActiveLocalVars ≤ c.func.freeRegister) :
    Makes (genExpList1 env (node :: rest)) c fun _ c' =>
      ComputesAll P frame size c.func.freeRegister rest.length c.func.code c'
        fun s => evaluateAll env names frame.base s (node :: rest) := by
  induction rest generalizing node c with
  | nil =>
      rw [genExpList1]
      refine .bind (genNode_computes frame size interns arithmetic node (all node List.mem_cons_self) c inScope locals) ?_
      rintro _ c₁ - computes
      refine .pure ⟨computes.ready, ?_⟩
      simp only [evaluateAll, ok_bind]
      exact computes.simulates.bind (fun v _ => .ok [v]) fun _ _ _ _ => rfl
  | cons next rest ih =>
      have known : names.length ≤ c.func.freeRegister := inScope.count.trans_le locals
      rw [genExpList1]
      refine .bind (genNode_computes frame size interns arithmetic node (all node List.mem_cons_self) c inScope locals) ?_
      rintro _ c₁ wider₁ computes
      rw [if_neg (by simp)]
      refine .bind (nextReg_computes computes) ?_
      rintro _ c₂ wider₂ ⟨rfl, free, first⟩
      have wider := wider₁.trans wider₂
      have locals₂ : c₂.func.numActiveLocalVars ≤ c₂.func.freeRegister := by
        rw [wider.number, free]
        exact Nat.le_succ_of_le locals
      refine Makes.roomy fun roomy => ?_
      refine (ih next (fun e member => all e (List.mem_cons_of_mem _ member)) c₂ (inScope.wider wider) locals₂).mono ?_
      rintro _ c₃ wider₃ ⟨ready, simulates⟩
      rw [free] at ready simulates
      have count : c.func.freeRegister + 1 + rest.length = c.func.freeRegister + (next :: rest).length := by
        rw [List.length_cons]
        omega
      refine ⟨count ▸ ready, ?_⟩
      have start := (first.bind (fun v s => do
        let vs ← evaluateAll env names frame.base s (next :: rest)
        return v :: vs) ?_).wider wider₃
      · have others := (simulates.beside (w := fun s : Machine P => s.slot (frame.base + c.func.freeRegister)) ?_
          (fun s s' above => above.slot (Nat.lt_succ_self _)) (fun v vs _ => .ok (v :: vs)) fun _ _ _ _ _ => rfl).mono
            (Nat.le_succ _)
        · refine (start.trans others).congr fun _ s _ => ?_
          simp only [List.length_cons, slots, bind_assoc, pure_bind, ← Nat.add_assoc]
          rfl
        · intro extended s room
          have := roomy.registers
          have := (extended.narrow wider₃).registers
          exact slot_inside (by omega)
      · intro v s s' above
        rw [evaluateAll_steady known above]

end Zua.Run
