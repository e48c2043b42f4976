import Zua.Run.Values
import Zua.Vm.Entry

/-!
# Local statements

The values are loaded into the registers of the new variables, and what is missing is nil.
-/

namespace Zua.Run
open Code Object Compile Vm Syntax
open Memory (Constant)
open Zua.Lex (Token ch)

variable {P : Platform} {frame : Frame} {size low mid : Nat} {fs fs' : Func} {e : ExpDesc} {c c' : Compiler} {env : Env}
  {names : List (List UInt8)} {code words : List Word}

/-! ## Missing values -/

theorem setNils_inside {s : Machine P} {start n : Nat} (inside : start + n ≤ s.stack.length) :
    ∃ s', s.setNils start n = .ok s' ∧ s'.stack.length = s.stack.length := by
  induction n generalizing s start with
  | zero => exact ⟨s, rfl, rfl⟩
  | succ n ih =>
      have room : start < s.stack.length := by omega
      have rest : start + 1 + n ≤ (s.stack.set start .nil).length := by
        rw [List.length_set]
        omega
      obtain ⟨s', filled, length⟩ := ih (s := { s with stack := s.stack.set start .nil }) rest
      refine ⟨s', ?_, length.trans List.length_set⟩
      rw [Machine.setNils, setSlot_inside room]
      exact filled

theorem slot_of_get {s : Machine P} {k : Nat} {v : Value} (h : s.stack[k]? = some v) : s.slot k = .ok v := by
  unfold Machine.slot
  rw [h]

-- `n` registers from `reg` on are nil
def Nils (frame : Frame) (size reg n : Nat) (s : Machine P) (result : Except Vm.Stop (Machine P)) : Prop :=
  ∃ s', result = .ok s' ∧ Above frame size reg s s' ∧ ∀ r, reg ≤ r → r < reg + n → s'.slot (frame.base + r) = .ok .nil

theorem idle_behaves {Q : Machine P → Except Vm.Stop (Machine P) → Prop}
    (holds : Extends frame size fs → ∀ s, Starts frame size code low s → Q s (.ok s)) :
    Behaves P frame size low code code fs Q := by
  refine ⟨[], (List.append_nil code).symm, fun extended host s pc _ starts => ?_⟩
  refine ⟨.ok s, .refl s pc, ⟨?_, fun _ => rfl⟩, holds extended s starts⟩
  rintro _ ⟨⟩
  rfl

variable (P frame size) in
theorem fillNil_emits (n : Nat) :
    Emits (Func.fillNil n) fs fun _ fs' => fs'.freeRegister = fs.freeRegister + n ∧
      Behaves P frame size fs.freeRegister fs.code fs'.code fs' (Nils frame size fs.freeRegister n) := by
  unfold Func.fillNil
  split
  · rename_i none
    subst none
    refine .pure ⟨rfl, idle_behaves fun _ s _ => ⟨s, rfl, .refl s, ?_⟩⟩
    intro r above below
    omega
  rename_i some
  refine Emits.get fun _ => ?_
  refine .bind (reserveregs_emits n) ?_
  rintro _ fs₁ wider₁ ⟨same, room⟩
  have free : fs₁.freeRegister = fs.freeRegister + n := by rw [same]
  have code : fs₁.code = fs.code := by rw [same]
  refine Emits.get fun _ => ?_
  rw [if_neg some]
  split
  · rename_i first
    refine .pure ⟨free, ?_⟩
    rw [code]
    refine idle_behaves fun extended s starts => ⟨s, rfl, .refl s, ?_⟩
    intro r above below
    have none : fs.code = [] := by
      rw [← code]
      exact List.eq_nil_of_length_eq_zero first.1
    have := extended.registers
    exact starts.fresh none r above (by omega)
  · have limit := fs₁.maxStackSize.lt
    have small : Code.maxStackSize = 250 := rfl
    refine .bind (emitInstruction_emits _) ?_
    rintro index fs₂ wider₂ ⟨-, rfl⟩
    refine .pure ⟨free, ?_⟩
    show Behaves P frame size fs.freeRegister fs.code (fs₁.code ++ _) _ _
    rw [code]
    refine ⟨[_], rfl, fun extended host s pc located starts => ?_⟩
    have fits : (⟨.loadnil, fs.freeRegister, fs.freeRegister + n - 1, 0⟩ : Instruction).Fits := by
      refine ⟨?_, ?_, Nat.succ_pos 511⟩
      · show fs.freeRegister < 256
        omega
      · show fs.freeRegister + n - 1 < 512
        omega
    have upper : fs₁.maxStackSize.val ≤ size := extended.registers
    have inside := starts.room
    obtain ⟨s', filled, length⟩ := setNils_inside (show frame.base + fs.freeRegister + n ≤ s.stack.length by omega)
    obtain ⟨rest, slots⟩ := setNils_ok filled
    refine ⟨.ok s', .exec (located.read fits) fun execute => ?_, ⟨?_, fun wrong => by cases wrong⟩, s', rfl, ?_, ?_⟩
    · simp only [exec, if_neg (show ¬(fs.freeRegister + n - 1 + 1 < fs.freeRegister ∨ fs.freeRegister + n - 1 = 511) by omega),
        show fs.freeRegister + n - 1 + 1 - fs.freeRegister = n by omega, filled]
      rfl
    · rintro _ ⟨⟩
      exact length
    · refine ⟨rest, length, fun k outside => ?_⟩
      rw [slots k, if_neg (by omega)]
    · intro r above below
      refine slot_of_get ?_
      rw [slots (frame.base + r), if_pos (by omega)]

/-! ## Adjusting the values -/

theorem slots_concat (s : Machine P) (start n : Nat) : slots s start (n + 1) = (do
    let vs ← slots s start n
    let v ← s.slot (start + n)
    return vs ++ [v]) := by
  induction n generalizing start with
  | zero => simp only [slots, ok_bind, Nat.add_zero, List.nil_append]
  | succ n ih =>
      rw [slots, ih (start + 1)]
      simp only [slots, bind_assoc, pure_bind, List.cons_append, show start + 1 + n = start + (n + 1) by omega]

variable (P frame size) in
theorem adjustAssign_emits (numVars numValues : Nat) (ready : Ready low fs e) :
    Emits (Func.adjustAssign numVars numValues e) fs fun _ fs' => ∃ fs₁, Wider fs fs₁ ∧ Wider fs₁ fs' ∧ low + 1 ≤ fs₁.maxStackSize.val ∧
      fs'.freeRegister = low + 1 + (numVars - numValues) ∧ Moves P frame size low fs e fs₁ (.nonreloc low) ∧
        Behaves P frame size (low + 1) fs₁.code fs'.code fs' (Nils frame size (low + 1) (numVars - numValues)) := by
  have valid := ready.valid
  have single : e.hasmultret = false := by
    cases e with
    | call | vararg => exact valid.elim
    | _ => rfl
  have value : Func.exp2nextregUnlessVoid e = Func.exp2nextreg e >>= fun d => pure d.2 := by
    cases e with
    | void => exact valid.elim
    | _ => rfl
  unfold Func.adjustAssign
  rw [single, if_neg Bool.false_ne_true, value, bind_assoc]
  refine .bind (exp2nextreg_emits P frame size ready) ?_
  rintro _ fs₁ wider₁ ⟨rfl, free, moves⟩
  rw [pure_bind]
  refine Emits.roomy fun roomy => ?_
  refine .bind (fillNil_emits P frame size (numVars - numValues)) ?_
  rintro _ fs₂ wider₂ ⟨free', nils⟩
  rw [free] at free' nils
  exact .pure ⟨fs₁, wider₁, wider₂, free ▸ roomy.registers, free', moves, nils⟩

-- the first `numVars` of the values, filled up with nil, are in the registers from `low` on
def Assigned (frame : Frame) (low numVars : Nat) (vs : List Value) (s : Machine P) : Prop :=
  ∀ i < numVars, s.slot (frame.base + (low + i)) = .ok (vs.getD i .nil)

theorem values_assigned {n numVars : Nat} {values : Machine P → Except Vm.Stop (List Value)} {more : List Word}
    (length : ∀ s vs, values s = .ok vs → vs.length = n)
    (simulates : Simulates frame size code words low fs values fun s => slots s (frame.base + low) n)
    (upper : low + n ≤ fs.maxStackSize.val) (wider : Wider fs fs')
    (nils : Behaves P frame size (low + n) words more fs' (Nils frame size (low + n) (numVars - n))) :
    Behaves P frame size low code more fs' (Ends frame size low values (Assigned frame low numVars)) := by
  have loaded := (simulates.wider wider).behaves fun extended s room => by
    have inside : frame.base + low + n ≤ s.stack.length := by
      have := wider.registers
      have := extended.registers
      omega
    exact slots_inside inside
  refine (loaded.trans (nils.lower (Nat.le_add_right low n))).mono fun extended s result starts h => ?_
  unfold Ends at h ⊢
  have total := length s
  cases value : values s with
  | error e =>
      simp only [value] at h ⊢
      rcases h with ⟨e', rfl, equal⟩ | ⟨s', wrong, -⟩
      · exact equal
      · cases wrong
  | ok vs =>
      simp only [value] at h ⊢
      rcases h with ⟨e', -, s', wrong, -⟩ | ⟨s', ⟨_, ⟨⟩, above, held⟩, t, rfl, above', empty⟩
      · cases wrong
      · refine ⟨t, rfl, above.trans (above'.mono (Nat.le_add_right low n)), fun i lt => ?_⟩
        by_cases given : i < n
        · rw [above'.slot (Nat.add_lt_add_left given low), ← Nat.add_assoc]
          exact slots_get held given
        · rw [empty (low + i) (by omega) (by omega), List.getD_eq_getElem?_getD, List.getElem?_eq_none]
          · rfl
          · rw [total vs value]
            omega

/-! ## The statement -/

theorem declareLocals_scoped (tokens : List Token) (index : Nat) (inScope : Scoped env names c.func) :
    Sat (· = .localLimit) (declareLocals tokens index) c fun _ c' => Scoped env names c'.func ∧
      c'.func = { c.func with activeLocalVars := c'.func.activeLocalVars, localVars := c'.func.localVars } := by
  induction tokens generalizing c index with
  | nil => exact Sat.pure ⟨inScope, rfl⟩
  | cons token tokens ih =>
      rw [declareLocals]
      refine Sat.bind (Sat.mono (Q := fun _ c' => Scoped env names c'.func ∧
        c'.func = { c.func with activeLocalVars := c'.func.activeLocalVars, localVars := c'.func.localVars })
        (sat_onFunc ?_) ?_)
      · refine Sat.bind (Sat.get ?_)
        split
        · exact Sat.throw rfl
        refine Sat.set ⟨⟨inScope.count, fun n inside => ?_⟩, rfl⟩
        obtain ⟨name, found, named⟩ := inScope.each n inside
        refine ⟨name, ?_, named⟩
        have other : c.func.numActiveLocalVars + index ≠ n := by
          have := inScope.count
          omega
        unfold Func.getlocvar at found ⊢
        obtain ⟨k, active, located⟩ := Option.bind_eq_some_iff.mp found
        rw [List.getElem?_set_ne other, active]
        exact (List.getElem?_append_left (List.getElem?_eq_some_iff.mp located).1).trans located
      · rintro _ c₁ ⟨inScope₁, same⟩
        refine (ih (index + 1) inScope₁).mono ?_
        rintro _ c₂ ⟨inScope₂, same₂⟩
        refine ⟨inScope₂, ?_⟩
        rw [same₂, same]

theorem localNames_identifiers (tokens : List Token) :
    ((tokens.map Node.identifier).mapM fun target => (localName target : CompileM Token)) c = .ok (tokens, c) := by
  induction tokens generalizing c with
  | nil => rfl
  | cons token tokens ih =>
      rw [List.map_cons, List.mapM_cons]
      show ((((tokens.map Node.identifier).mapM fun target => (localName target : CompileM Token)) >>=
        fun names => (pure (token :: names) : CompileM (List Token))) c) = _
      show (((tokens.map Node.identifier).mapM fun target => (localName target : CompileM Token)) c >>= _) = _
      rw [ih]
      rfl

variable (frame size) in
theorem localValues_makes (interns : Interns P) (arithmetic : env.toArithmetic = P.toArithmetic) (numVars : Nat)
    (values : List Node) (all : ∀ e ∈ values, isExpression env e = true) (c : Compiler) (inScope : Scoped env names c.func)
    (locals : c.func.numActiveLocalVars ≤ c.func.freeRegister) :
    Makes (do
      genExpList1 env values
      if values.isEmpty then setExp .void else pure ()
      onExp (Func.adjustAssign numVars values.length)) c fun _ c' =>
        Behaves P frame size c.func.freeRegister c.func.code c'.func.code c'.func (Ends frame size c.func.freeRegister
          (fun s => evaluateAll env names frame.base s values) (Assigned frame c.func.freeRegister numVars)) := by
  cases values with
  | nil =>
      rw [genExpList1, pure_bind, List.isEmpty_nil, if_pos rfl]
      refine .bind (Makes.setExp .void) ?_
      rintro _ c₁ wider₁ same
      have void : c₁.func.curExp = .void := by rw [same]
      have free : c₁.func.freeRegister = c.func.freeRegister := by rw [same]
      have code : c₁.func.code = c.func.code := by rw [same]
      have adjusts : Emits (Func.adjustAssign numVars 0 c₁.func.curExp) c₁.func fun _ fs' =>
          Behaves P frame size c.func.freeRegister c.func.code fs'.code fs'
            (Nils frame size c.func.freeRegister numVars) := by
        rw [void]
        refine .bind (.pure (a := ExpDesc.void) (Q := fun e fs' => e = .void ∧ fs' = c₁.func) ⟨rfl, rfl⟩) ?_
        rintro _ fs₁ - ⟨rfl, rfl⟩
        refine .bind (fillNil_emits P frame size numVars) ?_
        rintro _ fs' - ⟨-, nils⟩
        rw [free, code] at nils
        exact .pure nils
      refine Makes.roomy fun roomy => ?_
      refine (Makes.onExp adjusts).mono ?_
      rintro _ c₂ wider₂ ⟨fs, same₂, nils⟩
      have nothing : ∀ s vs, evaluateAll env names frame.base (P := P) s [] = .ok vs → vs.length = 0 := by
        rintro s _ ⟨⟩
        rfl
      have none : Simulates frame size c.func.code c.func.code c.func.freeRegister c₁.func
          (fun s : Machine P => slots s (frame.base + c.func.freeRegister) 0)
          fun s => slots s (frame.base + c.func.freeRegister) 0 := .refl _
      have behaves := values_assigned nothing none
        (free ▸ roomy.registers) (wider₂.described same₂) nils
      rw [same₂]
      exact behaves.wider (wider_setExp fs _)
  | cons node rest =>
      refine .bind (genExpList1_computes frame size interns arithmetic node rest all c inScope locals) ?_
      rintro _ c₁ wider₁ ⟨ready, simulates⟩
      rw [List.isEmpty_cons, if_neg Bool.false_ne_true]
      refine Makes.roomy fun roomy => ?_
      refine (Makes.onExp (adjustAssign_emits P frame size numVars (node :: rest).length ready)).mono ?_
      rintro _ c₂ wider₂ ⟨fs, same₂, fs₁, before, after, upper, -, moves, nils⟩
      have total : ∀ s vs, evaluateAll env names frame.base (P := P) s (node :: rest) = .ok vs →
          vs.length = (node :: rest).length := fun _ _ => evaluateAll_length
      have last := (Simulates.beside (w := fun s : Machine P => slots s (frame.base + c.func.freeRegister) rest.length) moves
        ?_ (fun s s' above => slots_steady above le_rfl) (fun vs v _ => .ok (vs ++ [v])) fun _ _ _ _ _ => rfl).mono
          (Nat.le_add_right _ _)
      · have loaded : Simulates frame size c.func.code fs₁.code c.func.freeRegister fs₁
            (fun s : Machine P => evaluateAll env names frame.base s (node :: rest))
            fun s => slots s (frame.base + c.func.freeRegister) (node :: rest).length := by
          refine ((simulates.wider before).trans last).congr fun _ s _ => ?_
          rw [List.length_cons, slots_concat, Nat.add_assoc]
          rfl
        have behaves := values_assigned total loaded upper after nils
        rw [same₂]
        exact behaves.wider (wider_setExp fs _)
      · intro extended s room
        have := extended.registers
        exact slots_inside (by omega)

variable (frame size names) in
theorem genLocal_correct (interns : Interns P) (arithmetic : env.toArithmetic = P.toArithmetic) (tokens : List Token)
    (values : List Node) (all : ∀ e ∈ values, isExpression env e = true) (c : Compiler) (inScope : Scoped env names c.func)
    (free : c.func.freeRegister = c.func.numActiveLocalVars) (roomy : Roomy c.func) :
    Sat (fun e => Full e ∨ e = .localLimit)
      (genNode env (.assignmentStatement (tokens.map .identifier) values true)) c fun _ c' =>
        c'.func.numActiveLocalVars = c.func.numActiveLocalVars + tokens.length ∧
          Behaves P frame size c.func.numActiveLocalVars c.func.code c'.func.code c'.func
            (Ends frame size c.func.numActiveLocalVars (fun s => evaluateAll env names frame.base s values)
              (Assigned frame c.func.numActiveLocalVars tokens.length)) := by
  have names : Sat (fun e => Full e ∨ e = .localLimit)
      ((tokens.map Node.identifier).mapM fun target => (localName target : CompileM Token)) c fun tokens' c' =>
        tokens = tokens' ∧ c = c' := by
    unfold Sat
    rw [localNames_identifiers]
    exact ⟨rfl, rfl⟩
  rw [genNode]
  refine Sat.bind (names.mono ?_)
  rintro _ _ ⟨rfl, rfl⟩
  refine Sat.bind (((declareLocals_scoped tokens 0 inScope).stops fun e limit => Or.inr limit).mono ?_)
  rintro _ c₁ ⟨inScope₁, same⟩
  have free₁ : c₁.func.freeRegister = c.func.numActiveLocalVars := by
    rw [same]
    exact free
  have locals₁ : c₁.func.numActiveLocalVars ≤ c₁.func.freeRegister := by
    rw [same]
    exact free.ge
  have code₁ : c₁.func.code = c.func.code := by rw [same]
  have number₁ : c₁.func.numActiveLocalVars = c.func.numActiveLocalVars := by rw [same]
  have roomy₁ : Roomy c₁.func := by
    rw [same]
    exact ⟨roomy.registers, roomy.constants⟩
  have loaded := localValues_makes frame size interns arithmetic tokens.length values all c₁ inScope₁
    locals₁ roomy₁
  rw [free₁, code₁] at loaded
  have whole : (do
      genExpList1 env values
      if values.isEmpty then setExp .void else pure ()
      onExp (Func.adjustAssign tokens.length values.length)
      onFunc (Func.adjustlocalvars tokens.length)) = (do
        (do
          genExpList1 env values
          if values.isEmpty then setExp .void else pure ()
          onExp (Func.adjustAssign tokens.length values.length))
        onFunc (Func.adjustlocalvars tokens.length) : CompileM Unit) := by
    cases values <;> simp
  rw [List.length_map, whole]
  refine Sat.bind ((loaded.stops fun e full => Or.inl full).mono ?_)
  rintro _ c₂ ⟨-, wider, behaves⟩
  refine sat_onFunc (Sat.modify ⟨?_, ?_⟩)
  · show c₂.func.numActiveLocalVars + tokens.length = _
    rw [wider.number, number₁]
  · exact behaves.limits rfl rfl

-- `local x = not x`
theorem genLocal_not :
    Sat (fun e => Full e ∨ e = .localLimit) (genNode (plainEnv (Lex.bytes "not x"))
      (.assignmentStatement ([⟨.name, 4, 5, 1, none⟩].map .identifier) [negatedName] true)) {} fun _ c' =>
        c'.func.numActiveLocalVars = 0 + [(⟨.name, 4, 5, 1, none⟩ : Token)].length ∧
          Behaves Platform.plain plainFrame 2 0 [] c'.func.code c'.func (Ends plainFrame 2 0
            (fun s => evaluateAll (plainEnv (Lex.bytes "not x")) [] plainFrame.base s [negatedName])
              (Assigned plainFrame 0 [(⟨.name, 4, 5, 1, none⟩ : Token)].length)) :=
  genLocal_correct plainFrame 2 [] (fun _ => rfl) rfl [⟨.name, 4, 5, 1, none⟩] [negatedName] (by decide) {} (scoped_empty _)
    rfl roomy_empty

end Zua.Run
