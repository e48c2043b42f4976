import Zua.Compile.Accepted
import Zua.Compile.Nested

/-!
# Straight-line programs

A chunk of local statements, assignments to names, calls and returns. Every statement starts with the
registers of the local variables taken and no others, and what it emits is accepted by the verifier.
-/

namespace Zua.Compile
open Code Syntax
open Zua.Lex (Token ch)

variable {low : Nat} {fs fs' : Func} {e : ExpDesc}

namespace Func

theorem setoneret_ends (h : Described low fs e) : Ends (setoneret e) fs fun e' fs' => Described low fs' e' := by
  cases e
  case call index => exact (discharge_call h).mono fun _ _ _ ended => ended.1
  case vararg index => exact (discharge_vararg h).mono fun _ _ _ ended => ended.1
  all_goals exact .pure h

theorem newLocalvar_ends (name : Token) (index : Nat) (stable : Stable low none fs) :
    Ends (newLocalvar name index) fs fun _ fs' => Stable low none fs' := by
  refine Ends.get ?_
  split
  · exact .throw _
  · have resized : Resized low fs { fs with
        activeLocalVars := fs.activeLocalVars.set (fs.numActiveLocalVars + index) fs.localVars.length
        localVars := fs.localVars ++ [name] } := ⟨rfl, rfl, rfl, rfl, le_rfl, stable.lower, stable.upper⟩
    exact ⟨resized.grows, rfl, stable.resize resized⟩

end Func

section Statements

variable {env : Env} {c : Compiler}

/-! ## Lists of expressions -/

-- each value but the last is in a register of its own
theorem genExpList1_described (values : List Node) (h : areStraight values = true) (some : values ≠ []) (c : Compiler)
    (stable : Stable c.func.freeRegister none c.func) : Generates (genExpList1 env values) c fun _ c' =>
      Described (c.func.freeRegister + (values.length - 1)) c'.func c'.func.curExp := by
  induction values generalizing c with
  | nil => exact absurd rfl some
  | cons node rest ih =>
      simp only [areStraight, Bool.and_eq_true] at h
      rw [genExpList1]
      refine .bind (genNode_value node h.1 c stable) ?_
      rintro _ c₁ - ⟨value, -⟩
      cases rest with
      | nil => exact .pure value.described
      | cons next rest =>
          refine .bind (Generates.nextReg value.described) ?_
          rintro r c₂ - ⟨stable₂, -, last, above⟩
          refine (ih h.2 (List.cons_ne_nil next rest) c₂ stable₂.top).mono ?_
          intro _ c₃ grows described
          have locals := stable₂.locals
          have number := grows.number
          simp only [List.length_cons, Nat.add_sub_cancel] at described ⊢
          exact described.weaken (by omega) (by omega)

def isName : Node → Bool
  | .identifier _ => true
  | _ => false

theorem genTargets_targets (targets : List Node) (h : targets.all isName = true) (c : Compiler)
    (stable : Stable low none c.func) : Generates (genTargets env targets) c fun exps c' =>
      Stable low none c'.func ∧ exps.length = targets.length ∧ ∀ e ∈ exps, Func.Target c'.func e := by
  induction targets generalizing c with
  | nil =>
      rw [genTargets]
      exact .pure ⟨stable, rfl, fun e none => by cases none⟩
  | cons target targets ih =>
      simp only [List.all_cons, Bool.and_eq_true] at h
      cases target with
      | identifier token =>
          rw [genTargets, genNode]
          refine .bind (genIdentifier_target token stable.top) ?_
          rintro _ c₁ grows ⟨value, target⟩
          have finished : unfinished c₁.func.curExp = none := by
            cases same : c₁.func.curExp with
            | vararg index =>
                rw [same] at target
                exact target.elim
            | _ => rfl
          have described := value.described.weaken stable.lower (by rw [grows.number]; exact stable.locals)
          have stable₁ := described.stable
          rw [finished] at stable₁
          refine .getFunc (.bind (ih h.2 c₁ stable₁) ?_)
          rintro exps c₂ grows₂ ⟨stable₂, count, all⟩
          refine .pure ⟨stable₂, congrArg (· + 1) count, ?_⟩
          intro e member
          rcases List.mem_cons.mp member with rfl | member
          · exact target.grows grows₂
          · exact all e member
      | _ => cases h.1

theorem localNames_generates (targets : List Node) :
    Generates (targets.mapM fun target => (localName target : CompileM Token)) c fun _ c' => c' = c := by
  induction targets with
  | nil => exact .pure rfl
  | cons target targets ih =>
      rw [List.mapM_cons]
      cases target with
      | identifier token =>
          refine .bind (.pure (a := token) (Q := fun _ c' => c' = c) rfl) ?_
          rintro _ c₁ - rfl
          refine .bind ih ?_
          rintro tokens c₂ - rfl
          exact .pure rfl
      | _ => trivial

theorem declareLocals_stable (names : List Token) (index : Nat) (c : Compiler) (stable : Stable low none c.func) :
    Generates (declareLocals names index) c fun _ c' => Stable low none c'.func := by
  induction names generalizing index c with
  | nil => exact .pure stable
  | cons name names ih =>
      refine .bind (Generates.onFunc (Func.newLocalvar_ends name index stable)) ?_
      rintro _ c₁ - ⟨stable, -⟩
      exact ih (index + 1) c₁ stable

/-! ## Assignments -/

theorem dropRegisters_stable {n : Nat} (stable : Stable (low + n) none c.func) (locals : c.func.numActiveLocalVars ≤ low) :
    Generates (dropRegisters n) c fun _ c' => Stable low none c'.func := by
  have lower := stable.lower
  have upper := stable.upper
  refine .getFunc ?_
  split
  · exact .throw _
  · have stable := stable.weaken (Nat.le_add_right low n) locals
    have left : low ≤ c.func.freeRegister - n := by omega
    have resized : Resized low c.func { c.func with freeRegister := c.func.freeRegister - n } :=
      ⟨rfl, rfl, rfl, rfl, le_rfl, left, by dsimp only; omega⟩
    have dropped : Ends (modify fun fs => { fs with freeRegister := fs.freeRegister - n }) c.func fun _ fs' =>
        Stable low none fs' := ⟨resized.grows, rfl, stable.resize resized⟩
    exact (Generates.onFunc dropped).mono fun _ _ _ ended => ended.1

-- the registers below those of the statement are those of locals
theorem storeFrom_stable {targets : List ExpDesc} (n : Nat) (c : Compiler) (stable : Stable low none c.func)
    (locals : c.func.numActiveLocalVars = low) (all : ∀ e ∈ targets, Func.Target c.func e) :
    Generates (storeFrom targets n) c fun _ c' => Stable low none c'.func := by
  induction n generalizing c with
  | zero => exact .pure stable
  | succ n ih =>
      have upper := stable.upper
      refine .getFunc ?_
      split
      · exact .throw _
      · split
        · exact .throw _
        · rename_i positive target found
          have own : Own low c.func (c.func.freeRegister - 1) := ⟨by omega, by omega⟩
          have described : Described low c.func (.nonreloc (c.func.freeRegister - 1)) := ⟨stable, own⟩
          have member := List.mem_of_getElem? found
          refine .bind (Generates.onFunc (Func.storevar_ends described (all target member))) ?_
          rintro e c₁ grows₁ ⟨stable₁, -⟩
          refine .bind (Generates.setExp e) ?_
          rintro _ c₂ grows₂ state
          have stable₂ : Stable low none c₂.func := by
            rw [state]
            exact stable₁.setExp e
          have grows := grows_reflexive.trans grows₁ grows₂
          exact ih c₂ stable₂ (by rw [grows.number, locals]) fun e member => (all e member).grows grows

theorem genStores_stable {targets : List ExpDesc} {numValues : Nat} (some : 0 < numValues)
    (h : Described (low + (numValues - 1)) c.func c.func.curExp) (locals : c.func.numActiveLocalVars = low)
    (all : ∀ e ∈ targets, Func.Target c.func e) :
    Generates (genStores targets numValues) c fun _ c' => Stable low none c'.func := by
  have lower := h.stable.lower
  unfold genStores
  dsimp only
  split
  · exact .throw _
  · rename_i positive
    split
    · have adjusted := Func.adjustAssign_ends targets.length numValues (.inl h)
        (fun _ more => by omega)
      refine .bind (Generates.onExp adjusted) ?_
      rintro _ c₁ grows₁ ⟨e, fs, stable, state⟩
      have number := grows₁.number
      have stable₁ : Stable (low + (numValues - 1)) none c₁.func := by
        rw [state]
        exact stable.setExp e
      have stable₁ := stable₁.weaken (show low + (numValues - targets.length) ≤ _ by omega) (by omega)
      refine .bind (dropRegisters_stable stable₁ (by omega)) ?_
      intro _ c₂ grows₂ stable₂
      have grows := grows_reflexive.trans grows₁ grows₂
      exact storeFrom_stable _ c₂ stable₂ (by rw [grows.number, locals]) fun e member => (all e member).grows grows
    · split
      · exact .throw _
      · rename_i target found
        have h := h.weaken (Nat.le_add_right low (numValues - 1)) locals.le
        refine .bind (Generates.onExp (Func.setoneret_ends h)) ?_
        rintro _ c₁ grows₁ ⟨e, fs, described, state⟩
        have described₁ : Described low c₁.func c₁.func.curExp := by
          rw [state]
          exact described.setExp
        have target := (all target (List.mem_of_getLast? found)).grows grows₁
        refine .bind (Generates.onExp (Func.storevar_ends described₁ target)) ?_
        rintro _ c₂ grows₂ ⟨e, fs, stable, state⟩
        have stable₂ : Stable low none c₂.func := by
          rw [state]
          exact stable.setExp e
        have grows := grows_reflexive.trans grows₁ grows₂
        exact storeFrom_stable _ c₂ stable₂ (by rw [grows.number, locals]) fun e member => (all e member).grows grows

/-! ## Returns -/

-- a call whose results are returned becomes a tail call
theorem Func.Adjusted.tailcall {index : Nat} {i : Instruction} (h : Func.Adjusted low index none fs i)
    (call : i.op = .call) (fine : Fine fs.maxStackSize.val fs.constants i) :
    Ends (Func.patch index fun i => { i with op := .tailcall }) fs fun _ fs' =>
      Func.Adjusted low index none fs' { i with op := .tailcall } ∧
        Fine fs'.maxStackSize.val fs'.constants { i with op := .tailcall } := by
  obtain ⟨fits, a, operands⟩ := fine
  simp only [FineOperands, call] at operands
  have used : i.b ≠ 0 := by omega
  refine (Func.patch_ends h.stable (.inr rfl) h.located (by simp [call]) (by simp [consumes, call, used])
    (by simp [Function.takesBatch, call])).mono ?_
  rintro _ _ - ⟨patched, there, rfl⟩
  refine ⟨⟨patched, ?_, there, h.few⟩, ⟨fits.a, fits.b, fits.c⟩, a, operands⟩
  rw [List.length_set]
  exact h.last

theorem returnOpen_stable {first : Nat} (opened : Func.Opened low c.func) (register : first < c.func.maxStackSize.val) :
    Generates (do let _ ← onFunc (Func.emitReturn first none)) c fun _ c' => Stable low none c'.func := by
  refine .bind (Generates.onFunc (Func.emitReturnOpen_ends opened register)) ?_
  rintro _ c₁ - ⟨stable, -⟩
  exact .pure stable

theorem genReturnValues_stable {numValues : Nat} (some : 0 < numValues)
    (h : Described (low + (numValues - 1)) c.func c.func.curExp) (locals : c.func.numActiveLocalVars = low) :
    Generates (genReturnValues numValues) c fun _ c' => Stable low none c'.func := by
  have described := h.weaken (Nat.le_add_right low (numValues - 1)) locals.le
  refine .getFunc ?_
  split
  · rename_i many
    refine .bind (Generates.onFunc (Func.setmultret_ends described many)) ?_
    rintro _ c₁ grows₁ ⟨⟨opened, room, call⟩, -⟩
    have number := grows₁.number
    have register : c.func.numActiveLocalVars < c₁.func.maxStackSize.val := by omega
    split
    · rename_i index same
      split
      · obtain ⟨i, op, -, adjusted, fine⟩ := call index same
        refine .bind (Generates.onFunc (adjusted.tailcall op fine)) ?_
        rintro _ c₂ grows₂ ⟨⟨adjusted, fine⟩, -⟩
        have read : Ends (Func.getcode index) c₂.func fun j fs' =>
            j = { i with op := .tailcall } ∧ fs' = c₂.func := by
          unfold Ends Sat
          rw [Func.getcode_run adjusted.located]
          exact ⟨grows_reflexive.refl _, rfl, rfl, rfl⟩
        refine .bind (Generates.onFunc read) ?_
        rintro j c₃ grows₃ ⟨⟨rfl, same₃⟩, -⟩
        split
        · have opened : Func.Opened low c₃.func := by
            rw [same₃]
            exact ⟨index, _, adjusted, fine, rfl⟩
          exact returnOpen_stable opened (register.trans_le (grows₂.registers.trans grows₃.registers))
        · exact .throw _
      · exact returnOpen_stable opened register
    · exact returnOpen_stable opened register
  · split
    · refine .bind (Generates.anyReg described) ?_
      rintro r c₁ - ⟨stable, -, own⟩
      refine .bind (Generates.onFunc (Func.emitReturn_ends stable own.inside own.inside)) ?_
      rintro _ c₂ - ⟨stable, -⟩
      exact .pure stable
    · rename_i several
      refine .bind (Generates.nextReg h) ?_
      rintro r c₁ grows ⟨stable, -, last, above⟩
      have number := grows.number
      refine .getFunc ?_
      split
      · rename_i all
        have upper := stable.upper
        have stable := stable.weaken (Nat.le_add_right low (numValues - 1)) (by omega)
        have inside : c₁.func.numActiveLocalVars + numValues ≤ c₁.func.maxStackSize.val := by omega
        refine .bind (Generates.onFunc (Func.emitReturn_ends stable (by omega) inside)) ?_
        rintro _ c₂ - ⟨stable, -⟩
        exact .pure stable
      · exact .throw _

/-! ## Statements -/

def isStatement : Node → Bool
  | .assignmentStatement targets values isLocal =>
      !targets.isEmpty && targets.all isName && areStraight values && (isLocal || !values.isEmpty)
  | .call expression arguments _ _ _ => isStraight expression && areStraight arguments
  | .returnStatement values => areStraight values
  | _ => false

-- between two statements
structure Sound (fs : Func) : Prop where
  coded : Coded none fs
  limit : fs.constants.length ≤ 2 ^ 18
  varargs : fs.varargs = { isVarArg := true }

theorem Sound.stable (sound : Sound fs) (locals : fs.numActiveLocalVars ≤ fs.freeRegister)
    (upper : fs.freeRegister ≤ fs.maxStackSize.val) : Stable fs.freeRegister none fs :=
  ⟨sound.coded, locals, le_rfl, upper, sound.limit⟩

-- the variables of a statement become active after it
theorem Sound.keep (sound : Sound fs) (code : fs'.code = fs.code) (registers : fs'.maxStackSize = fs.maxStackSize)
    (constants : fs'.constants = fs.constants) (varargs : fs'.varargs = fs.varargs) : Sound fs' where
  coded := sound.coded.grow code (by rw [registers]) (by rw [constants])
  limit := by rw [constants]; exact sound.limit
  varargs := varargs.trans sound.varargs

theorem Generates.sound {α : Type} {x : CompileM α} (low : Nat) (plain : c.func.varargs = { isVarArg := true })
    (h : Generates x c fun _ c' => Stable low none c'.func) : Sat (fun _ => True) x c fun _ c' => Sound c'.func := by
  refine Sat.mono h ?_
  rintro _ c' ⟨grows, stable⟩
  exact ⟨stable.coded, stable.limit, grows.varargs.trans plain⟩

-- the variables of a local statement have their values
theorem adjusted_sound {numVars numValues : Nat} (h : Described low c.func c.func.curExp ∨
    c.func.curExp = .void ∧ Stable low none c.func) (target : numVars < numValues → 0 < c.func.freeRegister)
    (plain : c.func.varargs = { isVarArg := true }) : Sat (fun _ => True) (do
      onExp (Func.adjustAssign numVars numValues)
      onFunc (Func.adjustlocalvars numVars)) c fun _ c' => Sound c'.func := by
  refine Sat.bind (Sat.mono (Generates.onExp (Func.adjustAssign_ends numVars numValues h fun _ => target)) ?_)
  rintro _ c₁ ⟨grows, e, fs, stable, state⟩
  have sound : Sound c₁.func := by
    rw [state] at grows ⊢
    exact ⟨(stable.setExp e).coded, stable.limit, grows.varargs.trans plain⟩
  exact sat_onFunc (Sat.modify (sound.keep rfl rfl rfl rfl))

-- the results of a call statement need no target
theorem call_finished (expression : Node) (arguments : List Node) (openToken closeToken : Option Token)
    (isStatement : Bool) : Sat (fun _ => True) (genNode env (.call expression arguments openToken closeToken isStatement)) c
      fun _ c' => unfinished c'.func.curExp = none := by
  have emitted (base : Nat) (c : Compiler) :
      Sat (fun _ => True) (genCallInstruction base isStatement) c fun _ c' => unfinished c'.func.curExp = none := by
    refine Sat.last fun fs c₁ => ?_
    split
    · trivial
    · refine Sat.last fun index c₂ => ?_
      exact Sat.bind (sat_onFunc (Sat.modify (sat_onFunc (Sat.modify rfl))))
  rw [genNode]
  refine Sat.last fun _ c₁ => ?_
  have rest (c : Compiler) : Sat (fun _ => True) (do
      let base ← calledRegister
      genArguments env arguments
      genCallInstruction base isStatement) c fun _ c' => unfinished c'.func.curExp = none :=
    Sat.last fun base _ => Sat.last fun _ c' => emitted base c'
  split
  · exact rest c₁
  · exact Sat.last fun _ c₂ => rest c₂

theorem genStatement_sound (node : Node) (h : isStatement node = true) (sound : Sound c.func)
    (start : c.func.freeRegister = c.func.numActiveLocalVars) (upper : c.func.freeRegister ≤ c.func.maxStackSize.val) :
    Sat (fun _ => True) (genNode env node) c fun _ c' => Sound c'.func := by
  have stable := sound.stable start.ge upper
  cases node with
  | assignmentStatement targets values isLocal =>
      simp only [isStatement, Bool.and_eq_true, Bool.not_eq_true', List.isEmpty_eq_false_iff] at h
      obtain ⟨⟨⟨some, names⟩, straight⟩, valued⟩ := h
      cases isLocal with
      | true =>
          rw [genNode]
          refine Sat.bind (Sat.mono (localNames_generates targets) ?_)
          rintro tokens _ ⟨-, rfl⟩
          refine Sat.bind (Sat.mono (declareLocals_stable tokens 0 _ stable) ?_)
          rintro _ c₁ ⟨grows₁, stable₁⟩
          have plain := grows₁.varargs.trans sound.varargs
          have positive := List.length_pos_iff.mpr some
          cases values with
          | nil =>
              rw [genExpList1]
              refine Sat.bind (Sat.pure (Sat.bind (Sat.mono (Generates.setExp .void) ?_)))
              rintro _ c₂ ⟨grows₂, state⟩
              have stable₂ := stable₁.setExp .void
              rw [← state] at stable₂
              exact adjusted_sound (.inr ⟨by rw [state], stable₂⟩) (fun none => by cases none)
                (grows₂.varargs.trans plain)
          | cons value values =>
              refine Sat.bind (Sat.mono (genExpList1_described _ straight (List.cons_ne_nil _ _) c₁ stable₁.top) ?_)
              rintro _ c₂ ⟨grows₂, described⟩
              have lower := described.stable.lower
              have locals := stable₁.locals
              have atLeast := stable₁.lower
              have number := grows₂.number
              have described := described.weaken (show _ ≤ _ from atLeast.trans (Nat.le_add_right _ _)) (by omega)
              exact adjusted_sound (.inl described) (fun more => by omega) (grows₂.varargs.trans plain)
      | false =>
          simp only [Bool.false_or, Bool.not_eq_true', List.isEmpty_eq_false_iff] at valued
          rw [genNode]
          refine Generates.sound c.func.freeRegister sound.varargs ?_
          refine .bind (genTargets_targets targets names c stable) ?_
          rintro exps c₁ grows₁ ⟨stable₁, -, all⟩
          refine .bind (genExpList1_described values straight valued c₁ stable₁.top) ?_
          intro _ c₂ grows₂ described
          have lower := stable₁.lower
          have number := grows₁.number
          have number₂ := grows₂.number
          have described := described.weaken
            (show c.func.freeRegister + (values.length - 1) ≤ _ by omega) (by omega)
          exact genStores_stable (List.length_pos_iff.mpr valued) described (by omega)
            fun e member => (all e member).grows grows₂
  | call expression arguments openToken closeToken isStatement =>
      refine Generates.sound c.func.freeRegister sound.varargs ?_
      have value : Generates (genNode env _) c _ :=
        genNode_value (.call expression arguments openToken closeToken isStatement) h c stable
      refine Sat.mono (value.and (call_finished expression arguments openToken closeToken isStatement)) ?_
      rintro _ c₁ ⟨⟨grows, value, -⟩, finished⟩
      have stable₁ := value.described.stable
      rw [finished] at stable₁
      exact ⟨grows, stable₁⟩
  | returnStatement values =>
      refine Generates.sound c.func.freeRegister sound.varargs ?_
      rw [genNode]
      split
      · have two := c.func.two_le_registers
        refine .bind (Generates.onFunc (Func.emitReturn_ends stable (by omega) (by omega))) ?_
        rintro _ c₁ - ⟨stable, -⟩
        exact .pure stable
      · rename_i some
        split
        · exact .throw _
        · have some : values ≠ [] := fun none => some (by rw [none]; rfl)
          refine .bind (genExpList1_described values h some c stable) ?_
          intro _ c₁ grows described
          exact genReturnValues_stable (List.length_pos_iff.mpr some) described (by rw [grows.number, start])
  | _ => cases h

theorem genStatements_sound (body : List Node) (h : body.all isStatement = true) (c : Compiler) (sound : Sound c.func)
    (start : c.func.freeRegister = c.func.numActiveLocalVars) (upper : c.func.freeRegister ≤ c.func.maxStackSize.val) :
    Sat (fun _ => True) (genStatements env body) c fun _ c' =>
      Sound c'.func ∧ c'.func.freeRegister ≤ c'.func.maxStackSize.val := by
  induction body generalizing c with
  | nil => exact Sat.pure ⟨sound, upper⟩
  | cons node rest ih =>
      simp only [List.all_cons, Bool.and_eq_true] at h
      rw [genStatements]
      refine Sat.bind ((genStatement_sound node h.1 sound start upper).mono ?_)
      intro _ c₁ sound₁
      show Sat _ (ite _ _ _) _ _
      split
      · rename_i inside
        have atLeast := inside.2
        exact Sat.bind (sat_onFunc (Sat.modify (ih h.2 _ (sound₁.keep rfl rfl rfl rfl) rfl (by dsimp only; omega))))
      · trivial

end Statements

-- whatever is compiled from a straight-line program passes the verifier
theorem straight_accepted (env : Env) (breakList : Option (List Nat)) (body : List Node)
    (straight : body.all isStatement = true) (f : Function) (compiled : compileTree env breakList (.chunk body) = .ok f) :
    f.checkcode = .ok () := by
  have empty : Coded none ({} : Func) := by
    constructor
    · rintro index i ⟨⟩
    · rintro index n ⟨⟩
  have sound : Sound {} := ⟨empty, Nat.zero_le _, rfl⟩
  have generated : Sat (fun _ => True) (genChunk env (.chunk body)) { breakList } fun _ c' =>
      Sound c'.func ∧ c'.func.code ≠ [] := by
    refine Sat.bind ((genStatements_sound body straight _ sound rfl (Nat.zero_le _)).mono ?_)
    rintro _ c₁ ⟨sound₁, upper⟩
    have removed : Sat (fun _ => True) Func.removevars c₁.func fun _ fs => fs = { c₁.func with numActiveLocalVars := 0 } := by
      refine Sat.bind (Sat.get ?_)
      dsimp only
      split
      · exact Sat.set rfl
      · trivial
    refine Sat.bind (sat_onFunc (removed.mono ?_))
    rintro _ fs rfl
    have kept : Sound { c₁.func with numActiveLocalVars := 0 } := sound₁.keep rfl rfl rfl rfl
    have stable := kept.stable (Nat.zero_le _) upper
    have two := c₁.func.two_le_registers
    have returned : Ends (Func.emitReturn 0 (some 0)) _ _ :=
      Func.emitReturn_ends stable (by dsimp only; omega) (Nat.zero_le _)
    have emitted (fs : Func) : Sat (fun _ => True) (Func.emitReturn 0 (some 0)) fs fun _ fs' => fs'.code ≠ [] :=
      Sat.bind (Sat.get (Sat.bind (Sat.set (Sat.pure (by simp)))))
    refine Sat.bind (sat_onFunc (Sat.mono (returned.and (emitted _)) ?_))
    rintro _ fs ⟨⟨grows, -, stable⟩, some⟩
    exact Sat.pure ⟨⟨stable.coded, stable.limit, grows.varargs.trans sound₁.varargs⟩, some⟩
  obtain ⟨⟨_, c⟩, ran, rest⟩ := bind_ok.mp compiled
  unfold Sat at generated
  rw [ran] at generated
  obtain ⟨sound, some⟩ := generated
  rw [← pure_ok.mp rest]
  have below : c.func.maxStackSize.val < 250 := c.func.maxStackSize.lt
  refine checkcode_ok sound.coded rfl ?_ rfl rfl sound.varargs some
  simp only [Function.maxStack, UInt8.toNat_ofNat']
  rw [Nat.mod_eq_of_lt (by omega)]

def straightSource : List UInt8 := Lex.bytes "local a = f(...) x = \x7ba, ...\x7d return a:g(x .. a)"

def straightProgram : Node :=
  let name (start : Nat) : Token := ⟨.name, start, start + 1, 1, none⟩
  let one (start : Nat) (c : Char) : Token := ⟨.singleChar, start, start + 1, 1, some (ch c)⟩
  let all (start : Nat) : Node := .literal ⟨.ellipsis, start, start + 3, 1, none⟩
  let a (start : Nat) : Node := .identifier (name start)
  .chunk [
    .assignmentStatement [a 6]
      [.call (a 10) [all 12] (some (one 11 '(')) (some (one 15 ')')) false] true,
    .assignmentStatement [a 17]
      [.tableConstructor [.tableField none (a 22), .tableField none (all 25)] (one 21 '{') (one 28 '}')] false,
    .returnStatement [.call (.fieldAccess (a 37) (name 39) (one 38 ':'))
      [.binaryExpression ⟨.concat, 43, 45, 1, none⟩ (a 41) (a 46)] (some (one 40 '(')) (some (one 47 ')')) false]]

theorem straightProgram_accepted : ∃ f, compileTree (plainEnv straightSource) none straightProgram = .ok f ∧
    f.checkcode = .ok () := by
  have compiles : (compileTree (plainEnv straightSource) none straightProgram).toOption.isSome = true := by
    decide +kernel
  cases compiled : compileTree (plainEnv straightSource) none straightProgram with
  | error e =>
      rw [compiled] at compiles
      cases compiles
  | ok f => exact ⟨f, rfl, straight_accepted _ none _ (by decide +kernel) f compiled⟩

end Zua.Compile
