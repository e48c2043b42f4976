import Zua.Compile.Discipline

/-!
# Registers between statements

How many registers a statement leaves taken is known from its form. In a program without blocks every statement
starts with the registers of the local variables, and then no check of the registers fails.
-/

namespace Zua.Compile
open Code Syntax Parse
open Zua.Lex (Token ch)

variable {env : Env} {loose : Bool} {c : Compiler} {low : Nat}

theorem Balances.known {α : Type} {x : CompileM α} {Q : α → Compiler → Prop} {P : ExpDesc → Prop}
    (balances : Balances loose x c Q) (sets : Sets P x) :
    Balances loose x c fun a c' => Q a c' ∧ P c'.func.curExp := by
  intro upper
  have first := balances upper
  have second := sets c
  unfold Sat at first second ⊢
  split
  · rename_i run
    rw [run] at first second
    exact ⟨first.1, first.2.1, first.2.2, second⟩
  · rename_i run
    rw [run] at first
    exact first

-- a statement declares variables and leaves registers taken
def Leaves (loose : Bool) (x : CompileM Unit) (c : Compiler) (declared free : Nat) : Prop :=
  c.func.freeRegister ≤ c.func.maxStackSize.val → Sat (Tolerated loose) x c fun _ c' =>
    c'.func.freeRegister ≤ c'.func.maxStackSize.val ∧
      c'.func.numActiveLocalVars = c.func.numActiveLocalVars + declared ∧ c'.func.freeRegister = free

theorem Leaves.after {α : Type} {x : CompileM α} {f : α → CompileM Unit} {Q : α → Compiler → Prop} {declared free : Nat}
    (first : Balances loose x c Q) (rest : ∀ a c', c'.func.numActiveLocalVars = c.func.numActiveLocalVars → Q a c' →
      Leaves loose (f a) c' declared free) : Leaves loose (x >>= f) c declared free := by
  intro upper
  refine Sat.bind (Sat.mono (first upper) ?_)
  rintro a c' ⟨upper, number, h⟩
  have rest := rest a c' number h upper
  rw [number] at rest
  exact rest

theorem Balances.leaves {x : CompileM Unit} {free : Nat}
    (balances : Balances loose x c fun _ c' => c'.func.freeRegister = free) : Leaves loose x c 0 free := balances

/-! ## Lists of values -/

theorem genExpList1_sets {P : ExpDesc → Prop} {nodes : List Node} (all : ∀ node ∈ nodes, Sets P (genNode env node))
    (some : nodes ≠ []) : Sets P (genExpList1 env nodes) := by
  induction nodes with
  | nil => exact (some rfl).elim
  | cons node rest ih =>
      rw [genExpList1]
      cases rest with
      | nil =>
          intro c
          exact Sat.bind ((all node List.mem_cons_self c).mono fun _ _ known => Sat.pure known)
      | cons next rest =>
          refine Sets.after (all node List.mem_cons_self).clean fun _ _ => ?_
          refine Sets.after nextReg_clean fun _ _ => ?_
          exact ih (fun node member => all node (List.mem_cons_of_mem _ member)) (List.cons_ne_nil _ _)

-- the values of a statement
structure Values (env : Env) (loose : Bool) (nodes : List Node) : Prop where
  shaped : AllShaped .expression nodes
  plain : loose = false → areStraight nodes = true

theorem Values.balanced {nodes : List Node} (values : Values env loose nodes) :
    ∀ node ∈ nodes, Balanced env loose .expression node :=
  fun node member => Shaped.balances (values.shaped node member) fun strict => areStraight_mem (values.plain strict) node member

theorem Values.list {nodes : List Node} (values : Values env loose nodes) (some : nodes ≠ []) (c : Compiler)
    (locals : c.func.numActiveLocalVars ≤ c.func.freeRegister) : Balances loose (genExpList1 env nodes) c fun _ c' =>
      Holds (c.func.freeRegister + (nodes.length - 1)) c' ∧ Func.IsValue c'.func.curExp := by
  refine (genExpList1_balances values.balanced c locals some).known (genExpList1_sets (fun node member => ?_) some)
  exact Compiles.value (Shaped.compiles (values.shaped node member))

/-! ## Local statements -/

theorem newLocalvar_works {fs : Func} (name : Token) (index : Nat) : Works (Func.newLocalvar name index) fs fun _ fs' =>
    fs'.freeRegister = fs.freeRegister := by
  refine Works.get fun _ => ?_
  split
  · exact .throw (by decide)
  · exact fun upper => ⟨upper, rfl, rfl, rfl⟩

theorem declareLocals_balances (names : List Token) (index : Nat) (c : Compiler) :
    Balances loose (declareLocals names index) c fun _ c' => c'.func.freeRegister = c.func.freeRegister := by
  induction names generalizing index c with
  | nil => exact .pure rfl
  | cons name names ih =>
      refine .bind (.onFunc (newLocalvar_works name index)) ?_
      rintro _ c₁ - ⟨-, free⟩
      refine (ih (index + 1) c₁).mono ?_
      rintro _ c₂ - free'
      exact free'.trans free

theorem localNames_balances (targets : List Node) :
    Balances loose (targets.mapM fun target => (localName target : CompileM Token)) c fun _ c' => c' = c := by
  induction targets with
  | nil => exact .pure rfl
  | cons target targets ih =>
      rw [List.mapM_cons]
      cases target with
      | identifier token =>
          refine .bind (.pure (a := token) (Q := fun _ c' => c' = c) rfl) ?_
          rintro _ c₁ - rfl
          refine .bind ih ?_
          rintro tokens c₂ - rfl
          exact .pure rfl
      | _ => exact fun _ => Limit.tolerated (by decide)

theorem adjustlocalvars_leaves (n : Nat) : Leaves loose (onFunc (Func.adjustlocalvars n)) c n c.func.freeRegister :=
  fun upper => ⟨upper, rfl, rfl⟩

theorem onExp_free {f : ExpDesc → FuncM ExpDesc} {free : Nat}
    (works : Works (f c.func.curExp) c.func fun _ fs => fs.freeRegister = free) :
    Balances loose (onExp f) c fun _ c' => c'.func.freeRegister = free := by
  refine (Balances.onExp works).mono ?_
  rintro _ c' - ⟨fs, same, free⟩
  rw [same]
  exact free

theorem genLocal_leaves {targets values : List Node} (given : Values env loose values) (c : Compiler)
    (locals : c.func.numActiveLocalVars ≤ c.func.freeRegister) :
    Leaves loose (genNode env (.assignmentStatement targets values true)) c targets.length
      (c.func.freeRegister + max targets.length values.length) := by
  rw [genNode]
  refine .after (localNames_balances targets) ?_
  rintro names c₁ - rfl
  refine .after (declareLocals_balances names 0 c₁) ?_
  rintro _ c₂ number₂ free₂
  have adjusted {n : Nat} {c₃ : Compiler} (works : Works (Func.adjustAssign targets.length values.length c₃.func.curExp)
      c₃.func fun _ fs => fs.freeRegister = n) : Leaves loose (do
        onExp (Func.adjustAssign targets.length values.length)
        onFunc (Func.adjustlocalvars targets.length)) c₃ targets.length n := by
    refine .after (onExp_free works) ?_
    rintro _ c₄ - free
    rw [← free]
    exact adjustlocalvars_leaves _
  cases values with
  | nil =>
      rw [genExpList1]
      refine .after (.pure (Q := fun _ c' => c' = c₂) rfl) ?_
      rintro _ c₃ - rfl
      refine .after (Balances.setExp _) ?_
      rintro _ c₄ number₄ set
      refine adjusted ?_
      have free₄ : c₄.func.freeRegister = c₃.func.freeRegister := by rw [set]
      have void : c₄.func.curExp = .void := by rw [set]
      rw [void]
      refine (Func.adjustVoid_works _).mono ?_
      rintro _ fs - free
      rw [free, free₄, free₂, List.length_nil, Nat.max_zero]
  | cons value values =>
      refine .after (given.list (List.cons_ne_nil _ _) c₂ (by omega)) ?_
      rintro _ c₃ number₃ ⟨holds, known⟩
      refine adjusted ((Func.adjustAssign_works _ _ (by omega) holds fun void => ?_).mono ?_)
      · rw [void] at known
        exact known
      · rintro _ fs - free
        rw [free, free₂]
        simp only [List.length_cons]
        omega

/-! ## Assignments -/

theorem genTargets_balances {targets : List Node} (names : targets.all isName = true) (c : Compiler) :
    Balances loose (genTargets env targets) c fun exps c' => c'.func.freeRegister = c.func.freeRegister ∧
      exps.length = targets.length ∧ ∀ e ∈ exps, Func.Variable c'.func e := by
  induction targets generalizing c with
  | nil =>
      rw [genTargets]
      exact .pure ⟨rfl, rfl, fun e member => (List.not_mem_nil member).elim⟩
  | cons target targets ih =>
      simp only [List.all_cons, Bool.and_eq_true] at names
      cases target with
      | identifier token =>
          rw [genTargets, genNode]
          refine .bind (genIdentifier_balances token) ?_
          rintro _ c₁ - ⟨free, variable₁⟩
          refine .getFunc (.bind (ih names.2 c₁) ?_)
          rintro exps c₂ number ⟨free', count, all⟩
          refine .pure ⟨free'.trans free, congrArg (· + 1) count, ?_⟩
          intro e member
          rcases List.mem_cons.mp member with rfl | member
          · exact variable₁.frame number
          · exact all e member
      | _ => cases names.1

theorem dropRegisters_balances {n : Nat} (taken : n ≤ c.func.freeRegister) :
    Balances loose (dropRegisters n) c fun _ c' => c'.func.freeRegister = c.func.freeRegister - n := by
  refine .getFunc ?_
  rw [if_neg (Nat.not_lt.mpr taken)]
  refine (Balances.onFunc (Works.modify (Q := fun _ fs => fs.freeRegister = c.func.freeRegister - n) (fun upper => ?_) rfl
    rfl rfl)).mono fun _ _ _ h => h.2
  dsimp only
  omega

theorem storeFrom_balances {targets : List ExpDesc} (n : Nat) (c : Compiler) (count : n ≤ targets.length)
    (all : ∀ e ∈ targets, Func.Variable c.func e) (locals : c.func.numActiveLocalVars ≤ low)
    (free : c.func.freeRegister = low + n) :
    Balances loose (storeFrom targets n) c fun _ c' => c'.func.freeRegister = low := by
  induction n generalizing c with
  | zero => exact .pure free
  | succ n ih =>
      refine .getFunc ?_
      rw [if_neg (by omega), List.getElem?_eq_getElem count]
      have stored : Works (Func.storevar targets[n] (.nonreloc (c.func.freeRegister - 1))) c.func fun _ fs =>
          fs.freeRegister = low + n := by
        refine Func.storevar_works (all _ (List.getElem_mem count)) (by omega) (.inr ⟨?_, ?_⟩) rfl <;> omega
      refine .bind (.onFunc stored) ?_
      rintro e c₁ number₁ ⟨-, free₁⟩
      refine .bind (Balances.setExp e) ?_
      rintro _ c₂ number₂ set
      refine ih c₂ (by omega) (fun e member => ?_) (by omega) ?_
      · exact (all e member).frame (number₂.trans number₁)
      · rw [set]
        exact free₁

theorem setoneret_balances (holds : Holds low c) : Balances loose (onExp Func.setoneret) c fun _ c' =>
    Holds low c' ∧ c'.func.curExp.hasmultret = false := by
  refine (Balances.onExp (Func.setoneret_works holds)).mono ?_
  rintro _ c' - ⟨fs, same, temps, many, single⟩
  refine ⟨.set same temps, ?_⟩
  cases was : c.func.curExp.hasmultret with
  | true =>
      have discharged := many was
      cases is : c'.func.curExp with
      | call | vararg =>
          rw [is] at discharged
          cases discharged
      | _ => rfl
  | false => rw [(single was).1, was]

-- with two values for two variables one register stays taken
def storedDebt (numVars numValues : Nat) : Nat := if numVars = 2 ∧ numValues = 2 then 1 else 0

theorem genStores_balances {targets : List ExpDesc} {numValues : Nat} (some : targets ≠ []) (given : numValues ≠ 0)
    (all : ∀ e ∈ targets, Func.Variable c.func e) (locals : c.func.numActiveLocalVars ≤ low)
    (holds : Holds (low + (numValues - 1)) c) (value : Func.IsValue c.func.curExp) :
    Balances loose (genStores targets numValues) c fun _ c' =>
      c'.func.freeRegister = low + storedDebt targets.length numValues := by
  have positive : targets.length ≠ 0 := fun none => some (List.eq_nil_of_length_eq_zero none)
  unfold genStores
  dsimp only
  rw [if_neg positive]
  split
  · rename_i differ
    have notVoid : c.func.curExp ≠ .void := by
      intro void
      rw [void] at value
      exact value
    have locals' : c.func.numActiveLocalVars ≤ low + (numValues - 1) := by omega
    refine .bind (onExp_free (Func.adjustAssign_works targets.length numValues locals' holds notVoid)) ?_
    rintro _ c₁ number₁ free₁
    refine .bind (dropRegisters_balances (by omega)) ?_
    rintro _ c₂ number₂ free₂
    have none : storedDebt targets.length numValues = 0 := if_neg fun both => differ (both.2.trans both.1.symm)
    rw [none]
    refine storeFrom_balances targets.length c₂ le_rfl (fun e member => ?_) (by omega) (by omega)
    exact (all e member).frame (number₂.trans number₁)
  · rename_i same
    have same : numValues = targets.length := not_not.mp same
    have last : targets.getLast? = .some (targets.getLast some) := List.getLast?_eq_getLast_of_ne_nil some
    rw [last]
    refine .bind (setoneret_balances holds) ?_
    rintro _ c₁ number₁ ⟨holds₁, single⟩
    have target : Func.Variable c₁.func (targets.getLast some) := (all _ (List.getLast_mem some)).frame number₁
    refine .bind (onExp_free (Func.storevar_works target (by omega) holds₁ single)) ?_
    rintro _ c₂ number₂ free
    split
    · rename_i two
      refine .pure ?_
      rw [free, same, two]
      rfl
    · rename_i other
      have none : storedDebt targets.length numValues = 0 := if_neg fun both => other both.1
      rw [none]
      refine storeFrom_balances _ c₂ (Nat.sub_le _ _) (fun e member => ?_) (by omega) (by omega)
      exact (all e member).frame (number₂.trans number₁)

theorem genAssignment_balances {targets values : List Node} (some : targets ≠ []) (names : targets.all isName = true)
    (given : Values env loose values) (present : values ≠ []) (c : Compiler)
    (locals : c.func.numActiveLocalVars ≤ c.func.freeRegister) :
    Balances loose (genNode env (.assignmentStatement targets values false)) c fun _ c' =>
      c'.func.freeRegister = c.func.freeRegister + storedDebt targets.length values.length := by
  rw [genNode]
  refine .bind (genTargets_balances names c) ?_
  rintro exps c₁ number₁ ⟨free, count, all⟩
  refine .bind (given.list present c₁ (by omega)) ?_
  rintro _ c₂ number₂ ⟨holds, value⟩
  have nonempty : exps ≠ [] := by
    rintro rfl
    exact some (List.eq_nil_of_length_eq_zero count.symm)
  have positive : values.length ≠ 0 := fun none => present (List.eq_nil_of_length_eq_zero none)
  rw [← count, ← free]
  exact genStores_balances nonempty positive (fun e member => (all e member).frame number₂) (by omega) holds value

/-! ## Calls and returns -/

theorem genCallStatement_balances {callee : Node} {arguments : List Node} {openArgs closeArgs : Option Token}
    {isStatement : Bool} (called : Shaped .callee callee) (plain : loose = false → isStraight callee = true)
    (given : Values env loose arguments) (c : Compiler) (locals : c.func.numActiveLocalVars ≤ c.func.freeRegister) :
    Balances loose (genNode env (.call callee arguments openArgs closeArgs isStatement)) c fun _ c' =>
      c'.func.freeRegister = c.func.freeRegister + 1 := by
  exact (genCall_balances (Shaped.balances called plain) given.balanced c locals).mono fun _ _ _ h => h.2

theorem emitReturn_balances (first : Nat) (num : Option Nat) (above : c.func.numActiveLocalVars ≤ c.func.freeRegister) :
    Balances loose (do let _ ← onFunc (Func.emitReturn first num) : CompileM Unit) c fun _ c' =>
      c'.func.numActiveLocalVars ≤ c'.func.freeRegister := by
  refine .bind (.onFunc (Func.emitABC_works _ _ _ _)) ?_
  rintro index c₁ - ⟨-, -, emitted⟩
  refine .pure ?_
  rw [emitted]
  exact above

-- a call that is returned starts at the first register above the locals
theorem returnOpen_balances {n : Nat} (start : low = c.func.numActiveLocalVars) (holds : Holds (low + n) c)
    (many : c.func.curExp.hasmultret = true) : Balances loose (genReturnValues (n + 1)) c fun _ c' =>
      c'.func.numActiveLocalVars ≤ c'.func.freeRegister := by
  refine .getFunc ?_
  rw [if_pos many]
  refine .bind (.onFunc (Func.setreturns_works holds many none)) ?_
  rintro _ c₁ number₁ ⟨-, free, call⟩
  have above : c₁.func.numActiveLocalVars ≤ c₁.func.freeRegister := by omega
  split
  · rename_i index is
    split
    · rename_i only
      obtain rfl : n = 0 := by omega
      have kept := call index is
      rw [is] at kept
      obtain ⟨-, i, found, -, register⟩ := kept
      refine .bind (.onFunc (Func.patch_works index _)) ?_
      rintro _ c₂ number₂ ⟨-, j, found', patched⟩
      cases found.symm.trans found'
      refine .bind (.onFunc (Func.getcode_works index)) ?_
      rintro j c₃ number₃ ⟨-, found'', same⟩
      rw [patched, List.getElem?_set_self (List.getElem?_eq_some_iff.mp found).1] at found''
      cases found''
      rw [if_pos (show i.a = c.func.numActiveLocalVars from register.trans start)]
      have free₃ : c₃.func.freeRegister = c₁.func.freeRegister := by rw [same, patched]
      exact emitReturn_balances _ _ (by omega)
    · exact emitReturn_balances _ _ above
  · exact emitReturn_balances _ _ above

theorem genReturnValues_balances {n : Nat} (start : low = c.func.numActiveLocalVars) (holds : Holds (low + n) c) :
    Balances loose (genReturnValues (n + 1)) c fun _ c' => c'.func.numActiveLocalVars ≤ c'.func.freeRegister := by
  cases many : c.func.curExp.hasmultret with
  | true => exact returnOpen_balances start holds many
  | false =>
      refine .getFunc ?_
      rw [if_neg (by rw [many]; exact Bool.false_ne_true)]
      split
      · refine .bind (anyReg_balances (by omega) holds) ?_
        rintro r c₁ number₁ ⟨-, slot⟩
        have := Slot.le slot
        exact emitReturn_balances _ _ (by omega)
      · refine .bind (nextReg_balances (by omega) holds) ?_
        rintro r c₁ number₁ ⟨-, -, free⟩
        refine .getFunc ?_
        rw [if_pos (by omega)]
        exact emitReturn_balances _ _ (by omega)

theorem genReturn_balances {values : List Node} (given : Values env loose values) (c : Compiler)
    (start : c.func.freeRegister = c.func.numActiveLocalVars) :
    Balances loose (genNode env (.returnStatement values)) c fun _ c' =>
      c'.func.numActiveLocalVars ≤ c'.func.freeRegister := by
  rw [genNode]
  split
  · exact emitReturn_balances _ _ start.ge
  split
  · exact .throw (by decide)
  · rename_i some _
    have present : values ≠ [] := fun none => some (by rw [none]; rfl)
    refine .bind (given.list present c start.ge) ?_
    rintro _ c₁ number₁ ⟨holds, -⟩
    have count : values.length - 1 + 1 = values.length := Nat.succ_pred_eq_of_pos (List.length_pos_of_ne_nil present)
    rw [← count]
    exact genReturnValues_balances (start.trans number₁.symm) holds

/-! ## Straight-line programs -/

theorem tolerated_false : Tolerated false = Limit :=
  funext fun _ => propext ⟨fun h => h.resolve_left Bool.false_ne_true, .inr⟩

-- what is checked behind every statement
theorem genStatement_stacked {node : Node} (shaped : Shaped .statement node) (straight : isStatement node = true)
    (c : Compiler) (start : c.func.freeRegister = c.func.numActiveLocalVars)
    (upper : c.func.freeRegister ≤ c.func.maxStackSize.val) : Sat Limit (genNode env node) c fun _ c' =>
      c'.func.freeRegister ≤ c'.func.maxStackSize.val ∧ c'.func.numActiveLocalVars ≤ c'.func.freeRegister := by
  rw [← tolerated_false]
  cases shaped with
  | callStatement called arguments =>
      have parts := and_straight straight
      refine (genCallStatement_balances called (fun _ => parts.1) ⟨arguments, fun _ => parts.2⟩ c start.ge upper).mono ?_
      rintro _ c' ⟨upper, number, free⟩
      exact ⟨upper, by omega⟩
  | @assignment targets values some all given =>
      have parts := and_straight straight
      have others := and_straight parts.1
      have present : values ≠ [] := by
        rintro rfl
        cases parts.2
      refine (genAssignment_balances some (and_straight others.1).2 ⟨given, fun _ => others.2⟩ present c start.ge
        upper).mono ?_
      rintro _ c' ⟨upper, number, free⟩
      exact ⟨upper, by omega⟩
  | localStatement targets values =>
      have parts := and_straight (and_straight straight).1
      refine (genLocal_leaves ⟨values, fun _ => parts.2⟩ c start.ge upper).mono ?_
      rintro _ c' ⟨upper, number, free⟩
      refine ⟨upper, ?_⟩
      rw [free, number, start]
      exact Nat.add_le_add_left (Nat.le_max_left _ _) _
  | returnStatement values =>
      refine (genReturn_balances ⟨values, fun _ => straight⟩ c start upper).mono ?_
      rintro _ c' ⟨upper, -, above⟩
      exact ⟨upper, above⟩
  | _ => cases straight

theorem genStatements_stacked {body : List Node} (shaped : AllShaped .statement body)
    (straight : body.all isStatement = true) (c : Compiler) (start : c.func.freeRegister = c.func.numActiveLocalVars)
    (upper : c.func.freeRegister ≤ c.func.maxStackSize.val) : Sat Limit (genStatements env body) c fun _ _ => True := by
  induction body generalizing c with
  | nil => trivial
  | cons node rest ih =>
      rw [List.all_cons, Bool.and_eq_true] at straight
      refine Sat.bind ((genStatement_stacked (shaped node List.mem_cons_self) straight.1 c start upper).mono ?_)
      rintro _ c₁ ⟨upper₁, above⟩
      refine Sat.bind (sat_onFunc (Sat.get ?_))
      rw [if_pos ⟨upper₁, above⟩]
      refine Sat.bind (sat_onFunc (Sat.modify ?_))
      exact ih (fun node member => shaped node (List.mem_cons_of_mem _ member)) straight.2 _ rfl (above.trans upper₁)

-- no check of the registers fails
theorem registers_stacked {lexer : Lex.Lexer} {body : List Node} (parsed : parse lexer = .ok (.chunk body))
    (straight : body.all isStatement = true) (env : Env) (breakList : Option (List Nat)) :
    compileTree env breakList (.chunk body) ≠ .error .assertion ∧
      compileTree env breakList (.chunk body) ≠ .error .overflow := by
  have shaped : AllShaped .statement body := by
    cases parse_shaped parsed
    assumption
  have compiles : Sat Limit (genChunk env (.chunk body)) { breakList } fun _ _ => True := by
    refine Sat.bind ((genStatements_stacked shaped straight _ rfl (Nat.zero_le _)).mono ?_)
    intro _ c₁ _
    have removes : Sat Limit (onFunc Func.removevars) c₁ fun _ _ => True := by
      refine sat_onFunc (Sat.bind (Sat.get ?_))
      split
      · trivial
      · exact Sat.throw (by decide)
    exact Sat.bind (removes.mono fun _ c₂ _ => trivial)
  have stops (e : Stop) (stopped : compileTree env breakList (.chunk body) = .error e) : Limit e := by
    unfold Sat at compiles
    unfold compileTree at stopped
    cases run : genChunk env (.chunk body) { breakList } with
    | error e' =>
        rw [run] at compiles stopped
        cases stopped
        exact compiles
    | ok result =>
        rw [run] at stopped
        cases stopped
  exact ⟨fun stopped => (stops _ stopped).1 rfl, fun stopped => (stops _ stopped).2 rfl⟩

-- a run of the parser that ends with a chunk of which the test holds
def chunkTest (test : List Node → Bool) : Except Parse.Stop Node → Bool
  | .ok (.chunk body) => test body
  | _ => false

theorem chunkTest_holds {test : List Node → Bool} {result : Except Parse.Stop Node}
    (h : chunkTest test result = true) : ∃ body, result = .ok (.chunk body) ∧ test body = true := by
  unfold chunkTest at h
  split at h
  · rename_i body
    exact ⟨body, rfl, h⟩
  · cases h

theorem registers_stacked_program : ∃ body, parse (Lex.Lexer.init straightSource []) = .ok (.chunk body) ∧
    compileTree (plainEnv straightSource) none (.chunk body) ≠ .error .assertion ∧
      compileTree (plainEnv straightSource) none (.chunk body) ≠ .error .overflow := by
  have accepted : chunkTest (fun body => body.all isStatement) (parse (Lex.Lexer.init straightSource [])) = true := by
    decide +kernel
  obtain ⟨body, parsed, straight⟩ := chunkTest_holds accepted
  exact ⟨body, parsed, registers_stacked parsed straight (plainEnv straightSource) none⟩

end Zua.Compile
