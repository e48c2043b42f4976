import Zua.Run.Conditions

/-!
# Whole chunks

The statements of a chunk one after the other, each with the registers behind the locals free again, and the return
behind them.
-/

namespace Zua.Run
open Code Object Compile Vm Syntax
open Memory (Constant)
open Zua.Lex (Token ch)

variable {P : Platform} {host : Host P} {frame : Frame} {size low : Nat} {fs fs' fs'' : Func} {c c' : Compiler} {env : Env}
  {names : List (List UInt8)}

/-! ## What a chunk does -/

def declared (env : Env) : Node → List (List UInt8)
  | .assignmentStatement targets _ true => ((identifiers targets).getD []).map fun token => token.slice env.source
  | _ => []

-- the statements behind `n` locals: local statements, assignments, if statements, and `do` blocks behind a local
def isStatement (env : Env) (n : Nat) : Node → Bool
  | .assignmentStatement targets values true => (identifiers targets).isSome && values.all (isExpression env)
  | .ifStatement (.ifClause _ (some condition) body :: rest) =>
      isExpression env condition && (areBranching env body && areClauses env rest)
  | .ifStatement _ => false
  | .doStatement body => n != 0 && areBranching env body
  | node => isBranching env node

def areStatements (env : Env) : Nat → List Node → Bool
  | _, [] => true
  | n, node :: rest => isStatement env n node && areStatements env (n + (declared env node).length) rest

-- the registers of new locals
def putLocals (start : Nat) (vs : List Value) (s : Machine P) : Nat → Except Vm.Stop (Machine P)
  | 0 => .ok s
  | n + 1 => do
      let s ← putLocals start vs s n
      s.setSlot (start + n) (vs.getD n .nil)

def performLocal (env : Env) (names : List (List UInt8)) (base n : Nat) (values : List Node) (s : Machine P) :
    Except Vm.Stop (Machine P) := do
  let vs ← evaluateAll env names base s values
  putLocals (base + names.length) vs s n

def performStatement (env : Env) (names : List (List UInt8)) (base : Nat) (node : Node) :
    Machine P → Except Vm.Stop (Machine P) :=
  match node with
  | .assignmentStatement _ values true => performLocal env names base (declared env node).length values
  | .ifStatement (.ifClause _ (some condition) body :: rest) => performIf env names base names.length condition body rest
  | node => perform env names base (byRegister base) node

def performChunk (env : Env) (base : Nat) : List (List UInt8) → List Node → Machine P → Except Vm.Stop (Machine P)
  | _, [], s => .ok s
  | names, node :: rest, s => do
      let s ← performStatement env names base node s
      performChunk env base (names ++ declared env node) rest s

theorem setSlot_raises {s s' : Machine P} (above : Above frame size low s s') (v : Value) :
    Agrees frame size (low + 1) (s.setSlot (frame.base + low) v) (s'.setSlot (frame.base + low) v) := by
  unfold Machine.setSlot
  rw [above.length]
  split
  · rename_i inside
    refine ⟨?_, by rw [List.length_set, List.length_set, above.length], fun k outside => ?_⟩
    · rw [above.rest]
    · dsimp only
      by_cases here : frame.base + low = k
      · subst here
        rw [List.getElem?_set_self inside, List.getElem?_set_self (by rw [above.length]; exact inside)]
      · rw [List.getElem?_set_ne here, List.getElem?_set_ne here]
        exact above.same k (by omega)
  · exact rfl

theorem putLocals_above {s s' : Machine P} (above : Above frame size low s s') (vs : List Value) (n : Nat) :
    Agrees frame size (low + n) (putLocals (frame.base + low) vs s n) (putLocals (frame.base + low) vs s' n) := by
  induction n with
  | zero => exact above
  | succ n ih =>
      unfold putLocals
      refine ih.bind fun t t' above => ?_
      rw [Nat.add_assoc]
      exact setSlot_raises above _

theorem putLocals_assigned {s s' : Machine P} (above : Above frame size low s s') {vs : List Value} {n : Nat}
    (assigned : Assigned frame low n vs s') :
    ∃ t, putLocals (frame.base + low) vs s n = .ok t ∧ Above frame size (low + n) t s' := by
  induction n with
  | zero => exact ⟨s, rfl, above⟩
  | succ n ih =>
      obtain ⟨t, put, above⟩ := ih fun i inside => assigned i (Nat.lt_succ_of_lt inside)
      obtain ⟨set, above⟩ := above_put above (assigned n (Nat.lt_succ_self n))
      refine ⟨_, ?_, above⟩
      rw [putLocals, put, ok_bind, Nat.add_assoc]
      exact set

theorem performIf_above {condition : Node} {body rest : List Node} {s s' : Machine P}
    (above : Above frame size names.length s s') :
    Agrees frame size names.length (performIf env names frame.base names.length condition body rest s)
      (performIf env names frame.base names.length condition body rest s') := by
  unfold performIf
  rw [evaluate_steady le_rfl above]
  cases evaluate env names frame.base s condition with
  | error e => exact rfl
  | ok v =>
      rw [ok_bind, ok_bind]
      have entered : Agrees frame size (max names.length 1) (load frame.base names.length v s)
          (load frame.base names.length v s') := by
        unfold load
        split
        · rename_i none
          rw [none] at above ⊢
          exact setSlot_raises above v
        · rename_i taken
          rw [max_eq_left (Nat.pos_of_ne_zero taken)]
          exact above
      have pos : 0 < max names.length 1 := Nat.lt_of_lt_of_le Nat.zero_lt_one (le_max_right _ _)
      refine Agrees.mono (entered.bind fun t t' above => ?_) (le_max_left _ 1)
      have same : t'.slot frame.base = t.slot frame.base := above.slot pos
      rw [same]
      cases t.slot frame.base with
      | error e => exact rfl
      | ok w =>
          rw [ok_bind, ok_bind]
          split
          · exact performClauses_above (le_max_left _ _) (byRegister_steady pos) rest above
          · exact performBody_above (le_max_left _ _) (byRegister_steady pos) body above

theorem performLocal_above {n : Nat} {values : List Node} {s s' : Machine P} (above : Above frame size names.length s s') :
    Agrees frame size (names.length + n) (performLocal env names frame.base n values s)
      (performLocal env names frame.base n values s') := by
  unfold performLocal
  rw [evaluateAll_steady le_rfl above]
  cases evaluateAll env names frame.base s values with
  | error e => exact rfl
  | ok vs => exact putLocals_above above vs n

theorem performStatement_above {node : Node} (is : isStatement env names.length node = true) {s s' : Machine P}
    (above : Above frame size names.length s s') : Agrees frame size (names ++ declared env node).length
      (performStatement env names frame.base node s) (performStatement env names frame.base node s') := by
  cases node with
  | assignmentStatement targets values isLocal =>
      rw [List.length_append]
      cases isLocal with
      | true => exact performLocal_above above
      | false =>
          have plain (s : Machine P) :
              perform env names frame.base (byRegister frame.base) (.assignmentStatement targets values false) s =
                perform env names frame.base byValue (.assignmentStatement targets values false) s :=
            perform_plain _ _ _ _ rfl s
          show Agrees frame size names.length (perform env names frame.base (byRegister frame.base) _ s)
            (perform env names frame.base (byRegister frame.base) _ s')
          rw [plain, plain]
          exact perform_above le_rfl (fun _ _ _ _ => rfl) _ above
  | doStatement body =>
      have parts := and_straight is
      have pos : 0 < names.length := Nat.pos_of_ne_zero (bne_iff_ne.mp parts.1)
      rw [show declared env (.doStatement body) = [] from rfl, List.append_nil]
      exact perform_above le_rfl (byRegister_steady pos) (.doStatement body) above
  | ifStatement clauses =>
      rw [show declared env (.ifStatement clauses) = [] from rfl, List.append_nil]
      cases clauses with
      | nil => cases is
      | cons clause rest =>
          cases clause with
          | ifClause token condition body =>
              cases condition with
              | none => cases is
              | some condition => exact performIf_above above
          | _ => cases is
  | _ => cases is

theorem performChunk_above {nodes : List Node} (are : areStatements env names.length nodes = true) {s s' : Machine P}
    (above : Above frame size names.length s s') :
    Agrees frame size 0 (performChunk env frame.base names nodes s) (performChunk env frame.base names nodes s') := by
  induction nodes generalizing names s s' with
  | nil => exact above.mono (Nat.zero_le _)
  | cons node rest ih =>
      have parts := and_straight are
      unfold performChunk
      have first := performStatement_above parts.1 above
      refine Agrees.bind first fun t t' above => ih ?_ above
      rw [List.length_append]
      exact parts.2

/-! ## Compiling a statement -/

def Halts (e : Compile.Stop) : Prop := Stops e ∨ e = .localLimit

-- what a statement may change that the code in front of it relies on
structure Grows (fs fs' : Func) : Prop where
  registers : fs.maxStackSize.val ≤ fs'.maxStackSize.val
  constants : fs.constants <+: fs'.constants

theorem Grows.refl (fs : Func) : Grows fs fs := ⟨le_rfl, List.prefix_rfl⟩

theorem Grows.trans (first : Grows fs fs') (second : Grows fs' fs'') : Grows fs fs'' :=
  ⟨first.registers.trans second.registers, first.constants.trans second.constants⟩

theorem Grows.of_wider (wider : Wider fs fs') : Grows fs fs' := ⟨wider.registers, wider.constants⟩

theorem Grows.narrow (grows : Grows fs fs') (extended : Extends frame size fs') : Extends frame size fs :=
  ⟨grows.constants.trans extended.constants, grows.registers.trans extended.registers⟩

-- what holds in front of a statement whose locals have the names
structure Tidy (env : Env) (names : List (List UInt8)) (fs : Func) : Prop where
  inScope : Scoped env names fs
  room : fs.activeLocalVars.length = maxVars
  roomy : Roomy fs
  locals : fs.numActiveLocalVars ≤ fs.freeRegister

-- between two states of the compiler; with the statement, `names'` are the names of the locals
structure Builds (P : Platform) (frame : Frame) (size : Nat) (env : Env) (names names' : List (List UInt8)) (c c' : Compiler)
    (f : Machine P → Except Vm.Stop (Machine P)) : Prop where
  tidy : Tidy env names' c'.func
  grows : Grows c.func c'.func
  before : c.func.code <+: c'.func.code
  goes : ∀ (host : Host P) (front : Nat), front ≤ c.func.pc → Extends frame size c'.func →
    Placed frame front c'.func.code c.func.pc [] → ∀ s, Enters frame size names.length c.func.pc s →
    ∃ result, Leads host frame s (c.func.pc - front) (c'.func.pc - front) result ∧ Keeps c'.func.pc s result ∧ Agrees frame size names'.length (f s) result

theorem newLocalvar_names {token : Token} {index : Nat} (count : names.length = fs.numActiveLocalVars + index)
    (each : ∀ n < names.length, ∃ token, fs.getlocvar n = some token ∧ names[n]? = some (token.slice env.source))
    (room : fs.activeLocalVars.length = maxVars) : Sat (· = .localLimit) (Func.newLocalvar token index) fs fun _ fs' =>
      fs' = { fs with activeLocalVars := fs'.activeLocalVars, localVars := fs'.localVars } ∧
        fs'.activeLocalVars.length = maxVars ∧ ∀ n < (names ++ [token.slice env.source]).length, ∃ token', fs'.getlocvar n =
          some token' ∧ (names ++ [token.slice env.source])[n]? = some (token'.slice env.source) := by
  refine Sat.bind (Sat.get ?_)
  split
  · exact Sat.throw rfl
  rename_i inside
  refine Sat.set ⟨rfl, by rw [List.length_set]; exact room, fun n below => ?_⟩
  rw [List.length_append, List.length_singleton] at below
  rw [← count] at inside ⊢
  unfold Func.getlocvar
  dsimp only
  by_cases here : n = names.length
  · subst here
    refine ⟨token, ?_, List.getElem?_concat_length⟩
    rw [List.getElem?_set_self (by omega), Option.bind_some, List.getElem?_concat_length]
  · have old : n < names.length := by omega
    obtain ⟨token', found, named⟩ := each n old
    refine ⟨token', ?_, (List.getElem?_append_left old).trans named⟩
    obtain ⟨k, active, located⟩ := Option.bind_eq_some_iff.mp found
    rw [List.getElem?_set_ne (Ne.symm here), active, Option.bind_some]
    exact (List.getElem?_append_left (List.getElem?_eq_some_iff.mp located).1).trans located

theorem declareLocals_names (tokens : List Token) {c : Compiler} {index : Nat}
    (count : names.length = c.func.numActiveLocalVars + index)
    (each : ∀ n < names.length, ∃ token, c.func.getlocvar n = some token ∧ names[n]? = some (token.slice env.source))
    (room : c.func.activeLocalVars.length = maxVars) : Sat (· = .localLimit) (declareLocals tokens index) c fun _ c' =>
      c'.func = { c.func with activeLocalVars := c'.func.activeLocalVars, localVars := c'.func.localVars } ∧
        c'.func.activeLocalVars.length = maxVars ∧ ∀ n < (names ++ tokens.map fun token => token.slice env.source).length,
          ∃ token, c'.func.getlocvar n = some token ∧
            (names ++ tokens.map fun token => token.slice env.source)[n]? = some (token.slice env.source) := by
  induction tokens generalizing c index names with
  | nil =>
      refine Sat.pure ⟨rfl, room, ?_⟩
      rw [List.map_nil, List.append_nil]
      exact each
  | cons token tokens ih =>
      rw [declareLocals]
      refine Sat.bind (sat_onFunc ((newLocalvar_names count each room).mono ?_))
      rintro _ fs₁ ⟨same, room₁, each₁⟩
      have number : fs₁.numActiveLocalVars = c.func.numActiveLocalVars := by rw [same]
      have count₁ : (names ++ [token.slice env.source]).length = fs₁.numActiveLocalVars + (index + 1) := by
        rw [List.length_append, List.length_singleton, number, count, Nat.add_assoc]
      refine (ih (c := { c with func := fs₁ }) count₁ each₁ room₁).mono ?_
      rintro _ c₂ ⟨same₂, room₂, each₂⟩
      rw [List.append_assoc, List.singleton_append] at each₂
      refine ⟨?_, room₂, each₂⟩
      rw [same₂]
      show { fs₁ with activeLocalVars := _, localVars := _ } = _
      rw [same]

-- the values of a local statement, with a register for each variable
variable (frame size) in
theorem localValues_registers (interns : Interns P) (arithmetic : env.toArithmetic = P.toArithmetic) (numVars : Nat)
    (values : List Node) (all : ∀ e ∈ values, isExpression env e = true) (c : Compiler) (inScope : Scoped env names c.func)
    (locals : c.func.numActiveLocalVars ≤ c.func.freeRegister) :
    Makes (do
      genExpList1 env values
      if values.isEmpty then setExp .void else pure ()
      onExp (Func.adjustAssign numVars values.length)) c fun _ c' => c.func.freeRegister + numVars ≤ c'.func.freeRegister ∧
        Behaves P frame size c.func.freeRegister c.func.code c'.func.code c'.func (Ends frame size c.func.freeRegister
          (fun s => evaluateAll env names frame.base s values) (Assigned frame c.func.freeRegister numVars)) := by
  cases values with
  | nil =>
      have loaded := localValues_makes frame size interns arithmetic numVars [] all c inScope locals
      have reserved : Makes (do
          genExpList1 env []
          if ([] : List Node).isEmpty then setExp .void else pure ()
          onExp (Func.adjustAssign numVars ([] : List Node).length)) c fun _ c' =>
            c.func.freeRegister + numVars ≤ c'.func.freeRegister := by
        rw [genExpList1, pure_bind, List.isEmpty_nil, if_pos rfl]
        refine .bind (Makes.setExp .void) ?_
        rintro _ c₁ - same
        have void : c₁.func.curExp = .void := by rw [same]
        have free : c₁.func.freeRegister = c.func.freeRegister := by rw [same]
        have adjusts : Emits (Func.adjustAssign numVars 0 c₁.func.curExp) c₁.func fun _ fs' =>
            fs'.freeRegister = c₁.func.freeRegister + numVars := by
          rw [void]
          refine .bind (.pure (a := ExpDesc.void) (Q := fun e fs' => e = .void ∧ fs' = c₁.func) ⟨rfl, rfl⟩) ?_
          rintro _ fs₁ - ⟨rfl, rfl⟩
          refine .bind (fillNil_emits P frame size numVars) ?_
          rintro _ fs' - ⟨reserved, -⟩
          exact .pure reserved
        refine (Makes.onExp adjusts).mono ?_
        rintro _ c₂ - ⟨fs, same₂, reserved⟩
        rw [same₂]
        exact (reserved.trans (by rw [free])).ge
      intro roomy
      refine ((reserved roomy).and (loaded roomy)).mono ?_
      rintro _ c' ⟨⟨roomy', wider, free⟩, -, -, behaves⟩
      exact ⟨roomy', wider, free, behaves⟩
  | cons node rest =>
      have same : (do
          genExpList1 env (node :: rest)
          if (node :: rest).isEmpty then setExp .void else pure ()
          onExp (Func.adjustAssign numVars (node :: rest).length)) = (do
            genExpList1 env (node :: rest)
            onExp (Func.adjustAssign numVars (rest.length + 1))) := by
        simp
      rw [same]
      refine (adjusted_makes frame size interns arithmetic numVars node rest all c inScope locals).mono ?_
      rintro _ c' - ⟨free, behaves⟩
      exact ⟨by omega, behaves⟩

variable (frame size) in
theorem genLocal_builds (interns : Interns P) (arithmetic : env.toArithmetic = P.toArithmetic) (tokens : List Token)
    (values : List Node) (all : ∀ e ∈ values, isExpression env e = true) (c : Compiler) (tidy : Tidy env names c.func)
    (free : c.func.freeRegister = c.func.numActiveLocalVars) :
    Sat Halts (genNode env (.assignmentStatement (tokens.map .identifier) values true)) c fun _ c' =>
      Builds P frame size env names (names ++ tokens.map fun token => token.slice env.source) c c'
        (performLocal env names frame.base tokens.length values) := by
  have localNames : Sat Halts
      ((tokens.map Node.identifier).mapM fun target => (localName target : CompileM Token)) c fun tokens' c' =>
        tokens = tokens' ∧ c = c' := by
    unfold Sat
    rw [localNames_identifiers]
    exact ⟨rfl, rfl⟩
  have count := tidy.inScope.count
  rw [genNode]
  refine Sat.bind (localNames.mono ?_)
  rintro _ _ ⟨rfl, rfl⟩
  have declares := (declareLocals_scoped tokens 0 tidy.inScope).and
    (declareLocals_names tokens (show names.length = _ + 0 from count) tidy.inScope.each tidy.room)
  refine Sat.bind ((declares.stops fun e limit => Or.inr limit).mono ?_)
  rintro _ c₁ ⟨⟨inScope₁, same⟩, -, room₁, each₁⟩
  have free₁ : c₁.func.freeRegister = names.length := by
    rw [same, count]
    exact free
  have number₁ : c₁.func.numActiveLocalVars = names.length := by rw [same, count]
  have code₁ : c₁.func.code = c.func.code := by rw [same]
  have roomy₁ : Roomy c₁.func := by
    rw [same]
    exact ⟨tidy.roomy.registers, tidy.roomy.constants⟩
  have loaded := localValues_registers frame size interns arithmetic tokens.length values all c₁ inScope₁
    (by omega) roomy₁
  rw [free₁, code₁] at loaded
  have whole : (do
      genExpList1 env values
      if values.isEmpty then setExp .void else pure ()
      onExp (Func.adjustAssign tokens.length values.length)
      onFunc (Func.adjustlocalvars tokens.length)) = (do
        (do
          genExpList1 env values
          if values.isEmpty then setExp .void else pure ()
          onExp (Func.adjustAssign tokens.length values.length))
        onFunc (Func.adjustlocalvars tokens.length) : CompileM Unit) := by
    cases values <;> simp
  rw [List.length_map, whole]
  refine Sat.bind ((loaded.stops fun e full => Or.inl (Or.inl full)).mono ?_)
  rintro _ c₂ ⟨roomy₂, wider, taken, behaves⟩
  have number₂ : c₂.func.numActiveLocalVars = names.length := wider.number.trans number₁
  refine sat_onFunc (Sat.modify ⟨⟨⟨?_, fun n inside => ?_⟩, ?_, ⟨roomy₂.registers, roomy₂.constants⟩, ?_⟩, ?_, ?_, ?_⟩)
  · rw [List.length_append, List.length_map]
    exact congrArg (· + tokens.length) number₂.symm
  · obtain ⟨token, found, named⟩ := each₁ n inside
    refine ⟨token, ?_, named⟩
    unfold Func.getlocvar at found ⊢
    dsimp only
    rw [wider.scope.active, wider.scope.locals]
    exact found
  · exact (congrArg List.length wider.scope.active).trans room₁
  · show c₂.func.numActiveLocalVars + tokens.length ≤ c₂.func.freeRegister
    omega
  · have grows : Grows c.func c₁.func := by
      rw [same]
      exact ⟨le_rfl, List.prefix_rfl⟩
    exact ⟨grows.registers.trans wider.registers, grows.constants.trans wider.constants⟩
  · obtain ⟨is, code, -⟩ := behaves
    show c.func.code <+: c₂.func.code
    rw [code]
    exact List.prefix_append _ _
  · intro host front le extended placed s enters
    obtain ⟨result, leads, keeps, ends⟩ := Behaves.placed (P := P) behaves
      ⟨extended.constants, extended.registers⟩ placed le enters
    refine ⟨result, leads, keeps, ?_⟩
    unfold Ends at ends
    unfold performLocal
    cases value : evaluateAll env names frame.base s values with
    | error e =>
        simp only [value] at ends
        rw [ends]
        exact rfl
    | ok vs =>
        simp only [value] at ends
        obtain ⟨s', rfl, above, assigned⟩ := ends
        obtain ⟨t, put, above⟩ := putLocals_assigned above assigned
        rw [ok_bind, put, List.length_append, List.length_map]
        exact above

theorem Carries.builds {f : Machine P → Except Vm.Stop (Machine P)} (carries : Carries P frame size c c' f)
    (tidy : Tidy env names c.func) (free : c.func.freeRegister = c.func.numActiveLocalVars) (roomy : Roomy c'.func)
    (wider : Wider c.func c'.func) : Builds P frame size env names names c c' f := by
  refine ⟨⟨tidy.inScope.wider wider, ?_, roomy, ?_⟩, .of_wider wider, carries.before, fun host front le extended placed s enters => ?_⟩
  · rw [wider.scope.active]
    exact tidy.room
  · rw [wider.number]
    exact tidy.locals.trans carries.free
  · have goes := carries.goes host front le extended placed
    rw [free, ← tidy.inScope.count] at goes
    exact goes s enters

-- what the definition of a statement reads apart
theorem isStatement_cases {n : Nat} {node : Node} (is : isStatement env n node = true) :
    (∃ (tokens : List Token) (values : List Node), node = .assignmentStatement (tokens.map .identifier) values true ∧
      ∀ e ∈ values, isExpression env e = true) ∨
    (∃ token condition body rest, node = .ifStatement (.ifClause token (some condition) body :: rest) ∧
      isExpression env condition = true ∧ areBranching env body = true ∧ areClauses env rest = true) ∨
    (∃ targets values, node = .assignmentStatement targets values false ∧ isBranching env node = true) ∨
    ∃ body, node = .doStatement body ∧ 0 < n ∧ isBranching env node = true := by
  cases node with
  | assignmentStatement targets values isLocal =>
      cases isLocal with
      | false => exact .inr (.inr (.inl ⟨targets, values, rfl, is⟩))
      | true =>
          have parts := and_straight is
          obtain ⟨tokens, found⟩ := Option.isSome_iff_exists.mp parts.1
          exact .inl ⟨tokens, values, by rw [identifiers_map found], List.all_eq_true.mp parts.2⟩
  | doStatement body =>
      have parts := and_straight is
      exact .inr (.inr (.inr ⟨body, rfl, Nat.pos_of_ne_zero (bne_iff_ne.mp parts.1), parts.2⟩))
  | ifStatement clauses =>
      cases clauses with
      | nil => cases is
      | cons clause rest =>
          cases clause with
          | ifClause token condition body =>
              cases condition with
              | none => cases is
              | some condition =>
                  have parts := and_straight is
                  have parts' := and_straight parts.2
                  exact .inr (.inl ⟨token, condition, body, rest, rfl, parts.1, parts'.1, parts'.2⟩)
          | _ => cases is
  | _ => cases is

theorem identifiers_identifier (tokens : List Token) : identifiers (tokens.map .identifier) = some tokens := by
  induction tokens with
  | nil => rfl
  | cons token tokens ih => rw [List.map_cons, identifiers, ih, Option.map_some]

variable (frame size) in
theorem genStatement_builds (interns : Interns P) (arithmetic : env.toArithmetic = P.toArithmetic) (node : Node)
    (is : isStatement env names.length node = true) (c : Compiler) (tidy : Tidy env names c.func)
    (free : c.func.freeRegister = c.func.numActiveLocalVars) :
    Sat Halts (genNode env node) c fun _ c' =>
      Builds P frame size env names (names ++ declared env node) c c' (performStatement env names frame.base node) := by
  have level : c.func.freeRegister = names.length := free.trans tidy.inScope.count.symm
  have statement {f : Machine P → Except Vm.Stop (Machine P)} {Q : Compiler → Prop} (compiles : Reaches (genNode env node) c
      fun _ c' => Carries P frame size c c' f ∧ Q c') :
      Sat Halts (genNode env node) c fun _ c' => Builds P frame size env names names c c' f := by
    refine ((compiles tidy.roomy).stops fun e stops => Or.inl stops).mono ?_
    rintro _ c' ⟨roomy, wider, carries, -⟩
    exact carries.builds tidy free roomy wider
  rcases isStatement_cases is with ⟨tokens, values, rfl, all⟩ | ⟨token, condition, body, rest, rfl, is, are, others⟩ |
    ⟨targets, values, rfl, is⟩ | ⟨body, rfl, some, is⟩
  · have names' : declared env (.assignmentStatement (tokens.map .identifier) values true) =
        tokens.map fun token => token.slice env.source := by
      rw [declared, identifiers_identifier, Option.getD_some]
    unfold performStatement
    rw [names', List.length_map]
    exact genLocal_builds frame size interns arithmetic tokens values all c tidy free
  · have compiles := genIf_carries frame size interns arithmetic token is are others c tidy.inScope tidy.locals
    rw [level] at compiles
    rw [show declared env (.ifStatement _) = [] from rfl, List.append_nil]
    exact statement compiles
  · rw [show declared env (.assignmentStatement targets values false) = [] from rfl, List.append_nil]
    obtain ⟨tokens, found, some, given, all⟩ := isBranching_assignment is
    obtain rfl := identifiers_map found
    have same : performStatement env names frame.base (.assignmentStatement (tokens.map .identifier) values false) =
        assignAll (P := P) env names frame.base tokens values := by
      funext s
      show perform env names frame.base _ _ s = _
      unfold perform
      rw [found]
    rw [same]
    refine statement (Q := fun _ => True) ((genAssignment_makes frame size interns arithmetic some given all c tidy.inScope
      tidy.locals).reaches.mono ?_)
    rintro _ c' - ⟨more, does⟩
    exact ⟨does.carries more, trivial⟩
  · rw [show declared env (.doStatement body) = [] from rfl, List.append_nil]
    refine statement (Q := fun _ => True) ((genNode_carries frame size interns arithmetic (.doStatement body) is c tidy.inScope
      tidy.locals (level ▸ some)).mono ?_)
    exact fun _ c' _ carries => ⟨carries, trivial⟩

/-! ## Compiling the chunk -/

def allNames (env : Env) : List (List UInt8) → List Node → List (List UInt8)
  | names, [] => names
  | names, node :: rest => allNames env (names ++ declared env node) rest

-- the code of the statements leads behind the last of them
structure Chunked (P : Platform) (frame : Frame) (size : Nat) (env : Env) (names names' : List (List UInt8)) (c c' : Compiler)
    (f : Machine P → Except Vm.Stop (Machine P)) : Prop where
  tidy : Tidy env names' c'.func
  grows : Grows c.func c'.func
  before : c.func.code <+: c'.func.code
  goes : ∀ (host : Host P) (front : Nat), front ≤ c.func.pc → Extends frame size c'.func →
    Placed frame front c'.func.code c.func.pc [] → ∀ s, Enters frame size names.length c.func.pc s →
    ∃ result, Leads host frame s (c.func.pc - front) (c'.func.pc - front) result ∧ (∀ s', result = .ok s' → s'.stack.length = s.stack.length) ∧ Agrees frame size 0 (f s) result

theorem Builds.chunked {names' names'' : List (List UInt8)} {c₁ c₂ c₃ : Compiler}
    {f g : Machine P → Except Vm.Stop (Machine P)} (first : Builds P frame size env names names' c c₁ f)
    (rest : Chunked P frame size env names' names'' c₂ c₃ g)
    (same : c₂.func = { c₁.func with freeRegister := c₂.func.freeRegister })
    (respects : ∀ s s', Above frame size names'.length s s' → Agrees frame size 0 (g s) (g s'))
    (more : names.length ≤ names'.length) : Chunked P frame size env names names'' c c₃ fun s => f s >>= g := by
  have grows : Grows c₁.func c₂.func := by
    rw [same]
    exact ⟨le_rfl, List.prefix_rfl⟩
  have code : c₂.func.code = c₁.func.code := by rw [same]
  have pc : c₂.func.pc = c₁.func.pc := congrArg List.length code
  have before := rest.before
  rw [code] at before
  refine ⟨rest.tidy, first.grows.trans (grows.trans rest.grows), first.before.trans before, ?_⟩
  intro host front le extended placed s enters
  show ∃ result, _ ∧ _ ∧ Agrees frame size 0 (f s >>= g) result
  have extended₁ : Extends frame size c₁.func := (grows.trans rest.grows).narrow extended
  have placed₁ : Placed frame front c₁.func.code c.func.pc [] := fun k w low found none =>
    placed k w low ((getElem?_before before (List.getElem?_eq_some_iff.mp found).1).trans found) none
  have placed₂ : Placed frame front c₃.func.code c₂.func.pc [] := by
    rw [pc]
    exact fun k w low found none => placed k w (first.before.length_le.trans low) found none
  obtain ⟨result, leads, keeps, agrees⟩ := first.goes host front le extended₁ placed₁ s enters
  cases result with
  | error e =>
      refine ⟨.error e, leads.fails, ?_, ?_⟩
      · intro s' wrong
        cases wrong
      · cases run : f s with
        | error e' =>
            rw [run] at agrees
            exact agrees
        | ok t =>
            rw [run] at agrees
            exact agrees.elim
  | ok t =>
      have length := keeps.length t rfl
      have enters' : Enters frame size names'.length c₂.func.pc t := by
        rw [pc]
        refine ⟨length ▸ enters.room, fun none r above => ?_⟩
        cases keeps.idle none
        exact enters.fresh (Nat.le_zero.mp (none ▸ first.before.length_le)) r (more.trans above)
      obtain ⟨result, leads', keeps', agrees'⟩ := rest.goes host front
        (pc ▸ le.trans first.before.length_le) extended placed₂ t enters'
      rw [pc] at leads'
      refine ⟨result, leads.trans leads', fun s' is => (keeps' s' is).trans length, ?_⟩
      cases run : f s with
      | error e =>
          rw [run] at agrees
          exact agrees.elim
      | ok u =>
          rw [run] at agrees
          exact (respects u t agrees).trans agrees'

variable (frame size) in
theorem genStatements_chunked (interns : Interns P) (arithmetic : env.toArithmetic = P.toArithmetic) (nodes : List Node)
    (are : areStatements env names.length nodes = true) (c : Compiler) (tidy : Tidy env names c.func)
    (free : c.func.freeRegister = c.func.numActiveLocalVars) :
    Sat Halts (genStatements env nodes) c fun _ c' =>
      Chunked P frame size env names (allNames env names nodes) c c' (performChunk env frame.base names nodes) := by
  induction nodes generalizing names c with
  | nil =>
      refine Sat.pure ⟨tidy, .refl _, List.prefix_rfl, fun host _ _ _ _ s _ => ⟨.ok s, .refl s _, ?_, .refl s⟩⟩
      rintro _ ⟨⟩
      rfl
  | cons node rest ih =>
      have parts := and_straight are
      rw [← List.length_append] at parts
      rw [genStatements]
      refine Sat.bind ((genStatement_builds frame size interns arithmetic node parts.1 c tidy free).mono ?_)
      rintro _ c₁ builds
      refine Sat.bind (x := getFunc) ?_
      show Sat Halts (if c₁.func.freeRegister ≤ c₁.func.maxStackSize.val ∧ c₁.func.numActiveLocalVars ≤ c₁.func.freeRegister
        then _ else _) c₁ _
      rw [if_pos ⟨builds.tidy.roomy.registers, builds.tidy.locals⟩]
      refine Sat.bind (sat_onFunc (Sat.modify ?_))
      have tidy₂ : Tidy env (names ++ declared env node)
          { c₁.func with freeRegister := c₁.func.numActiveLocalVars } :=
        ⟨⟨builds.tidy.inScope.count, builds.tidy.inScope.each⟩, builds.tidy.room,
          ⟨builds.tidy.locals.trans builds.tidy.roomy.registers, builds.tidy.roomy.constants⟩, le_rfl⟩
      refine (ih parts.2 { c₁ with func := { c₁.func with freeRegister := c₁.func.numActiveLocalVars } } tidy₂ rfl).mono ?_
      intro _ c₃ chunked
      refine builds.chunked chunked rfl (fun s s' above => performChunk_above parts.2 above) ?_
      rw [List.length_append]
      exact Nat.le_add_right _ _

/-! ## The return behind the chunk -/

theorem nilResults_above {s s' : Machine P} (above : Above frame size low s s') (dst n : Nat) :
    Above frame size low (nilResults s dst n) (nilResults s' dst n) := by
  induction n with
  | zero => exact above
  | succ n ih =>
      refine ⟨?_, ?_, fun k outside => ?_⟩
      · unfold nilResults
        dsimp only
        rw [ih.rest]
      · show ((nilResults s' dst n).stack.set _ _).length = ((nilResults s dst n).stack.set _ _).length
        rw [List.length_set, List.length_set, ih.length]
      · show ((nilResults s' dst n).stack.set _ _)[k]? = ((nilResults s dst n).stack.set _ _)[k]?
        rw [List.getElem?_set, List.getElem?_set, ih.same k outside, ih.length]

theorem returnFrom_above {s s' : Machine P} (above : Above frame size low s s') :
    Agrees frame size low (returnFrom s frame.base 0 1) (returnFrom s' frame.base 0 1) := by
  have ci : s'.ci = s.ci := by rw [above.rest]
  have put {t t' : Machine P} (above : Above frame size low t t') (top : Nat) :
      Above frame size low { t with top } { t' with top } :=
    ⟨by rw [above.rest], above.length, above.same⟩
  unfold returnFrom
  rw [ci]
  split
  · have moved := put above (frame.base + 0 + (1 - 1))
    rw [ci] at moved
    exact moved
  · dsimp only
    rw [if_neg Nat.one_ne_zero, if_neg Nat.one_ne_zero]
    split
    · exact rfl
    · exact put (nilResults_above above _ _) _

theorem removevars_runs (inScope : Scoped env names fs) :
    Func.removevars fs = .ok ((), { fs with numActiveLocalVars := 0 }) := by
  have each : ∀ index < fs.numActiveLocalVars, (fs.getlocvar index).isSome := fun index inside => by
    obtain ⟨token, found, -⟩ := inScope.each index (inScope.count ▸ inside)
    rw [found]
    rfl
  show (if ∀ index < fs.numActiveLocalVars, (fs.getlocvar index).isSome then
    (set { fs with numActiveLocalVars := 0 } : FuncM Unit) else throw .outOfBounds) fs = _
  rw [if_pos each]
  rfl

def returning : Instruction := ⟨.return, 0, 1, 0⟩

theorem compileTree_statements {breakList : Option (List Nat)} {body : List Node} {c₁ : Compiler}
    (ran : genStatements env body { breakList } = .ok ((), c₁)) (inScope : Scoped env names c₁.func) :
    compileTree env breakList (.chunk body) = .ok {
      code := (c₁.func.code ++ [Word.instr returning]).map Word.encode
      constants := c₁.func.constants
      protos := []
      varargs := c₁.func.varargs
      maxStackSize := UInt8.ofNat c₁.func.maxStackSize.val } := by
  have chunk : genChunk env (.chunk body) { breakList } = .ok ((), { c₁ with func := { c₁.func with
      numActiveLocalVars := 0
      code := c₁.func.code ++ [Word.instr returning] } }) := by
    show (genStatements env body { breakList } >>= fun result => (do
      onFunc Func.removevars
      let _ ← onFunc (Func.emitReturn 0 (some 0))) result.2) = _
    rw [ran]
    show (onFunc Func.removevars c₁ >>= fun result => _) = _
    rw [onFunc_runs (removevars_runs inScope)]
    rfl
  show (genChunk env (.chunk body) { breakList } >>= fun result => _) = _
  rw [chunk]
  rfl

/-! ## Running a chunk -/

-- the same words come out when a word stands in front of them: no `LOADNIL` is left out at the function start
def Unelided (env : Env) (body : List Node) (c : Compiler) : Prop :=
  ∃ w c₁ c₂, genStatements env body c = .ok ((), c₁) ∧
    genStatements env body { c with func := { c.func with code := w :: c.func.code } } = .ok ((), c₂) ∧
    c₂.func = { c₁.func with code := w :: c₁.func.code, curExp := c₂.func.curExp }

theorem tidy_start {code : List Word} : Tidy env [] { ({} : Func) with code } :=
  ⟨⟨rfl, fun n inside => absurd inside (Nat.not_lt_zero n)⟩, List.length_replicate, ⟨Nat.zero_le _, Nat.zero_le _⟩, le_rfl⟩

theorem loop_returning {k fuel : Nat} {s : Machine P}
    (word : frame.code[k]? = some (Word.instr returning).encode) :
    loop host (fuel + 1) frame s k = returnFrom s frame.base 0 1 := by
  have read : frame.code[k]?.bind Instruction.ofWord = some returning := by
    rw [word]
    exact Instruction.ofWord_word ⟨by decide, by decide, by decide⟩
  rw [loop_exec read]
  show (returnFrom s frame.base 0 1 >>= fun s => Except.ok (Flow.done s)).bind _ = _
  cases returnFrom s frame.base 0 1 <;> rfl

variable (frame size) in
theorem statements_run (interns : Interns P) (arithmetic : env.toArithmetic = P.toArithmetic) {body : List Node}
    (are : areStatements env 0 body = true) (code : List Word) {c c' : Compiler} (start : c.func = { ({} : Func) with code })
    (ran : genStatements env body c = .ok ((), c')) (extended : Extends frame size c'.func) {s : Machine P}
    (enters : Enters frame size 0 code.length s)
    (placed : Placed frame code.length (c'.func.code ++ [Word.instr returning]) code.length []) (host : Host P) :
    ∃ n, ∀ fuel, Agrees frame size 0 (performChunk env frame.base [] body s >>= fun s => returnFrom s frame.base 0 1)
      (loop host (n + fuel) frame s 0) := by
  have tidy : Tidy env [] c.func := start ▸ tidy_start
  have free : c.func.freeRegister = c.func.numActiveLocalVars := by rw [start]
  have pc : c.func.pc = code.length := by rw [start]; rfl
  have all : areStatements env ([] : List (List UInt8)).length body = true := are
  have chunked := genStatements_chunked frame size interns arithmetic body all c tidy free
  unfold Sat at chunked
  rw [ran] at chunked
  have more : code.length ≤ c'.func.pc := pc ▸ chunked.before.length_le
  have placed' : Placed frame code.length c'.func.code c.func.pc [] := by
    rw [pc]
    exact fun k w low found none => placed k w low
      ((List.getElem?_append_left (List.getElem?_eq_some_iff.mp found).1).trans found) none
  obtain ⟨result, ⟨n, run⟩, -, agrees⟩ := chunked.goes host code.length pc.ge extended placed' s (pc ▸ enters)
  refine ⟨n + 1, fun fuel => ?_⟩
  rw [pc, Nat.sub_self] at run
  have last : frame.code[c'.func.pc - code.length]? = some (Word.instr returning).encode :=
    placed c'.func.pc _ more List.getElem?_concat_length List.not_mem_nil
  rw [Nat.add_assoc, Nat.add_comm 1, run]
  refine agrees.bind fun t t' above => ?_
  rw [loop_returning last]
  exact returnFrom_above above

theorem compileTree_halts {breakList : Option (List Nat)} {body : List Node} (are : areStatements env 0 body = true)
    (interns : Interns P) (arithmetic : env.toArithmetic = P.toArithmetic) {e : Compile.Stop}
    (stopped : compileTree env breakList (.chunk body) = .error e) : Halts e := by
  have all : areStatements env ([] : List (List UInt8)).length body = true := are
  have chunked := genStatements_chunked plainFrame 2 interns arithmetic body all { breakList } tidy_start rfl
  unfold Sat at chunked
  cases ran : genStatements env body { breakList } with
  | error e' =>
      rw [ran] at chunked
      have same : compileTree env breakList (.chunk body) = .error e' := by
        show (genStatements env body { breakList } >>= _) >>= _ = _
        rw [ran]
        rfl
      rw [same] at stopped
      cases stopped
      exact chunked
  | ok result =>
      obtain ⟨⟨⟩, c₁⟩ := result
      rw [ran] at chunked
      rw [compileTree_statements ran chunked.tidy.inScope] at stopped
      cases stopped

-- the entry of a function leaves register 0 holding the function, so that clean registers are not all there is
theorem compileTree_runs (interns : Interns P) (arithmetic : env.toArithmetic = P.toArithmetic)
    {breakList : Option (List Nat)} {body : List Node} (are : areStatements env 0 body = true) {function : Function}
    (compiled : compileTree env breakList (.chunk body) = .ok function) (host : Host P) {frame : Frame} {s : Machine P}
    (found : frameOf s = some frame) (proto : frame.closure.proto = function)
    (room : frame.base + function.maxStackSize.toNat ≤ s.stack.length)
    (entry : (∀ r < function.maxStackSize.toNat, s.slot (frame.base + r) = .ok .nil) ∨ Unelided env body { breakList }) :
    ∃ n, ∀ fuel, Agrees frame function.maxStackSize.toNat 0
      (performChunk env frame.base [] body s >>= fun s => returnFrom s frame.base 0 1) (executeLua host (n + fuel) s) := by
  have all : areStatements env ([] : List (List UInt8)).length body = true := are
  have chunked := genStatements_chunked frame 2 interns arithmetic body all { breakList } tidy_start rfl
  unfold Sat at chunked
  cases ran : genStatements env body { breakList } with
  | error e =>
      have stopped : compileTree env breakList (.chunk body) = .error e := by
        show (genStatements env body { breakList } >>= _) >>= _ = _
        rw [ran]
        rfl
      rw [stopped] at compiled
      cases compiled
  | ok result =>
      obtain ⟨⟨⟩, c₁⟩ := result
      rw [ran] at chunked
      rw [compileTree_statements ran chunked.tidy.inScope] at compiled
      cases compiled
      have small := c₁.func.maxStackSize.lt
      have limit : Code.maxStackSize = 250 := rfl
      have registers : (UInt8.ofNat c₁.func.maxStackSize.val).toNat = c₁.func.maxStackSize.val := by
        rw [UInt8.toNat_ofNat']
        exact Nat.mod_eq_of_lt (by omega)
      dsimp only at room entry ⊢
      rw [registers] at room entry ⊢
      have code : frame.code = (c₁.func.code ++ [Word.instr returning]).map Word.encode := congrArg Function.code proto
      have constants : frame.constants = c₁.func.constants := congrArg Function.constants proto
      have extended : Extends frame c₁.func.maxStackSize.val c₁.func := ⟨constants ▸ List.prefix_rfl, le_rfl⟩
      have execute (fuel : Nat) : executeLua host fuel s = loop host fuel frame s 0 := by
        unfold executeLua
        rw [found]
      simp only [execute]
      rcases entry with clean | ⟨w, c₁', c₂, ran', ran₂, same⟩
      · refine statements_run frame _ interns arithmetic are [] rfl ran extended ⟨room, ?_⟩ ?_ host
        · exact fun _ r _ inside => clean r inside
        · intro k word _ found' _
          rw [code, List.getElem?_map]
          exact congrArg (Option.map Word.encode) found'
      · cases ran.symm.trans ran'
        refine statements_run frame _ interns arithmetic are [w] rfl ran₂ ?_ ⟨room, ?_⟩ ?_ host
        · rw [same]
          exact ⟨extended.constants, extended.registers⟩
        · intro none
          cases none
        · intro k word low found' _
          obtain ⟨k, rfl⟩ : ∃ j, k = j + 1 := ⟨k - 1, by
            have : 1 ≤ k := low
            omega⟩
          have behind : (c₁.func.code ++ [Word.instr returning])[k]? = some word := by
            rw [same] at found'
            exact found'
          show frame.code[k + 1 - 1]? = _
          rw [Nat.add_sub_cancel, code, List.getElem?_map]
          exact congrArg (Option.map Word.encode) behind

-- a call of the function whose registers are all nil
def calledMachine (f : Code.Function) : Machine Platform.plain where
  stack := List.replicate 256 .nil
  ci := { func := .closure 0 }
  globals := 0
  tables := [Table.init _]
  closures := [{ proto := f }]

theorem negatedBody_function : ∃ f, compileTree (plainEnv (Lex.bytes "not x")) none (.chunk negatedBody) = .ok f := by
  have compiles : (compileTree (plainEnv (Lex.bytes "not x")) none (.chunk negatedBody)).toOption.isSome = true := by
    decide +kernel
  cases compiled : compileTree (plainEnv (Lex.bytes "not x")) none (.chunk negatedBody) with
  | error e =>
      rw [compiled] at compiles
      cases compiles
  | ok f => exact ⟨f, rfl⟩

end Zua.Run
