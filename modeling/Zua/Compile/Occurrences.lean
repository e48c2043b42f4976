import Zua.Compile.Guards

/-!
# Statements in a chunk

The states in which the statements of a chunk are compiled, at any depth, and what is left of their tests and jumps in
the final code. Only the jumps of breaks are patched after the statement that they are in.
-/

namespace Zua.Compile
open Code Syntax Parse
open Zua.Lex (Token ch)

variable {env : Env} {c c' c₀ d d' : Compiler} {outer node : Node} {before after body nodes rest : List Node}

/-! ## Where statements are compiled -/

-- the clauses in front of another one
def genEarlier (env : Env) : List Node → CompileM Unit
  | [] => return ()
  | clause :: rest => do
      let _ ← genClause env false clause
      genEarlier env rest

-- a statement of a body of `outer`; the bodies of functions have code of their own, and the loops apart from the numeric
-- `for` never get to their end
inductive Nests (env : Env) : Node → Compiler → Node → Compiler → Prop
  | block {before after : List Node} {node : Node} {c d : Compiler} : genBody env before c = .ok ((), d) →
      Nests env (.doStatement (before ++ node :: after)) c node d
  | clause {first rest before after : List Node} {token : Token} {condition : Option Node} {node : Node}
      {c c₁ c₂ d : Compiler} : genEarlier env first c = .ok ((), c₁) → clauseEntry env condition c₁ = .ok ((), c₂) →
      genBody env before c₂ = .ok ((), d) →
      Nests env (.ifStatement (first ++ .ifClause token condition (before ++ node :: after) :: rest)) c node d
  | loop {before after : List Node} {name : Token} {start stop : Node} {increment : Option Node} {node : Node}
      {c c₁ d : Compiler} {entered : Nat × Option (List Nat)} :
      loopEntry env name start stop increment c = .ok (entered, c₁) → genBody env before c₁ = .ok ((), d) →
      Nests env (.forStatementNumeric name start stop increment (before ++ node :: after)) c node d

-- the statements that are compiled when the chunk is compiled from `c₀`, each with the state in which it starts
inductive Occurs (env : Env) (body : List Node) (c₀ : Compiler) : Node → Compiler → Prop
  | statement {before after : List Node} {node : Node} {d : Compiler} : body = before ++ node :: after →
      genStatements env before c₀ = .ok ((), d) → Occurs env body c₀ node d
  | nested {outer node : Node} {c d : Compiler} : Occurs env body c₀ outer c → Nests env outer c node d →
      Occurs env body c₀ node d

/-! ## Runs in parts -/

theorem genBody_front (front : genBody env before c = .ok ((), d)) : genBody env (before ++ rest) c = genBody env rest d := by
  induction before generalizing c with
  | nil =>
      rw [genBody] at front
      cases front
      rfl
  | cons node before ih =>
      rw [genBody] at front
      obtain ⟨_, c₁, first, front⟩ := bind_returns.mp front
      rw [List.cons_append, genBody, bind_runs first]
      exact ih front

theorem genStatements_front (front : genStatements env before c = .ok ((), d)) :
    genStatements env (before ++ rest) c = genStatements env rest d := by
  induction before generalizing c with
  | nil =>
      cases front
      rfl
  | cons node before ih =>
      rw [genStatements] at front
      obtain ⟨_, c₁, first, front⟩ := bind_returns.mp front
      rw [List.cons_append, genStatements, bind_runs first]
      obtain ⟨fs, c₂, read, front⟩ := bind_returns.mp front
      rw [bind_runs read]
      split at front
      · rename_i fits
        rw [if_pos fits]
        obtain ⟨_, c₃, set, front⟩ := bind_returns.mp front
        rw [bind_runs set]
        exact ih front
      · cases front

theorem Guarded.run {α : Type} {S : Nat → Prop} {x : CompileM α} {a : α} {Q : α → Compiler → Prop}
    (guarded : Guarded S x c Q) (clear : Clear c.func.code c.func.curExp) (inside : ∀ k, S k → k < c.func.pc)
    (ran : x c = .ok (a, c')) : Guards S c c' ∧ Clear c'.func.code c'.func.curExp ∧ Q a c' := by
  have holds := guarded clear inside
  unfold Sat at holds
  rwa [ran] at holds

theorem Recording.run {α : Type} {inLoop : Bool} {x : CompileM α} {a : α} (recording : Recording inLoop x)
    (ran : x c = .ok (a, c')) : Records inLoop c c' := by
  have holds := recording c
  unfold Sat at holds
  rwa [ran] at holds

/-! ## Breaks -/

-- in a loop the breaks that are recorded are in the code
def BreaksBelow (inLoop : Bool) (c : Compiler) : Prop := inLoop = true → ∀ k ∈ c.breakList.getD [], k < c.func.pc

def Unbroken (inLoop : Bool) (c : Compiler) (k : Nat) : Prop := inLoop = true → k ∉ c.breakList.getD []

section

variable {inLoop : Bool} {k : Nat}

theorem Records.member (records : Records inLoop c c') (member : k ∈ c'.breakList.getD []) :
    k ∈ c.breakList.getD [] ∨ c.func.pc ≤ k ∧ k < c'.func.pc := by
  obtain ⟨-, breaks, list, -, places⟩ := records
  rw [list] at member
  cases known : c.breakList with
  | none =>
      rw [known] at member
      exact (List.not_mem_nil member).elim
  | some old =>
      rw [known] at member
      rcases List.mem_append.mp member with member | member
      · exact .inl member
      · exact .inr (places k member)

theorem BreaksBelow.keep (below : BreaksBelow inLoop c) (records : Records inLoop c c') : BreaksBelow inLoop c' := by
  intro inside k member
  rcases records.member member with member | ⟨-, lt⟩
  · exact (below inside k member).trans_le records.adds
  · exact lt

theorem Unbroken.keep (unbroken : Unbroken inLoop c k) (records : Records inLoop c c') (lt : k < c.func.pc) :
    Unbroken inLoop c' k := by
  intro inside member
  rcases records.member member with member | ⟨le, -⟩
  · exact unbroken inside member
  · exact Nat.not_lt_of_le le lt

theorem BreaksBelow.unbroken (below : BreaksBelow inLoop c) (behind : c.func.pc ≤ k) : Unbroken inLoop c k :=
  fun inside member => Nat.not_lt_of_le behind (below inside k member)

end

/-! ## The clauses of an if statement -/

theorem none_guarded : ∀ k, (fun _ : Nat => False) k → k < c.func.pc := fun _ no => no.elim

section

variable {inLoop : Bool} {S : Nat → Prop} {clauses : List Node} {escapes : List Nat}

theorem genEarlier_guarded (shaped : ∀ clause ∈ clauses, Clausal clause) (own : breaksOwnOf inLoop clauses = true) :
    Guarded S (genEarlier env clauses) c fun _ _ => True := by
  induction clauses generalizing c with
  | nil => exact .pure trivial
  | cons clause rest ih =>
      have parts := and_straight own
      refine (genClause_guarded false clause (shaped clause List.mem_cons_self) parts.1).bind fun _ c₁ _ _ => ?_
      exact ih (fun clause member => shaped clause (List.mem_cons_of_mem _ member)) parts.2

theorem genEarlier_records (own : breaksOwnOf inLoop clauses = true) : Recording inLoop (genEarlier env clauses) := by
  induction clauses with
  | nil => exact .pure _
  | cons clause rest ih =>
      have parts := and_straight own
      exact (genClause_records false clause parts.1).bind fun _ => ih parts.2

-- the escapes of the clauses in front are in the code that they get
theorem genEarlier_front (escapes : List Nat) (clause : Node) (rest : List Node) (shaped : ∀ clause ∈ before, Clausal clause)
    (own : breaksOwnOf inLoop before = true) (clear : Clear c.func.code c.func.curExp)
    (front : genEarlier env before c = .ok ((), d)) : ∃ more, (∀ k ∈ more, k < d.func.pc) ∧
      genClauses env (before ++ clause :: rest) escapes c = genClauses env (clause :: rest) (escapes ++ more) d := by
  induction before generalizing c escapes with
  | nil =>
      cases front
      exact ⟨[], fun _ none => (List.not_mem_nil none).elim, by rw [List.append_nil]; rfl⟩
  | cons first before ih =>
      have parts := and_straight own
      have others : ∀ clause ∈ before, Clausal clause := fun clause member =>
        shaped clause (List.mem_cons_of_mem _ member)
      obtain ⟨more, c₁, ran, front⟩ := bind_returns.mp front
      obtain ⟨-, clear₁, places⟩ :=
        (genClause_guarded false first (shaped first List.mem_cons_self) parts.1).run clear none_guarded ran
      obtain ⟨longer, -⟩ := (genEarlier_guarded others parts.2).run clear₁ none_guarded front
      obtain ⟨more', places', same⟩ := ih (escapes ++ more) others parts.2 clear₁ front
      refine ⟨more ++ more', fun k member => ?_, ?_⟩
      · rcases List.mem_append.mp member with member | member
        · exact (places k member).2.trans_le longer.longer
        · exact places' k member
      · have notLast : (before ++ clause :: rest).isEmpty = false := by cases before <;> rfl
        rw [List.cons_append, genClauses, notLast, bind_runs ran, same, List.append_assoc]

-- behind its body, a clause patches a jump in front of it
theorem genClause_split {last : Bool} {token : Token} {condition : Option Node}
    (known : ∀ e, condition = some e → Shaped .expression e) (all : AllShaped .statement body)
    (own : breaksOwnOf inLoop body = true) (clear : Clear c.func.code c.func.curExp)
    (ran : genClause env last (.ifClause token condition body) c = .ok (escapes, c')) :
    ∃ c₁ c₂, clauseEntry env condition c = .ok ((), c₁) ∧ genBody env body c₁ = .ok ((), c₂) ∧
      Guards (fun k => c₁.func.pc ≤ k ∧ k < c₂.func.pc) c₂ c' ∧ Clear c'.func.code c'.func.curExp ∧
      c'.breakList = c₂.breakList ∧ ∀ k ∈ escapes, c₂.func.pc ≤ k := by
  cases condition with
  | none =>
      rw [genClause] at ran
      obtain ⟨_, _, inner, ran⟩ := bind_returns.mp ran
      cases ran
      obtain ⟨-, clear', -⟩ := (genBody_guarded body all own).run clear none_guarded inner
      exact ⟨c, c', rfl, inner, .same (.refl _), clear', rfl, fun _ none => (List.not_mem_nil none).elim⟩
  | some condition =>
      rw [genClause] at ran
      obtain ⟨_, c₁, value, ran⟩ := bind_returns.mp ran
      obtain ⟨jump, c₂, test, ran⟩ := bind_returns.mp ran
      obtain ⟨_, c₃, inner, ran⟩ := bind_returns.mp ran
      have entry : clauseEntry env (some condition) c = .ok ((), c₂) :=
        bind_returns.mpr ⟨_, c₁, value, bind_returns.mpr ⟨jump, c₂, test, rfl⟩⟩
      obtain ⟨-, clear₁, -⟩ := (expression_guarded (known condition rfl)).run clear none_guarded value
      obtain ⟨-, clear₂, code, same, rfl, code₂⟩ := Guarded.genTest.run clear₁ none_guarded test
      obtain ⟨-, clear₃, -⟩ := (genBody_guarded body all own).run clear₂ none_guarded inner
      have inFront : code.length + 1 < c₂.func.pc := by
        rw [Func.pc, code₂]
        simp
      have patches {escapes' : List Nat} {c₄ : Compiler} (longer : c₃.func.pc ≤ c₄.func.pc)
          (clear₄ : Clear c₄.func.code c₄.func.curExp) (ran : (do
            patchHere (code.length + 1)
            return escapes') c₄ = .ok (escapes, c')) : escapes = escapes' ∧
          Guards (fun k => c₂.func.pc ≤ k ∧ k < c₃.func.pc) c₄ c' ∧ Clear c'.func.code c'.func.curExp ∧
          c'.breakList = c₄.breakList := by
        obtain ⟨_, c₅, patched, ran⟩ := bind_returns.mp ran
        cases ran
        have apart : ¬(c₂.func.pc ≤ code.length + 1 ∧ code.length + 1 < c₃.func.pc) := fun inside =>
          Nat.not_lt_of_le inside.1 inFront
        have run := (Guarded.patchHere (S := fun k => c₂.func.pc ≤ k ∧ k < c₃.func.pc) apart).run clear₄
          (fun k inside => inside.2.trans_le longer) patched
        obtain ⟨guards, clear₅, _, -, -, -, list⟩ := run
        exact ⟨rfl, guards, clear₅, list⟩
      split at ran
      · obtain ⟨rfl, guards, clear', list⟩ := patches le_rfl clear₃ ran
        exact ⟨c₂, c₃, entry, inner, guards, clear', list, fun _ none => (List.not_mem_nil none).elim⟩
      · obtain ⟨escape, c₄, emitted, ran⟩ := bind_returns.mp ran
        have run := (Guarded.emit (S := fun k => c₂.func.pc ≤ k ∧ k < c₃.func.pc) _).run clear₃
          (fun k inside => inside.2) emitted
        obtain ⟨guards, clear₄, rfl, -, list⟩ := run
        obtain ⟨rfl, guards', clear', list'⟩ := patches guards.longer clear₄ ran
        refine ⟨c₂, c₃, entry, inner, guards.trans guards', clear', list'.trans list, fun k member => ?_⟩
        exact (List.mem_singleton.mp member).ge

end

/-! ## What is left in the final code -/

-- the statement is compiled from `d` to `d'`, and in `final` its tests and jumps are as they are then, but for the
-- breaks that wait for the end of their loop
structure Survives (env : Env) (final : List Word) (inLoop : Bool) (node : Node) (d d' : Compiler) : Prop where
  shaped : Shaped .statement node
  own : breaksOwn inLoop node = true
  clear : Clear d.func.code d.func.curExp
  below : BreaksBelow inLoop d
  run : genNode env node d = .ok ((), d')
  kept : ∀ k, d.func.pc ≤ k → k < d'.func.pc → Unbroken inLoop d' k → ∀ i, BranchAt final k i ↔ BranchAt d'.func.code k i

variable {final : List Word} {inLoop : Bool}

theorem body_survives (shaped : AllShaped .statement (before ++ node :: after))
    (own : breaksOwnOf inLoop (before ++ node :: after) = true) (clear : Clear c.func.code c.func.curExp)
    (below : BreaksBelow inLoop c) (front : genBody env before c = .ok ((), d))
    (ran : genBody env (before ++ node :: after) c = .ok ((), c'))
    (kept : ∀ k, c.func.pc ≤ k → k < c'.func.pc → Unbroken inLoop c' k →
      ∀ i, BranchAt final k i ↔ BranchAt c'.func.code k i) : ∃ d', Survives env final inLoop node d d' := by
  rw [genBody_front front, genBody] at ran
  obtain ⟨_, d', run, ran⟩ := bind_returns.mp ran
  rw [breaksOwnOf_append] at own
  obtain ⟨ownBefore, own⟩ := and_straight own
  obtain ⟨ownNode, ownAfter⟩ := and_straight own
  have shapedBefore : AllShaped .statement before := fun node member => shaped node (List.mem_append_left _ member)
  have shapedNode : Shaped .statement node := shaped node (List.mem_append_right _ List.mem_cons_self)
  have shapedAfter : AllShaped .statement after := fun node member =>
    shaped node (List.mem_append_right _ (List.mem_cons_of_mem _ member))
  obtain ⟨first, clear₁, -⟩ := (genBody_guarded before shapedBefore ownBefore).run clear none_guarded front
  obtain ⟨second, clear₂, -⟩ := (genNode_guarded node shapedNode ownNode).run clear₁ none_guarded run
  obtain ⟨third, -⟩ := (genBody_guarded after shapedAfter ownAfter).run clear₂ (fun _ h => h) ran
  have records : Records inLoop d' c' := Recording.run (genBody_records after ownAfter) ran
  refine ⟨d', shapedNode, ownNode, clear₁, below.keep (Recording.run (genBody_records before ownBefore) front), run, ?_⟩
  intro k low high unbroken i
  refine (kept k (first.longer.trans low) (high.trans_le third.longer) (unbroken.keep records high) i).trans ?_
  exact third.kept k high i

theorem Nests.survives (nests : Nests env outer c node d) (outside : Survives env final inLoop outer c c') :
    ∃ inLoop' d', Survives env final inLoop' node d d' := by
  obtain ⟨shaped, own, clear, below, run, kept⟩ := outside
  cases nests with
  | block front =>
      rw [genNode] at run
      cases shaped with
      | doStatement all => exact ⟨inLoop, body_survives all own clear below front run kept⟩
  | clause early entry front =>
      rename_i first rest before after token condition c₁ c₂
      rw [genNode] at run
      obtain ⟨escapes, c₅, run, patched⟩ := bind_returns.mp run
      have clausal := Shaped.clausal shaped
      have parts := and_straight ((breaksOwnOf_append inLoop first _).symm.trans own)
      have ownClause := and_straight parts.2
      have ownBody : breaksOwnOf inLoop (before ++ node :: after) = true := (and_straight ownClause.1).2
      have shapedFirst : ∀ clause ∈ first, Clausal clause := fun clause member =>
        clausal clause (List.mem_append_left _ member)
      have shapedRest : ∀ clause ∈ rest, Clausal clause := fun clause member =>
        clausal clause (List.mem_append_right _ (List.mem_cons_of_mem _ member))
      obtain ⟨_, _, _, ⟨⟩, known, all⟩ := clausal _ (List.mem_append_right _ List.mem_cons_self)
      obtain ⟨more, earlier, same⟩ := genEarlier_front [] (.ifClause token condition (before ++ node :: after)) rest
        shapedFirst parts.1 clear early
      rw [same, genClauses] at run
      obtain ⟨own₁, c₄, run, others⟩ := bind_returns.mp run
      obtain ⟨longer₁, clear₁, -⟩ := (genEarlier_guarded shapedFirst parts.1).run clear none_guarded early
      obtain ⟨c₂', c₃, entry', inner, guards₃, clear₄, list₃, behind⟩ := genClause_split known all ownBody clear₁ run
      cases entry.symm.trans entry'
      obtain ⟨longer₂, clear₂, -⟩ := (clauseEntry_guarded known).run clear₁ none_guarded entry
      have guarded₅ := (genClauses_guarded (S := fun k => k < c₄.func.pc) rest _ shapedRest ownClause.2).run clear₄
        (fun _ h => h) others
      obtain ⟨guards₅, clear₅, more', rfl, later⟩ := guarded₅
      have records₅ : Records inLoop c₄ c₅ := Recording.run (genClauses_records rest _ ownClause.2) others
      have silent : c'.breakList = c₅.breakList := by
        have holds := Silent.patchAll ([] ++ more ++ own₁ ++ more') c₅
        unfold Sat at holds
        rwa [patched] at holds
      have recorded : Records inLoop c c₂ := by
        have entryRecords : Recording inLoop (clauseEntry env condition) := by
          cases condition with
          | none => exact .pure _
          | some condition =>
              exact (genNode_records condition (and_straight ownClause.1).1).bind fun _ => Recording.genTest.bind fun _ => .pure _
        exact (records_reflexive inLoop).trans (Recording.run (genEarlier_records parts.1) early)
          (Recording.run entryRecords entry)
      refine ⟨inLoop, body_survives all ownBody clear₂ (below.keep recorded) front inner fun k low high unbroken i => ?_⟩
      have high₄ : k < c₄.func.pc := high.trans_le guards₃.longer
      have high₅ : k < c₅.func.pc := high₄.trans_le guards₅.longer
      have apart : ∀ index ∈ [] ++ more ++ own₁ ++ more', ¬index = k := by
        rintro index member rfl
        rcases List.mem_append.mp member with member | member
        · rcases List.mem_append.mp member with member | member
          · exact Nat.not_lt_of_le (longer₂.longer.trans low) (earlier index member)
          · exact Nat.not_lt_of_le (behind index member) high
        · exact Nat.not_lt_of_le (later index member).1 high₄
      have patches := (Guarded.patchAll (S := fun index => index = k) apart).run clear₅ (by rintro _ rfl; exact high₅) patched
      have unbroken₄ : Unbroken inLoop c₄ k := by
        unfold Unbroken
        rw [list₃]
        exact unbroken
      have unbroken' : Unbroken inLoop c' k := by
        unfold Unbroken
        rw [silent]
        exact unbroken₄.keep records₅ high₄
      refine (kept k ((longer₁.longer.trans longer₂.longer).trans low) (high₅.trans_le patches.1.longer) unbroken' i).trans ?_
      exact (patches.1.kept k rfl i).trans ((guards₅.kept k high₄ i).trans (guards₃.kept k ⟨low, high⟩ i))
  | loop entry front =>
      rename_i before after name start stop increment c₁ entered
      cases shaped with
      | forStatementNumeric first second third all =>
          rw [genNode_numeric] at run
          obtain ⟨entered', c₁', entry', run⟩ := bind_returns.mp run
          cases entry.symm.trans entry'
          obtain ⟨_, c₂, inner, exits⟩ := bind_returns.mp run
          have parts := and_straight own
          have controls := and_straight parts.1
          have limits := and_straight controls.1
          obtain ⟨longer₁, clear₁, list⟩ := (loopEntry_guarded first second third).run clear none_guarded entry
          have entryRecords : Records inLoop c { c₁ with breakList := entered.2 } := by
            have holds : Sat (fun _ => True) (loopEntry env name _ _ _) c _ :=
              loopEntry_records name limits.1 limits.2 controls.2
            unfold Sat at holds
            rwa [entry] at holds
          have outside : BreaksBelow inLoop { c₁ with breakList := entered.2 } := below.keep entryRecords
          obtain ⟨-, clear₂, -⟩ := (genBody_guarded _ all parts.2).run clear₁ none_guarded inner
          have none : BreaksBelow true c₁ := by
            intro _ k member
            rw [list] at member
            exact (List.not_mem_nil member).elim
          refine ⟨true, body_survives all parts.2 clear₁ none front inner fun k low high unbroken i => ?_⟩
          have apart : ∀ index ∈ c₂.breakList.getD [], ¬index = k := by
            rintro index member rfl
            exact unbroken rfl member
          have left := (loopExit_guarded (S := fun index => index = k) apart).run clear₂ (by rintro _ rfl; exact high) exits
          obtain ⟨guards, -, list'⟩ := left
          have unbroken' : Unbroken inLoop c' k := by
            unfold Unbroken
            rw [list']
            exact outside.unbroken low
          refine (kept k (longer₁.longer.trans low) (high.trans_le guards.longer) unbroken' i).trans ?_
          exact guards.kept k rfl i

theorem genStatements_guarded {S : Nat → Prop} (nodes : List Node) (shaped : AllShaped .statement nodes)
    (own : breaksOwnOf inLoop nodes = true) : Guarded S (genStatements env nodes) c fun _ _ => True := by
  induction nodes generalizing c with
  | nil => exact .pure trivial
  | cons node rest ih =>
      have parts := and_straight own
      refine (genNode_guarded node (shaped node List.mem_cons_self) parts.1).bind fun _ c₁ _ _ => .getFunc ?_
      split
      · refine (Guarded.calm (Calm.modifyFunc rfl rfl)).bind fun _ c₂ _ _ => ?_
        exact ih (fun node member => shaped node (List.mem_cons_of_mem _ member)) parts.2
      · exact .throw _

-- the chunk itself is in no loop
theorem Occurs.survives (shaped : AllShaped .statement body) (own : breaksOwnOf false body = true)
    (start : Clear c₀.func.code c₀.func.curExp) (ran : genChunk env (.chunk body) c₀ = .ok ((), c))
    (occurs : Occurs env body c₀ node d) : ∃ inLoop d', Survives env c.func.code inLoop node d d' := by
  induction occurs with
  | nested _ nests ih =>
      obtain ⟨inLoop, c', outside⟩ := ih
      exact nests.survives outside
  | statement whole front =>
      rename_i before after node d
      subst whole
      obtain ⟨_, c₁, ran, ends⟩ := bind_returns.mp ran
      rw [genStatements_front front] at ran
      obtain ⟨_, d', run, ran⟩ := bind_returns.mp ran
      rw [breaksOwnOf_append] at own
      obtain ⟨ownBefore, own⟩ := and_straight own
      obtain ⟨ownNode, ownAfter⟩ := and_straight own
      have shapedBefore : AllShaped .statement before := fun node member => shaped node (List.mem_append_left _ member)
      have shapedNode : Shaped .statement node := shaped node (List.mem_append_right _ List.mem_cons_self)
      have shapedAfter : AllShaped .statement after := fun node member =>
        shaped node (List.mem_append_right _ (List.mem_cons_of_mem _ member))
      obtain ⟨-, clear, -⟩ := (genStatements_guarded before shapedBefore ownBefore).run start none_guarded front
      obtain ⟨-, clear', -⟩ := (genNode_guarded node shapedNode ownNode).run clear none_guarded run
      have rest : Framed (do
          let fs ← getFunc
          if fs.freeRegister ≤ fs.maxStackSize.val ∧ fs.numActiveLocalVars ≤ fs.freeRegister then
            onFunc (modify fun fs => { fs with freeRegister := fs.numActiveLocalVars })
            genStatements env after
          else throw .assertion) d' fun _ _ => True := by
        refine .getFunc ?_
        split
        · exact (Guarded.calm (Calm.modifyFunc rfl rfl)).bind fun _ _ _ _ => genStatements_guarded after shapedAfter ownAfter
        · exact .throw _
      obtain ⟨guards, clear₁, -⟩ := rest.run clear' (fun _ h => h) ran
      have removed {c : Compiler} : Calm (onFunc Func.removevars) c fun _ _ => True := by
        refine Calm.onFunc (Q := fun _ _ => True) (Flat.get ?_)
        split
        · exact ⟨.refl _, rfl, trivial⟩
        · exact .throw _
      have last : Framed (do
          onFunc Func.removevars
          let _ ← onFunc (Func.emitReturn 0 (some 0))) c₁ fun _ _ => True :=
        .calm (removed.bind fun _ _ _ _ => .emitReturn _ _)
      obtain ⟨guards', -⟩ := last.run clear₁ (fun _ h => h) ends
      refine ⟨false, d', shapedNode, ownNode, clear, fun no => Bool.noConfusion no, run, fun k low high _ i => ?_⟩
      exact (guards'.kept k (high.trans_le guards.longer) i).trans (guards.kept k high i)

end Zua.Compile
