import Zua.Compile.Branches
import Zua.Compile.BreakLists
import Zua.Compile.Blocks

/-!
# What is patched later

Whatever is compiled, the tests and jumps in front of it stay as they are: an offset that is filled in belongs to a
jump of the same statement. This relies on every break being in a loop of its own function.
-/

namespace Zua.Compile
open Code Syntax Parse
open Zua.Lex (Token ch)

variable {env : Env} {c c' c'' : Compiler} {S : Nat → Prop} {k : Nat} {i : Instruction}

-- the branches at the places in `S` stay as they are, and no other word of the code becomes a branch
structure Guards (S : Nat → Prop) (c c' : Compiler) : Prop where
  longer : c.func.pc ≤ c'.func.pc
  places : ∀ k < c.func.pc, ∀ i, BranchAt c'.func.code k i → ∃ j, BranchAt c.func.code k j
  kept : ∀ k, S k → ∀ i, BranchAt c'.func.code k i ↔ BranchAt c.func.code k i

namespace Guards

theorem trans (first : Guards S c c') (second : Guards S c' c'') : Guards S c c'' where
  longer := first.longer.trans second.longer
  places k inside i branch := by
    obtain ⟨j, branch⟩ := second.places k (inside.trans_le first.longer) i branch
    exact first.places k inside j branch
  kept k guarded i := (second.kept k guarded i).trans (first.kept k guarded i)

theorem same (same : SameBranches c.func.code c'.func.code) : Guards S c c' :=
  ⟨same.longer, fun k _ i branch => ⟨i, (same.same k i).mp branch⟩, fun k _ => same.same k⟩

theorem clear (guards : Guards S c c') (clear : Clear c.func.code c.func.curExp)
    (exp : c'.func.curExp = c.func.curExp) : Clear c'.func.code c'.func.curExp := by
  intro k is
  rw [exp] at is
  obtain ⟨inside, flat⟩ := clear k is
  refine ⟨inside.trans_le guards.longer, fun i branch => ?_⟩
  obtain ⟨j, branch⟩ := guards.places k inside i branch
  exact flat j branch

end Guards

-- `S` is made of places that are already in the code
def Guarded {α : Type} (S : Nat → Prop) (x : CompileM α) (c : Compiler) (Q : α → Compiler → Prop) : Prop :=
  Clear c.func.code c.func.curExp → (∀ k, S k → k < c.func.pc) →
    Sat (fun _ => True) x c fun a c' => Guards S c c' ∧ Clear c'.func.code c'.func.curExp ∧ Q a c'

namespace Guarded

variable {α β : Type} {Q : α → Compiler → Prop}

theorem pure {a : α} (h : Q a c) : Guarded S (Pure.pure a) c Q := fun clear _ => ⟨.same (.refl _), clear, h⟩

theorem throw (e : Stop) : Guarded S (MonadExcept.throw e : CompileM α) c Q := fun _ _ => trivial

theorem bind {x : CompileM α} {f : α → CompileM β} {R : β → Compiler → Prop} (first : Guarded S x c Q)
    (rest : ∀ a c', Guards S c c' → Q a c' → Guarded S (f a) c' R) : Guarded S (x >>= f) c R := by
  intro clear inside
  refine Sat.bind ((first clear inside).mono ?_)
  rintro a c' ⟨guards, clear', h⟩
  refine (rest a c' guards h clear' fun k guarded => (inside k guarded).trans_le guards.longer).mono ?_
  rintro b c'' ⟨guards', clear'', h'⟩
  exact ⟨guards.trans guards', clear'', h'⟩

theorem mono {x : CompileM α} {R : α → Compiler → Prop} (h : Guarded S x c Q) (weaker : ∀ a c', Q a c' → R a c') :
    Guarded S x c R := fun clear inside => (h clear inside).mono fun a c' ⟨guards, clear', holds⟩ =>
  ⟨guards, clear', weaker a c' holds⟩

theorem and {x : CompileM α} {R : α → Compiler → Prop} (h : Guarded S x c Q) (sat : Sat (fun _ => True) x c R) :
    Guarded S x c fun a c' => Q a c' ∧ R a c' := fun clear inside =>
  ((h clear inside).and sat).mono fun _ _ ⟨⟨guards, clear', holds⟩, also⟩ => ⟨guards, clear', holds, also⟩

theorem calm {x : CompileM α} (calm : Calm x c Q) : Guarded S x c Q := fun clear _ =>
  (calm clear).mono fun _ _ ⟨quiet, holds⟩ => ⟨.same quiet.same, quiet.clear, holds⟩

theorem getFunc {f : Func → CompileM α} (h : Guarded S (f c.func) c Q) : Guarded S (Compile.getFunc >>= f) c Q := h

-- what never gets to its end
theorem never {x : CompileM α} (stops : Sat (fun _ => True) x c fun _ _ => False) : Guarded S x c Q := fun _ _ =>
  stops.mono fun _ _ no => no.elim

/-! ## The jumps -/

theorem emit (w : Word) : Guarded S (onFunc (Func.emitWord w)) c fun index c' =>
    index = c.func.pc ∧ c'.func.code = c.func.code ++ [w] ∧ c'.breakList = c.breakList := by
  intro clear inside
  have before {k : Nat} (here : k < c.func.pc) (i : Instruction) :
      BranchAt (c.func.code ++ [w]) k i ↔ BranchAt c.func.code k i := by
    refine branchAt_append.trans (or_iff_left ?_)
    rintro ⟨end_, -⟩
    exact here.ne end_
  have guards : Guards S c { c with func := { c.func with code := c.func.code ++ [w] } } :=
    ⟨by simp [Func.pc], fun k here i branch => ⟨i, (before here i).mp branch⟩, fun k guarded => before (inside k guarded)⟩
  exact ⟨guards, guards.clear clear rfl, rfl, rfl, rfl⟩

theorem patch {index : Nat} {f : Instruction → Instruction} (other : ¬S index) (op : ∀ i, (f i).op = i.op) :
    Guarded S (onFunc (Func.patch index f)) c fun _ c' => ∃ i, c.func.code[index]? = some (.instr i) ∧
      c'.func.code = c.func.code.set index (.instr (f i)) ∧ c'.breakList = c.breakList := by
  intro clear _
  refine sat_onFunc (Sat.bind (Sat.bind (Sat.get ?_)))
  split
  · rename_i i found
    refine Sat.pure (Sat.modify ?_)
    have guards : Guards S c { c with func := { c.func with code := c.func.code.set index (.instr (f i)) } } := by
      refine ⟨by simp [Func.pc], ?_, ?_⟩
      · intro k _ j branch
        by_cases here : k = index
        · subst here
          obtain ⟨found', branch⟩ := branch
          rw [show (c.func.code.set k _)[k]? = _ from
            List.getElem?_set_self (List.getElem?_eq_some_iff.mp found).1] at found'
          cases found'
          exact ⟨i, found, by rw [← op i]; exact branch⟩
        · exact ⟨j, (branchAt_set here).mp branch⟩
      · intro k guarded j
        refine branchAt_set ?_
        rintro rfl
        exact other guarded
    exact ⟨guards, guards.clear clear rfl, i, found, rfl, rfl⟩
  · exact Sat.throw trivial

theorem patchHere {index : Nat} (other : ¬S index) : Guarded S (patchHere index) c fun _ c' => ∃ i,
    c.func.code[index]? = some (.instr i) ∧ c.func.pc - index - 1 ≤ Instruction.maxSbx ∧
      c'.func.code = c.func.code.set index (.instr (.asbx i.op i.a (c.func.pc - index - 1 : Nat))) ∧
      c'.breakList = c.breakList := by
  refine getFunc ?_
  split
  · exact throw _
  · rename_i small
    refine (patch other (by exact fun _ => rfl)).mono ?_
    rintro _ c' ⟨i, found, code, list⟩
    exact ⟨i, found, Nat.le_of_not_lt small, code, list⟩

theorem patchAll {jumps : List Nat} (others : ∀ index ∈ jumps, ¬S index) :
    Guarded S (patchAll jumps) c fun _ _ => True := by
  induction jumps generalizing c with
  | nil => exact pure trivial
  | cons index rest ih =>
      refine (patchHere (others index List.mem_cons_self)).bind fun _ c₁ _ _ => ?_
      exact ih fun index member => others index (List.mem_cons_of_mem _ member)

-- the test and the jump behind it
theorem genTest : Guarded S genTest c fun jump c' => ∃ code, SameBranches c.func.code code ∧ jump = code.length + 1 ∧
    c'.func.code = code ++ [.instr ⟨.test, 0, 0, 0⟩, .instr (.asbx .jmp 0 0)] := by
  refine (calm (Calm.nextReg.same)).bind ?_
  rintro _ c₁ - same
  refine (emit _).bind ?_
  rintro _ c₂ - ⟨-, code₂, -⟩
  refine (emit _).mono ?_
  rintro jump c₃ ⟨rfl, code₃, -⟩
  refine ⟨c₁.func.code, same, ?_, ?_⟩
  · rw [Func.pc, code₂]
    simp
  · rw [code₃, code₂]
    simp

end Guarded

-- the branches of all the code so far stay as they are
abbrev Framed {α : Type} (x : CompileM α) (c : Compiler) (Q : α → Compiler → Prop) : Prop :=
  Guarded (fun k => k < c.func.pc) x c Q

theorem Guards.weaken {S' : Nat → Prop} (guards : Guards S c c') (less : ∀ k, S' k → S k) : Guards S' c c' :=
  ⟨guards.longer, guards.places, fun k guarded => guards.kept k (less k guarded)⟩

theorem Framed.bind {α β : Type} {Q : α → Compiler → Prop} {x : CompileM α} {f : α → CompileM β}
    {R : β → Compiler → Prop} (first : Framed x c Q) (rest : ∀ a c', Guards (fun k => k < c.func.pc) c c' → Q a c' →
      Framed (f a) c' fun b c'' => Guards (fun k => k < c'.func.pc) c' c'' → R b c'') : Framed (x >>= f) c R := by
  intro clear _
  refine Sat.bind ((first clear fun _ h => h).mono ?_)
  rintro a c' ⟨guards, clear', h⟩
  refine (rest a c' guards h clear' fun _ h => h).mono ?_
  rintro b c'' ⟨guards', clear'', h'⟩
  exact ⟨guards.trans (guards'.weaken fun k inside => inside.trans_le guards.longer), clear'', h' guards'⟩

/-! ## Loops -/

theorem declareLoopVars_calm (register : Nat) (names : List Token) (index : Nat) :
    Calm (declareLoopVars register names index) c fun _ _ => True := by
  induction names generalizing index c with
  | nil => exact .pure trivial
  | cons name names ih =>
      refine (Calm.onFunc (Func.newLocalvar_flat name index)).bind fun _ _ _ _ => ?_
      exact (Calm.modifyFunc rfl rfl).bind fun _ _ _ _ => ih (index + 1)

theorem enterLoop_guarded : Guarded S enterLoop c fun outer c' =>
    outer = c.breakList ∧ c'.func = c.func ∧ c'.breakList = some [] :=
  fun clear _ => ⟨.same (.refl _), clear, rfl, rfl, rfl⟩

theorem leaveLoop_guarded (outer : Option (List Nat)) : Guarded S (leaveLoop outer) c fun breaks c' =>
    breaks = c.breakList.getD [] ∧ c'.func = c.func ∧ c'.breakList = outer :=
  fun clear _ => ⟨.same (.refl _), clear, rfl, rfl, rfl⟩

-- the jump back of the other loops overflows
theorem generic_never {names : List Token} {expressions body : List Node} :
    Sat (fun _ => True) (genNode env (.forStatementGeneric names expressions body)) c fun _ _ => False := by
  rw [genNode]
  refine Sat.bind (sat_onFunc (Sat.get ?_))
  refine sat_adds (.reserveregs _) (le_refl c.func.pc) fun _ c₁ le₁ => ?_
  refine sat_adds (genArguments_adds expressions) le₁ fun _ c₂ le₂ => ?_
  refine Sat.bind (sat_onFunc ?_)
  show Sat _ (onFunc (Func.emitAsBx .jmp 0 0) >>= _) { c₂ with func := { c₂.func with code := c₂.func.code ++ [_] } } _
  refine sat_adds (.emitAsBx _ _ _) (show c₂.func.pc ≤ _ by simp [Func.pc]) fun jump c₃ le₃ => ?_
  refine sat_adds .enterLoop le₃ fun outer c₄ le₄ => sat_adds (.declareLoopVars _ _ _) le₄ fun _ c₅ le₅ => ?_
  refine sat_adds (genBody_adds body) le₅ fun _ c₆ le₆ => ?_
  unfold Sat
  rw [jumpBack_last le₆]
  trivial

theorem loop_never {loop : Node} (isLoop : isLoop loop = true) :
    Sat (fun _ => True) (genNode env loop) c fun _ _ => False := by
  have overflows : Overflows (genNode env loop) (genLoopParts env loop) c := genNode_loop loop isLoop c
  unfold Overflows at overflows
  unfold Sat
  rw [overflows]
  cases genLoopParts env loop c <;> trivial

theorem genBreak_guarded : Guarded S genBreak c fun _ _ => True := by
  intro clear inside
  refine Sat.bind (Sat.get ?_)
  split
  · trivial
  · have emitted : Guarded S (onFunc (Func.emitAsBx .jmp 0 0)) c _ := .emit _
    refine Sat.bind ((emitted clear inside).mono ?_)
    rintro index c₁ ⟨guards, clear₁, -⟩
    exact Sat.modify ⟨⟨guards.longer, guards.places, guards.kept⟩, clear₁, trivial⟩

/-! ## Statements -/

theorem expression_calm {node : Node} (shaped : Shaped .expression node) : Quietly (genNode env node) :=
  Shaped.unjumping shaped

theorem expression_guarded {node : Node} (shaped : Shaped .expression node) :
    Guarded S (genNode env node) c fun _ _ => True :=
  .calm (expression_calm shaped c)

-- what is compiled of a numeric `for` in front of its body, and behind it
def loopControl (env : Env) (start stop : Node) (increment : Option Node) : CompileM Nat := do
  let fs ← getFunc
  onFunc (Func.reserveregs 4)
  genNode env start
  let _ ← nextReg
  genNode env stop
  let _ ← nextReg
  genIncrement env increment
  let _ ← nextReg
  let _ ← onFunc (Func.emitAsBx .forprep fs.freeRegister 0)
  return fs.freeRegister

def loopEntry (env : Env) (name : Token) (start stop : Node) (increment : Option Node) :
    CompileM (Nat × Option (List Nat)) := do
  let base ← loopControl env start stop increment
  let outer ← enterLoop
  declareLoopVars (base + 3) [name] 0
  return (base, outer)

def loopExit (base : Nat) (outer : Option (List Nat)) : CompileM Unit := do
  let _ ← onFunc (Func.emitAsBx .forloop base 0)
  let breaks ← leaveLoop outer
  leaveFor base 1 breaks

theorem genNode_numeric (name : Token) (start stop : Node) (increment : Option Node) (body : List Node) :
    genNode env (.forStatementNumeric name start stop increment body) = (do
      let (base, outer) ← loopEntry env name start stop increment
      genBody env body
      loopExit base outer) := by
  rw [genNode]
  simp only [loopEntry, loopControl, loopExit, bind_assoc, pure_bind]

theorem loopControl_guarded {start stop : Node} {increment : Option Node} (first : Shaped .expression start)
    (second : Shaped .expression stop) (third : ∀ e, increment = some e → Shaped .expression e) :
    Guarded S (loopControl env start stop increment) c fun _ _ => True := by
  refine .getFunc ((Guarded.calm (.reserveregs 4)).bind fun _ c₁ _ _ => ?_)
  refine (expression_guarded first).bind fun _ c₂ _ _ => (Guarded.calm .nextReg).bind fun _ c₃ _ _ => ?_
  refine (expression_guarded second).bind fun _ c₄ _ _ => (Guarded.calm .nextReg).bind fun _ c₅ _ _ => ?_
  have step : Quietly (genIncrement env increment) := genIncrement_calm fun e is => expression_calm (third e is)
  refine (Guarded.calm (step c₅)).bind fun _ c₆ _ _ => (Guarded.calm .nextReg).bind fun _ c₇ _ _ => ?_
  exact (Guarded.emit _).bind fun _ _ _ _ => .pure trivial

theorem loopEntry_guarded {name : Token} {start stop : Node} {increment : Option Node} (first : Shaped .expression start)
    (second : Shaped .expression stop) (third : ∀ e, increment = some e → Shaped .expression e) :
    Guarded S (loopEntry env name start stop increment) c fun _ c' => c'.breakList = some [] := by
  refine (loopControl_guarded first second third).bind fun base c₁ _ _ => enterLoop_guarded.bind ?_
  rintro outer c₂ - ⟨-, -, list⟩
  refine ((Guarded.calm (declareLoopVars_calm _ _ _)).and (Silent.declareLoopVars _ _ _ c₂)).bind ?_
  rintro _ c₃ - ⟨-, same⟩
  refine .pure ?_
  rw [show c₃.breakList = c₂.breakList from same, list]

-- what was recorded in front of the loop is in the code
theorem loopEntry_records {inLoop : Bool} (name : Token) {start stop : Node} {increment : Option Node}
    (first : breaksOwn inLoop start = true) (second : breaksOwn inLoop stop = true)
    (third : breaksOwn? inLoop increment = true) : Sat (fun _ => True) (loopEntry env name start stop increment) c
      fun entered c' => Records inLoop c { c' with breakList := entered.2 } := by
  have control : Recording inLoop (loopControl env start stop increment) := by
    refine Recording.getFunc.bind fun fs => (Recording.reserveregs 4).bind fun _ => ?_
    refine (genNode_records start first).bind fun _ => Recording.nextReg.bind fun _ => ?_
    refine (genNode_records stop second).bind fun _ => Recording.nextReg.bind fun _ => ?_
    refine (genIncrement_records increment third).bind fun _ => Recording.nextReg.bind fun _ => ?_
    exact (Recording.emitAsBx _ _ _).bind fun _ => .pure _
  refine Sat.bind ((control c).mono fun base c₁ records => sat_enterLoop ?_)
  refine Sat.bind ((Adds.declareLoopVars _ _ _ _).mono fun _ c₂ longer => Sat.pure ?_)
  have behind : Records inLoop c₁ { c₂ with breakList := c₁.breakList } := records_same longer rfl
  exact (records_reflexive inLoop).trans records behind

-- the breaks that were recorded are outside of `S`
theorem loopExit_guarded {base : Nat} {outer : Option (List Nat)} (others : ∀ index ∈ c.breakList.getD [], ¬S index) :
    Guarded S (loopExit base outer) c fun _ c' => c'.breakList = outer := by
  refine (Guarded.emit _).bind ?_
  rintro _ c₁ - ⟨-, -, same⟩
  refine (leaveLoop_guarded outer).bind ?_
  rintro breaks c₂ - ⟨rfl, -, list⟩
  rw [same]
  have left : Guarded S (leaveFor base 1 (c.breakList.getD [])) c₂ fun _ _ => True := by
    refine (Guarded.calm (.modifyFunc rfl rfl)).bind fun _ c₃ _ _ => ?_
    exact (Guarded.patchAll others).bind fun _ c₄ _ _ => .calm (.modifyFunc rfl rfl)
  refine (left.and (Silent.leaveFor base 1 _ c₂)).mono ?_
  rintro _ c' ⟨-, silent⟩
  rw [show c'.breakList = c₂.breakList from silent, list]

theorem clauseEntry_guarded {condition : Option Node} (shaped : ∀ e, condition = some e → Shaped .expression e) :
    Guarded S (clauseEntry env condition) c fun _ _ => True := by
  cases condition with
  | none => exact .pure trivial
  | some condition =>
      refine (expression_guarded (shaped condition rfl)).bind fun _ c₁ _ _ => ?_
      exact Guarded.genTest.bind fun _ _ _ _ => .pure trivial

mutual

theorem genNode_guarded {inLoop : Bool} {c : Compiler} (node : Node) (shaped : Shaped .statement node)
    (own : breaksOwn inLoop node = true) : Guarded S (genNode env node) c fun _ _ => True := by
  cases node with
  | call | assignmentStatement | returnStatement | functionDeclaration => exact .calm (statement_calm shaped rfl c)
  | doStatement body =>
      cases shaped with
      | doStatement all =>
          rw [genNode]
          exact genBody_guarded body all own
  | ifStatement clauses =>
      rw [genNode]
      intro clear inside
      refine ((genClauses_guarded clauses [] (Shaped.clausal shaped) own).bind ?_) clear inside
      rintro escapes c₁ - ⟨more, rfl, behind⟩
      refine .patchAll fun index member guarded => ?_
      exact Nat.not_lt_of_le (behind index member).1 (inside index guarded)
  | breakStatement _ =>
      rw [genNode]
      exact genBreak_guarded
  | whileStatement | repeatStatement => exact .never (loop_never rfl)
  | forStatementGeneric => exact .never generic_never
  | forStatementNumeric name start stop increment body =>
      cases shaped with
      | forStatementNumeric first second third all =>
          have own : breaksOwnOf true body = true := (and_straight own).2
          rw [genNode_numeric]
          intro clear inside
          refine ((loopEntry_guarded first second third).bind ?_) clear inside
          rintro ⟨base, outer⟩ c₁ guards list
          refine ((genBody_guarded body all own).and (genBody_records body own c₁)).bind ?_
          rintro _ c₂ - ⟨-, -, breaks, recorded, -, behind⟩
          rw [list] at recorded
          refine (loopExit_guarded fun index member guarded => ?_).mono fun _ _ _ => trivial
          rw [recorded] at member
          have later := (behind index (by simpa using member)).1
          exact Nat.not_lt_of_le (guards.longer.trans later) (inside index guarded)
  | _ => cases shaped

theorem genBody_guarded {inLoop : Bool} {c : Compiler} (nodes : List Node) (shaped : AllShaped .statement nodes)
    (own : breaksOwnOf inLoop nodes = true) : Guarded S (genBody env nodes) c fun _ _ => True := by
  cases nodes with
  | nil =>
      rw [genBody]
      exact .pure trivial
  | cons node rest =>
      have parts := and_straight own
      rw [genBody]
      refine (genNode_guarded node (shaped node List.mem_cons_self) parts.1).bind fun _ c₁ _ _ => ?_
      exact genBody_guarded rest (fun node member => shaped node (List.mem_cons_of_mem _ member)) parts.2

-- an escape is emitted behind the body
theorem genClause_guarded {inLoop : Bool} {c : Compiler} (last : Bool) (clause : Node) (shaped : Clausal clause)
    (own : breaksOwn inLoop clause = true) : Guarded S (genClause env last clause) c fun escapes c' =>
      ∀ index ∈ escapes, c.func.pc ≤ index ∧ index < c'.func.pc := by
  cases clause with
  | ifClause token condition body =>
      obtain ⟨_, _, _, ⟨⟩, known, all⟩ := shaped
      have parts := and_straight own
      intro clear inside
      cases condition with
      | none =>
          rw [genClause]
          refine ((genBody_guarded body all parts.2).bind fun _ c₁ _ _ => .pure ?_) clear inside
          exact fun _ none => (List.not_mem_nil none).elim
      | some condition =>
          rw [genClause]
          refine ((expression_guarded (known condition rfl)).bind fun _ c₁ guards₁ _ => ?_) clear inside
          refine Guarded.genTest.bind ?_
          rintro jump c₂ guards₂ ⟨code, same, rfl, -⟩
          have first : c.func.pc ≤ code.length := guards₁.longer.trans same.longer
          refine (genBody_guarded body all parts.2).bind fun _ c₃ guards₃ _ => ?_
          have other : ¬S (code.length + 1) := fun guarded => by
            have := inside _ guarded
            omega
          split
          · exact (Guarded.patchHere other).bind fun _ _ _ _ => .pure fun _ none => (List.not_mem_nil none).elim
          · refine (Guarded.emit _).bind ?_
            rintro index c₄ - ⟨rfl, code₄, -⟩
            refine (Guarded.patchHere other).bind fun _ c₅ guards₅ _ => .pure fun index member => ?_
            rw [List.mem_singleton.mp member]
            refine ⟨guards₁.longer.trans (guards₂.longer.trans guards₃.longer), Nat.lt_of_lt_of_le ?_ guards₅.longer⟩
            rw [Func.pc, Func.pc, code₄, List.length_append]
            exact Nat.lt_succ_self _
  | _ => obtain ⟨_, _, _, ⟨⟩, -⟩ := shaped

theorem genClauses_guarded {inLoop : Bool} {c : Compiler} (clauses : List Node) (escapes : List Nat)
    (shaped : ∀ clause ∈ clauses, Clausal clause) (own : breaksOwnOf inLoop clauses = true) :
    Guarded S (genClauses env clauses escapes) c fun all c' =>
      ∃ more, all = escapes ++ more ∧ ∀ index ∈ more, c.func.pc ≤ index ∧ index < c'.func.pc := by
  cases clauses with
  | nil =>
      rw [genClauses]
      exact .pure ⟨[], (List.append_nil _).symm, fun _ none => (List.not_mem_nil none).elim⟩
  | cons clause rest =>
      have parts := and_straight own
      rw [genClauses]
      refine (genClause_guarded _ clause (shaped clause List.mem_cons_self) parts.1).bind fun first c₁ guards behind => ?_
      refine ((genClauses_guarded rest _ (fun clause member => shaped clause (List.mem_cons_of_mem _ member)) parts.2).and
        (genClauses_adds rest _ c₁)).mono ?_
      rintro all c₂ ⟨⟨more, rfl, behind'⟩, longer⟩
      refine ⟨first ++ more, List.append_assoc _ _ _, fun index member => ?_⟩
      rcases List.mem_append.mp member with member | member
      · exact ⟨(behind index member).1, (behind index member).2.trans_le longer⟩
      · exact ⟨guards.longer.trans (behind' index member).1, (behind' index member).2⟩

end

end Zua.Compile
