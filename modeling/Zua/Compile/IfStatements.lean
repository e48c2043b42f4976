import Zua.Compile.Occurrences
import Zua.Vm.Execute

/-!
# The jumps of if statements

Each condition is followed by a test and by a jump to the next clause, each body but the last by a jump behind the
whole statement. The offsets are filled in as the places are reached, with the code of inner statements in between.
-/

namespace Zua.Compile
open Code Syntax Parse
open Zua.Lex (Token ch)

variable {env : Env} {c c' : Compiler} {code code' : List Word} {k target start stop next : Nat}

/-! ## Where the code of a statement lies -/

-- `executeLua` goes on at `target` behind the jump at `k`
def Jumps (code : List Word) (k target : Nat) : Prop :=
  ∃ i j, code[k]? = some (.instr i) ∧ i.op = .jmp ∧ Instruction.ofWord i.word = some j ∧ j.op = .jmp ∧
    Vm.jump k j.sbx = .ok target

def Tests (code : List Word) (k : Nat) : Prop := code[k]? = some (.instr ⟨.test, 0, 0, 0⟩)

def Jumpless (code : List Word) (start stop : Nat) : Prop := ∀ k i, start ≤ k → k < stop → ¬BranchAt code k i

-- the jumps stay in the range, or go to the place right behind it
def Confined (code : List Word) (start stop : Nat) : Prop :=
  ∀ k target, start ≤ k → k < stop → Jumps code k target → start ≤ target ∧ target ≤ stop

mutual

-- the code of the statement starts at `start`, and `stop` is the first place behind it
def Laid (code : List Word) : Node → Nat → Nat → Prop
  | .ifStatement clauses, start, stop => LaidClauses code stop clauses start
  | .doStatement body, start, stop => LaidBody code body start stop
  | _, start, stop => start ≤ stop ∧ Jumpless code start stop

def LaidBody (code : List Word) : List Node → Nat → Nat → Prop
  | [], start, stop => start = stop
  | node :: rest, start, stop => ∃ next, Laid code node start next ∧ LaidBody code rest next stop

-- the clause starts at `start`, the next one at `next`; `stop` is behind the whole statement
def LaidClause (code : List Word) (stop : Nat) (last : Bool) : Node → Nat → Nat → Prop
  | .ifClause _ (some _) body, start, next => ∃ test bodyStop,
      start ≤ test ∧ Jumpless code start test ∧ Tests code test ∧ Jumps code (test + 1) next ∧
      LaidBody code body (test + 2) bodyStop ∧ Confined code (test + 2) bodyStop ∧
      (if last then next = bodyStop else Jumps code bodyStop stop ∧ next = bodyStop + 1)
  | .ifClause _ none body, start, next => LaidBody code body start next ∧ Confined code start next
  | _, _, _ => False

def LaidClauses (code : List Word) (stop : Nat) : List Node → Nat → Prop
  | [], start => start = stop
  | clause :: rest, start => ∃ next,
      LaidClause code stop rest.isEmpty clause start next ∧ LaidClauses code stop rest next

end

mutual

-- if statements and `do` blocks around statements without blocks
def isNested : Node → Bool
  | .ifStatement clauses => areNested clauses
  | .ifClause _ _ body => areNested body
  | .doStatement body => areNested body
  | node => isUnjumping node

def areNested : List Node → Bool
  | [] => true
  | node :: rest => isNested node && areNested rest

end

/-! ## Jumps -/

theorem Jumps.branch (jumps : Jumps code k target) : ∃ i, BranchAt code k i ∧ i.op = .jmp := by
  obtain ⟨i, _, found, op, -⟩ := jumps
  exact ⟨i, ⟨found, by rw [op]; rfl⟩, op⟩

theorem Jumps.unique {target' : Nat} (first : Jumps code k target) (second : Jumps code k target') : target = target' := by
  obtain ⟨i, j, found, -, decoded, -, goes⟩ := first
  obtain ⟨i', j', found', -, decoded', -, goes'⟩ := second
  cases found.symm.trans found'
  cases decoded.symm.trans decoded'
  cases goes.symm.trans goes'
  rfl

-- only the branch at the place matters
theorem Jumps.keep (jumps : Jumps code k target) (same : ∀ i, BranchAt code' k i ↔ BranchAt code k i) :
    Jumps code' k target := by
  obtain ⟨i, j, found, op, rest⟩ := jumps
  have branch : BranchAt code k i := ⟨found, by rw [op]; rfl⟩
  exact ⟨i, j, ((same i).mpr branch).1, op, rest⟩

theorem Tests.keep (tests : Tests code k) (same : ∀ i, BranchAt code' k i ↔ BranchAt code k i) : Tests code' k :=
  ((same _).mpr ⟨tests, rfl⟩).1

theorem jumps_offset {offset : Nat} (found : code[k]? = some (.instr (.asbx .jmp 0 (offset : Nat))))
    (small : offset ≤ Instruction.maxSbx) : Jumps code k (k + offset + 1) := by
  have bx : ((offset : Int) + Instruction.maxSbx).toNat = offset + Instruction.maxSbx := by omega
  have fits : (Instruction.asbx .jmp 0 (offset : Nat)).Fits := by
    unfold Instruction.maxSbx at small bx
    refine ⟨Nat.zero_lt_succ _, ?_, Nat.mod_lt _ (by decide)⟩
    show ((offset : Int) + Instruction.maxSbx).toNat / 512 < 512
    unfold Instruction.maxSbx
    omega
  refine ⟨_, _, found, rfl, Instruction.ofWord_word fits, rfl, ?_⟩
  have value : (Instruction.asbx .jmp 0 (offset : Nat)).sbx = offset := by
    show (((Instruction.abx .jmp 0 _).bx : Nat) : Int) - Instruction.maxSbx = offset
    rw [Instruction.bx_abx, bx]
    omega
  rw [value, Vm.jump, if_neg (by omega)]
  congr 1

/-! ## Inner statements -/

theorem Jumpless.confined (jumpless : Jumpless code start stop) : Confined code start stop := by
  intro k target le lt jumps
  obtain ⟨i, branch, -⟩ := jumps.branch
  exact (jumpless k i le lt branch).elim

theorem Confined.append (first : Confined code start next) (second : Confined code next stop) (le : start ≤ next)
    (le' : next ≤ stop) : Confined code start stop := by
  intro k target lower upper jumps
  rcases Nat.lt_or_ge k next with before | behind
  · obtain ⟨low, high⟩ := first k target lower before jumps
    exact ⟨low, high.trans le'⟩
  · obtain ⟨low, high⟩ := second k target behind upper jumps
    exact ⟨le.trans low, high⟩

mutual

theorem Laid.confined (node : Node) {start stop : Nat} (laid : Laid code node start stop) :
    start ≤ stop ∧ Confined code start stop := by
  cases node with
  | ifStatement clauses => exact LaidClauses.confined clauses laid
  | doStatement body => exact LaidBody.confined body laid
  | _ => exact ⟨laid.1, laid.2.confined⟩

theorem LaidBody.confined (nodes : List Node) {start stop : Nat} (laid : LaidBody code nodes start stop) :
    start ≤ stop ∧ Confined code start stop := by
  cases nodes with
  | nil =>
      cases laid
      exact ⟨le_rfl, fun k _ le lt => (Nat.not_lt_of_le le lt).elim⟩
  | cons node rest =>
      obtain ⟨next, first, others⟩ := laid
      obtain ⟨le, first⟩ := Laid.confined node first
      obtain ⟨le', others⟩ := LaidBody.confined rest others
      exact ⟨le.trans le', first.append others le le'⟩

theorem LaidClauses.confined (clauses : List Node) {start stop : Nat} (laid : LaidClauses code stop clauses start) :
    start ≤ stop ∧ Confined code start stop := by
  cases clauses with
  | nil =>
      cases laid
      exact ⟨le_rfl, fun k _ le lt => (Nat.not_lt_of_le le lt).elim⟩
  | cons clause rest =>
      obtain ⟨next, first, others⟩ := laid
      obtain ⟨le', others⟩ := LaidClauses.confined rest others
      cases clause with
      | ifClause token condition body =>
          cases condition with
          | none =>
              obtain ⟨laid, confined⟩ := first
              have le := (LaidBody.confined body laid).1
              exact ⟨le.trans le', confined.append others le le'⟩
          | some condition =>
              obtain ⟨test, bodyStop, low, jumpless, tests, skips, laid, confined, ends⟩ := first
              have inner := (LaidBody.confined body laid).1
              have escape : bodyStop ≤ next ∧ ∀ k target, bodyStop ≤ k → k < next → Jumps code k target → target = stop := by
                split at ends
                · subst ends
                  exact ⟨le_rfl, fun k _ low high => (Nat.not_lt_of_le low high).elim⟩
                · obtain ⟨escapes, rfl⟩ := ends
                  refine ⟨Nat.le_succ _, fun k target low high jumps => ?_⟩
                  obtain rfl : k = bodyStop := by omega
                  exact jumps.unique escapes
              refine ⟨by omega, fun k target lower upper jumps => ?_⟩
              obtain ⟨i, branch, op⟩ := jumps.branch
              -- the condition, the test, the jump, the body, the escape, the other clauses
              have places : k < test ∨ k = test ∨ k = test + 1 ∨ (test + 2 ≤ k ∧ k < bodyStop) ∨
                  (bodyStop ≤ k ∧ k < next) ∨ next ≤ k := by omega
              rcases places with here | rfl | rfl | ⟨above, below⟩ | ⟨above, below⟩ | above
              · exact (jumpless k i lower here branch).elim
              · cases tests.symm.trans branch.1
                cases op
              · rw [jumps.unique skips]
                omega
              · have range := confined k target above below jumps
                omega
              · have same := escape.2 k target above below jumps
                omega
              · have range := others k target above upper jumps
                omega
      | _ => exact first.elim

end

/-! ## Compiling -/

-- the later code has the same branches, apart from the escapes that are still to be patched
def Alike (escapes : List Nat) (code later : List Word) (start stop : Nat) : Prop :=
  ∀ k, start ≤ k → k < stop → k ∉ escapes → ∀ i, BranchAt later k i ↔ BranchAt code k i

def Unpatched (code : List Word) (k : Nat) : Prop := ∃ i, code[k]? = some (.instr i) ∧ i.op = .jmp ∧ i.a = 0

theorem Unpatched.keep (unpatched : Unpatched code k) (same : ∀ i, BranchAt code' k i ↔ BranchAt code k i) : Unpatched code' k := by
  obtain ⟨i, found, op, a⟩ := unpatched
  exact ⟨i, ((same i).mpr ⟨found, by rw [op]; rfl⟩).1, op, a⟩

theorem Unpatched.lt (unpatched : Unpatched code k) : k < code.length := by
  obtain ⟨i, found, -⟩ := unpatched
  exact (List.getElem?_eq_some_iff.mp found).1

theorem patchHere_jumps (unpatched : Unpatched c.func.code k) : Sat (fun _ => True) (patchHere k) c fun _ c' =>
    ∃ offset ≤ Instruction.maxSbx, k + offset + 1 = c.func.pc ∧
      c'.func.code = c.func.code.set k (.instr (.asbx .jmp 0 (offset : Nat))) := by
  have inside : k < c.func.pc := unpatched.lt
  obtain ⟨i, found, op, a⟩ := unpatched
  refine Sat.bind (sat_onFunc (Sat.get ?_))
  split
  · trivial
  · rename_i small
    refine sat_onFunc (Sat.bind (Sat.bind (Sat.get ?_)))
    rw [found]
    refine Sat.pure (Sat.modify ⟨c.func.pc - k - 1, Nat.le_of_not_lt small, by omega, ?_⟩)
    show c.func.code.set k (.instr (.asbx i.op i.a (c.func.pc - k - 1 : Nat))) = _
    rw [op, a]

-- every escape ends at the place that is reached
theorem patchAll_jumps {escapes : List Nat} (unpatched : ∀ k ∈ escapes, Unpatched c.func.code k) :
    Sat (fun _ => True) (patchAll escapes) c fun _ c' => c'.func.pc = c.func.pc ∧
      (∀ k ∈ escapes, Jumps c'.func.code k c.func.pc) ∧
      ∀ k, k ∉ escapes → ∀ i, BranchAt c'.func.code k i ↔ BranchAt c.func.code k i := by
  induction escapes generalizing c with
  | nil => exact Sat.pure ⟨rfl, fun _ none => (List.not_mem_nil none).elim, fun _ _ _ => Iff.rfl⟩
  | cons index rest ih =>
      have first := unpatched index List.mem_cons_self
      refine Sat.bind ((patchHere_jumps first).mono ?_)
      rintro _ c₁ ⟨offset, small, place, code⟩
      have length : c₁.func.pc = c.func.pc := by
        unfold Func.pc
        rw [code, List.length_set]
      have found : c₁.func.code[index]? = some (.instr (.asbx .jmp 0 (offset : Nat))) := by
        rw [code]
        exact List.getElem?_set_self first.lt
      have goes : Jumps c₁.func.code index c.func.pc := by
        rw [← place]
        exact jumps_offset found small
      have others {k : Nat} (other : k ≠ index) (i : Instruction) : BranchAt c₁.func.code k i ↔ BranchAt c.func.code k i := by
        rw [code]
        exact branchAt_set other
      refine (ih fun k member => ?_).mono ?_
      · by_cases same : k = index
        · subst same
          exact ⟨_, found, rfl, rfl⟩
        · exact (unpatched k (List.mem_cons_of_mem _ member)).keep (others same)
      · rintro _ c₂ ⟨length', jumps, kept⟩
        rw [length] at length' jumps
        refine ⟨length', fun k member => ?_, fun k other i => ?_⟩
        · by_cases behind : k ∈ rest
          · exact jumps k behind
          · obtain rfl : k = index := (List.mem_cons.mp member).resolve_right behind
            exact goes.keep (kept k behind)
        · have apart : k ≠ index ∧ k ∉ rest := by simpa using other
          exact (kept k apart.2 i).trans (others apart.1 i)

-- the places of a clause with a condition: `tested` is what is compiled in front of the body, the escape is in `extra`
theorem laid_condition {before condition tested inner extra patched later : List Word} {body : List Node}
    {escapes : List Nat} {offset : Nat} (same : SameBranches before condition)
    (tested_eq : tested = condition ++ [.instr ⟨.test, 0, 0, 0⟩, .instr (.asbx .jmp 0 0)])
    (longer : tested.length ≤ inner.length)
    (kept : ∀ k < tested.length, ∀ i, BranchAt inner k i ↔ BranchAt tested k i)
    (laid : ∀ later, Alike [] inner later tested.length inner.length → LaidBody later body tested.length inner.length)
    (small : offset ≤ Instruction.maxSbx) (place : condition.length + 1 + offset + 1 = (inner ++ extra).length)
    (patched_eq : patched = (inner ++ extra).set (condition.length + 1) (.instr (.asbx .jmp 0 (offset : Nat))))
    (behind : ∀ k ∈ escapes, inner.length ≤ k) (alike : Alike escapes patched later before.length patched.length) :
    before.length ≤ condition.length ∧ Jumpless later before.length condition.length ∧ Tests later condition.length ∧
      Jumps later (condition.length + 1) patched.length ∧
      LaidBody later body (condition.length + 2) inner.length ∧ Confined later (condition.length + 2) inner.length := by
  have length : tested.length = condition.length + 2 := by rw [tested_eq]; simp
  have total : patched.length = (inner ++ extra).length := by rw [patched_eq, List.length_set]
  have more : inner.length ≤ patched.length := by rw [total]; simp
  -- in front of the escape the branches are those of `inner`, apart from the jump
  have through {k : Nat} (low : before.length ≤ k) (high : k < inner.length) (other : k ≠ condition.length + 1)
      (i : Instruction) : BranchAt later k i ↔ BranchAt inner k i := by
    refine (alike k low (high.trans_le more) (fun member => Nat.not_lt_of_le (behind k member) high) i).trans ?_
    rw [patched_eq]
    refine (branchAt_set other).trans ?_
    unfold BranchAt
    rw [List.getElem?_append_left high]
  have start := same.longer
  have front {k : Nat} (low : before.length ≤ k) (high : k < condition.length + 1) (i : Instruction) :
      BranchAt later k i ↔ BranchAt tested k i :=
    (through low (by omega) (by omega) i).trans (kept k (by omega) i)
  have body : LaidBody later body tested.length inner.length :=
    laid later fun k low high _ i => through (by omega) high (by omega) i
  rw [length] at body
  refine ⟨start, ?_, ?_, ?_, body, (LaidBody.confined _ body).2⟩
  · intro k i low high branch
    have inTested := (front low (by omega) i).mp branch
    unfold BranchAt at inTested
    rw [tested_eq, List.getElem?_append_left high] at inTested
    exact Nat.not_lt_of_le low ((same.same k i).mp inTested).lt
  · refine ((front start (Nat.lt_succ_self _) _).mpr ⟨?_, rfl⟩).1
    rw [tested_eq]
    simp
  · have found : patched[condition.length + 1]? = some (.instr (.asbx .jmp 0 (offset : Nat))) := by
      rw [patched_eq]
      refine List.getElem?_set_self ?_
      rw [← total]
      omega
    have jumps := jumps_offset found small
    rw [place, ← total] at jumps
    refine jumps.keep fun i => alike _ (by omega) (by omega) (fun member => ?_) i
    have high := behind _ member
    omega

/-! ## What the generators lay out -/

-- in all later code with the same branches
def Lays (node : Node) (c c' : Compiler) : Prop :=
  ∀ later, Alike [] c'.func.code later c.func.pc c'.func.pc → Laid later node c.func.pc c'.func.pc

def LaysBody (nodes : List Node) (c c' : Compiler) : Prop :=
  ∀ later, Alike [] c'.func.code later c.func.pc c'.func.pc → LaidBody later nodes c.func.pc c'.func.pc

def LaysClause (last : Bool) (clause : Node) (c : Compiler) (escapes : List Nat) (c' : Compiler) : Prop :=
  ∀ later stop, Alike escapes c'.func.code later c.func.pc c'.func.pc → (∀ k ∈ escapes, Jumps later k stop) →
    LaidClause later stop last clause c.func.pc c'.func.pc

def LaysClauses (clauses : List Node) (c : Compiler) (escapes : List Nat) (c' : Compiler) : Prop :=
  ∀ later, Alike escapes c'.func.code later c.func.pc c'.func.pc → (∀ k ∈ escapes, Jumps later k c'.func.pc) →
    LaidClauses later c'.func.pc clauses c.func.pc

-- escapes of the code between two states
def Escapes (escapes : List Nat) (c c' : Compiler) : Prop :=
  ∀ k ∈ escapes, c.func.pc ≤ k ∧ Unpatched c'.func.code k

theorem genNode_plain {node : Node} (shaped : Shaped .statement node) (plain : isUnjumping node = true) :
    Framed (genNode env node) c fun _ c' => Lays node c c' := by
  refine (Guarded.calm (statement_calm shaped plain c).same).mono ?_
  intro _ c' same later alike
  have jumpless : Jumpless later c.func.pc c'.func.pc := by
    intro k i low high branch
    have before := (same.same k i).mp ((alike k low high List.not_mem_nil i).mp branch)
    exact Nat.not_lt_of_le low before.lt
  cases node with
  | call | assignmentStatement | returnStatement | functionDeclaration => exact ⟨same.longer, jumpless⟩
  | _ => cases plain

theorem Guarded.gives {α : Type} {S : Nat → Prop} {x : CompileM α} {Q R : α → Compiler → Prop} (guarded : Guarded S x c Q)
    (holds : Clear c.func.code c.func.curExp → Sat (fun _ => True) x c R) : Guarded S x c R := fun clear inside =>
  ((guarded clear inside).and (holds clear)).mono fun _ _ ⟨⟨guards, clear', _⟩, h⟩ => ⟨guards, clear', h⟩

mutual

theorem genNode_lays {inLoop : Bool} {c : Compiler} (node : Node) (nested : isNested node = true)
    (shaped : Shaped .statement node) (own : breaksOwn inLoop node = true) :
    Framed (genNode env node) c fun _ c' => Lays node c c' := by
  cases node with
  | call | assignmentStatement | returnStatement | functionDeclaration => exact genNode_plain shaped rfl
  | doStatement body =>
      cases shaped with
      | doStatement all =>
          rw [genNode]
          exact (genBody_lays body nested all own).mono fun _ _ lays => lays
  | ifStatement clauses =>
      refine (genNode_guarded _ shaped own).gives fun clear => ?_
      rw [genNode]
      refine Sat.bind ((genClauses_lays clauses [] nested (Shaped.clausal shaped) own clear fun _ h => h).mono ?_)
      rintro _ c₁ ⟨-, clear₁, escapes, rfl, own, lays⟩
      refine (patchAll_jumps fun k member => (own k member).2).mono ?_
      rintro _ c₂ ⟨length, jumps, kept⟩ later alike
      unfold Laid
      rw [length] at alike ⊢
      refine lays later (fun k low high other i => (alike k low high List.not_mem_nil i).trans (kept k other i)) ?_
      intro k member
      obtain ⟨low, unpatched⟩ := own k member
      exact (jumps k member).keep fun i => alike k low unpatched.lt List.not_mem_nil i
  | ifClause => cases shaped
  | _ => cases nested

theorem genBody_lays {inLoop : Bool} {c : Compiler} (nodes : List Node) (nested : areNested nodes = true)
    (shaped : AllShaped .statement nodes) (own : breaksOwnOf inLoop nodes = true) :
    Framed (genBody env nodes) c fun _ c' => LaysBody nodes c c' := by
  cases nodes with
  | nil =>
      rw [genBody]
      exact .pure fun _ _ => rfl
  | cons node rest =>
      have parts := and_straight nested
      have breaks := and_straight own
      rw [genBody]
      refine Framed.bind (genNode_lays node parts.1 (shaped node List.mem_cons_self) breaks.1) fun _ c₁ before lays => ?_
      refine (genBody_lays rest parts.2 (fun node member => shaped node (List.mem_cons_of_mem _ member)) breaks.2).mono ?_
      intro _ c₂ lays' guards later alike
      refine ⟨c₁.func.pc, lays later fun k low high _ i => ?_, lays' later fun k low high => ?_⟩
      · exact (alike k low (high.trans_le guards.longer) List.not_mem_nil i).trans (guards.kept k high i)
      · exact alike k (before.longer.trans low) high

theorem genClause_lays {inLoop : Bool} {c : Compiler} (last : Bool) (clause : Node) (nested : isNested clause = true)
    (shaped : Clausal clause) (own : breaksOwn inLoop clause = true) :
    Framed (genClause env last clause) c fun escapes c' => Escapes escapes c c' ∧ LaysClause last clause c escapes c' := by
  cases clause with
  | ifClause token condition body =>
      refine (genClause_guarded last _ shaped own).gives fun clear => ?_
      obtain ⟨_, _, _, ⟨⟩, known, all⟩ := shaped
      have breaks := and_straight own
      cases condition with
      | none =>
          rw [genClause]
          refine Sat.bind ((genBody_lays body nested all breaks.2 clear fun _ h => h).mono ?_)
          rintro _ c₁ ⟨-, -, lays⟩
          refine Sat.pure ⟨fun _ none => (List.not_mem_nil none).elim, fun later stop alike _ => ?_⟩
          exact ⟨lays later alike, (LaidBody.confined body (lays later alike)).2⟩
      | some condition =>
          rw [genClause]
          have value : Quietly (genNode env condition) := expression_calm (known condition rfl)
          refine Sat.bind ((value c clear).mono ?_)
          rintro _ c₁ ⟨quiet, -⟩
          refine Sat.bind ((Guarded.genTest quiet.clear none_guarded).mono ?_)
          rintro jump c₂ ⟨-, clear₂, tested, same, rfl, code₂⟩
          refine Sat.bind ((genBody_lays body nested all breaks.2 clear₂ fun _ h => h).mono ?_)
          rintro _ c₃ ⟨guards, clear₃, lays⟩
          have first : SameBranches c.func.code tested := quiet.same.trans same
          have jumpAt : BranchAt c₃.func.code (tested.length + 1) (.asbx .jmp 0 0) := by
            refine (guards.kept _ ?_ _).mpr ⟨?_, rfl⟩
            · show tested.length + 1 < c₂.func.code.length
              rw [code₂]
              simp
            · rw [code₂]
              simp
          -- the condition's jump is patched behind the escape, when there is one
          have patched {c₄ : Compiler} {extra : List Word} (code₄ : c₄.func.code = c₃.func.code ++ extra)
              {escapes : List Nat} (behind : ∀ k ∈ escapes, c₃.func.pc ≤ k)
              (ends : ∀ later stop, (∀ k ∈ escapes, Jumps later k stop) → if last then c₄.func.pc = c₃.func.pc
                else Jumps later c₃.func.pc stop ∧ c₄.func.pc = c₃.func.pc + 1)
              (waiting : ∀ k ∈ escapes, Unpatched c₄.func.code k) : Sat (fun _ => True) (do
                patchHere (tested.length + 1)
                return escapes) c₄ fun escapes c' => Escapes escapes c c' ∧
                  LaysClause last (.ifClause token (some condition) body) c escapes c' := by
            have found : c₄.func.code[tested.length + 1]? = some (.instr (.asbx .jmp 0 0)) := by
              rw [code₄, List.getElem?_append_left jumpAt.lt]
              exact jumpAt.1
            refine Sat.bind ((patchHere_jumps ⟨_, found, rfl, rfl⟩).mono ?_)
            rintro _ c₅ ⟨offset, small, place, code₅⟩
            have length : c₅.func.pc = c₄.func.pc := by
              unfold Func.pc
              rw [code₅, List.length_set]
            refine Sat.pure ⟨fun k member => ⟨?_, ?_⟩, fun later stop alike goes => ?_⟩
            · have low := behind k member
              have longer := guards.longer
              have start := first.longer
              unfold Func.pc at low longer ⊢
              rw [code₂] at longer
              simp at longer
              omega
            · refine (waiting k member).keep fun i => ?_
              rw [code₅]
              refine branchAt_set ?_
              have low := behind k member
              have inside := jumpAt.lt
              unfold Func.pc at low
              omega
            · have parts := laid_condition first code₂ guards.longer guards.kept lays small
                (by rw [place, Func.pc, code₄]) (by rw [code₅, code₄]) behind alike
              obtain ⟨low, jumpless, tests, jumps, laid, confined⟩ := parts
              refine ⟨tested.length, c₃.func.pc, low, jumpless, tests, jumps, laid, confined, ?_⟩
              rw [length]
              exact ends later stop goes
          split
          · rename_i isLast
            refine patched (List.append_nil _).symm (fun _ none => (List.not_mem_nil none).elim) (fun _ _ _ => ?_)
              (fun _ none => (List.not_mem_nil none).elim)
            rw [if_pos isLast]
          · rename_i notLast
            refine Sat.bind ((Guarded.emit _ clear₃ none_guarded).mono ?_)
            rintro index c₄ ⟨-, -, rfl, code₄, -⟩
            refine patched code₄ (fun k member => (List.mem_singleton.mp member).ge) (fun later stop goes => ?_) ?_
            · rw [if_neg notLast]
              refine ⟨goes _ List.mem_cons_self, ?_⟩
              unfold Func.pc
              rw [code₄]
              simp
            · intro k member
              rw [List.mem_singleton.mp member, code₄]
              exact ⟨_, List.getElem?_concat_length, rfl, rfl⟩
  | _ => obtain ⟨_, _, _, ⟨⟩, -⟩ := shaped

theorem genClauses_lays {inLoop : Bool} {c : Compiler} (clauses : List Node) (before : List Nat)
    (nested : areNested clauses = true) (shaped : ∀ clause ∈ clauses, Clausal clause)
    (own : breaksOwnOf inLoop clauses = true) : Framed (genClauses env clauses before) c fun all c' =>
      ∃ escapes, all = before ++ escapes ∧ Escapes escapes c c' ∧ LaysClauses clauses c escapes c' := by
  cases clauses with
  | nil =>
      rw [genClauses]
      exact .pure ⟨[], (List.append_nil _).symm, fun _ none => (List.not_mem_nil none).elim, fun _ _ _ => rfl⟩
  | cons clause rest =>
      have parts := and_straight nested
      have breaks := and_straight own
      rw [genClauses]
      refine Framed.bind (genClause_lays _ clause parts.1 (shaped clause List.mem_cons_self) breaks.1) ?_
      rintro first c₁ longer ⟨own₁, lays₁⟩
      refine (genClauses_lays rest _ parts.2 (fun clause member => shaped clause (List.mem_cons_of_mem _ member))
        breaks.2).mono ?_
      rintro _ c₂ ⟨more, rfl, own₂, lays₂⟩ guards
      refine ⟨first ++ more, List.append_assoc _ _ _, fun k member => ?_, fun later alike goes => ?_⟩
      · rcases List.mem_append.mp member with member | member
        · obtain ⟨low, unpatched⟩ := own₁ k member
          exact ⟨low, unpatched.keep fun i => guards.kept k unpatched.lt i⟩
        · obtain ⟨low, unpatched⟩ := own₂ k member
          exact ⟨longer.longer.trans low, unpatched⟩
      · have goes₁ : ∀ k ∈ first, Jumps later k c₂.func.pc := fun k member => goes k (List.mem_append_left _ member)
        have goes₂ : ∀ k ∈ more, Jumps later k c₂.func.pc := fun k member => goes k (List.mem_append_right _ member)
        refine ⟨c₁.func.pc, lays₁ later _ (fun k low high other i => ?_) goes₁,
          lays₂ later (fun k low high other i => ?_) goes₂⟩
        · refine (alike k low (high.trans_le guards.longer) (fun member => ?_) i).trans (guards.kept k high i)
          rcases List.mem_append.mp member with member | member
          · exact other member
          · exact Nat.not_lt_of_le (own₂ k member).1 high
        · refine alike k (longer.longer.trans low) high (fun member => ?_) i
          rcases List.mem_append.mp member with member | member
          · exact Nat.not_lt_of_le low (own₁ k member).2.lt
          · exact other member

end

/-! ## The final code -/

-- in the code of the chunk, the jumps of every if statement are where the statement was compiled
def IfsLaid (env : Env) (c₀ : Compiler) (body : List Node) : Prop :=
  ∀ c, genChunk env (.chunk body) c₀ = .ok ((), c) → ∀ clauses d,
    Occurs env body c₀ (.ifStatement clauses) d → areNested clauses = true →
    ∃ d', genNode env (.ifStatement clauses) d = .ok ((), d') ∧
      Laid c.func.code (.ifStatement clauses) d.func.pc d'.func.pc

/-! ## If statements without breaks -/

theorem breaksOwnOf_uniform {inLoop : Bool} {nodes : List Node}
    (all : ∀ node ∈ nodes, breaksOwn inLoop node = breaksOwn false node) :
    breaksOwnOf inLoop nodes = breaksOwnOf false nodes := by
  induction nodes with
  | nil => rfl
  | cons node rest ih =>
      rw [breaksOwnOf_cons, breaksOwnOf_cons, all node List.mem_cons_self,
        ih fun node member => all node (List.mem_cons_of_mem _ member)]

-- the breaks in an expression are in the bodies of its functions
def Uniform : Role → Node → Prop
  | .chunk, _ | .statement, _ | .clause, _ | .lastClause, _ => True
  | _, node => ∀ inLoop, breaksOwn inLoop node = breaksOwn false node

theorem Shaped.uniform {role : Role} {node : Node} (shaped : Shaped role node) : Uniform role node := by
  induction shaped with
  | literal _ => exact fun _ => rfl
  | identifier _ => exact fun _ => rfl
  | fieldAccess _ _ operand => exact operand
  | indexAccess _ _ operand index =>
      intro inLoop
      rw [breaksOwn_index, breaksOwn_index, operand inLoop, index inLoop]
  | call _ _ _ callee arguments =>
      intro inLoop
      have passed := breaksOwnOf_uniform fun node member => arguments node member inLoop
      rw [breaksOwn_call, breaksOwn_call, callee inLoop, passed]
  | function _ _ => exact fun _ => rfl
  | tableConstructor _ fields => exact fun inLoop => breaksOwnOf_uniform fun node member => fields node member inLoop
  | unaryExpression _ _ argument => exact argument
  | binaryExpression _ _ _ left right =>
      intro inLoop
      rw [breaksOwn_binary, breaksOwn_binary, left inLoop, right inLoop]
  | groupedExpression _ expression => exact expression
  | callee _ expression => exact expression
  | method _ _ operand => exact operand
  | key _ expression => exact expression
  | nameKey _ => exact fun _ => rfl
  | listField _ value => exact fun inLoop => by rw [breaksOwn_tableField, breaksOwn_tableField, value inLoop]; rfl
  | recField _ _ key value =>
      intro inLoop
      rw [breaksOwn_tableField, breaksOwn_tableField, value inLoop, breaksOwn_some, breaksOwn_some, key inLoop]
  | target _ _ expression => exact expression
  | name => exact fun _ => rfl
  | nameField _ _ operand => exact operand
  | functionName _ path => exact path
  | methodName _ _ path => exact path
  | _ => trivial

theorem expression_uniform {node : Node} (shaped : Shaped .expression node) : Uniform .expression node :=
  Shaped.uniform shaped

theorem expressions_uniform {inLoop : Bool} {nodes : List Node} (shaped : AllShaped .expression nodes) :
    breaksOwnOf inLoop nodes = breaksOwnOf false nodes :=
  breaksOwnOf_uniform fun node member => expression_uniform (shaped node member) inLoop

mutual

theorem nested_uniform {inLoop : Bool} (node : Node) (shaped : Shaped .statement node) (nested : isNested node = true) :
    breaksOwn inLoop node = breaksOwn false node := by
  cases node with
  | call =>
      cases shaped with
      | callStatement callee arguments =>
          have called : Uniform .callee _ := Shaped.uniform callee
          rw [breaksOwn_call, breaksOwn_call, called inLoop, expressions_uniform arguments]
  | assignmentStatement =>
      rw [breaksOwn_assignment, breaksOwn_assignment]
      cases shaped with
      | assignment _ targets values =>
          have target : ∀ node ∈ _, Uniform .target node := fun node member => Shaped.uniform (targets node member)
          rw [breaksOwnOf_uniform fun node member => target node member inLoop, expressions_uniform values]
      | localStatement names values =>
          have named : breaksOwnOf inLoop _ = breaksOwnOf false _ := breaksOwnOf_uniform fun node member => by
            obtain ⟨token, rfl⟩ := names node member
            rfl
          rw [named, expressions_uniform values]
  | returnStatement =>
      cases shaped with
      | returnStatement values => exact expressions_uniform values
  | functionDeclaration =>
      cases shaped with
      | functionStatement name _ =>
          have named : Uniform .functionName _ := Shaped.uniform name
          rw [breaksOwn_function, breaksOwn_function, breaksOwn_some, breaksOwn_some, named inLoop]
      | localFunction _ => rfl
  | doStatement body =>
      cases shaped with
      | doStatement all => exact nestedOf_uniform body all nested
  | ifStatement clauses => exact clauses_uniform clauses (Shaped.clausal shaped) nested
  | ifClause => cases shaped
  | _ => cases nested

theorem nestedOf_uniform {inLoop : Bool} (nodes : List Node) (shaped : AllShaped .statement nodes)
    (nested : areNested nodes = true) : breaksOwnOf inLoop nodes = breaksOwnOf false nodes := by
  cases nodes with
  | nil => rfl
  | cons node rest =>
      have parts := and_straight nested
      rw [breaksOwnOf_cons, breaksOwnOf_cons, nested_uniform node (shaped node List.mem_cons_self) parts.1,
        nestedOf_uniform rest (fun node member => shaped node (List.mem_cons_of_mem _ member)) parts.2]

theorem clauses_uniform {inLoop : Bool} (clauses : List Node) (shaped : ∀ clause ∈ clauses, Clausal clause)
    (nested : areNested clauses = true) : breaksOwnOf inLoop clauses = breaksOwnOf false clauses := by
  cases clauses with
  | nil => rfl
  | cons clause rest =>
      have parts := and_straight nested
      have others : breaksOwnOf inLoop rest = breaksOwnOf false rest :=
        clauses_uniform rest (fun clause member => shaped clause (List.mem_cons_of_mem _ member)) parts.2
      cases clause with
      | ifClause token condition body =>
          obtain ⟨_, _, _, ⟨⟩, known, all⟩ := shaped _ List.mem_cons_self
          have value : breaksOwn? inLoop condition = breaksOwn? false condition := by
            cases condition with
            | none => rfl
            | some condition => exact expression_uniform (known condition rfl) inLoop
          rw [breaksOwnOf_cons, breaksOwnOf_cons, breaksOwn_ifClause, breaksOwn_ifClause, value,
            nestedOf_uniform body all parts.1, others]
      | _ => obtain ⟨_, _, _, ⟨⟩, -⟩ := shaped _ List.mem_cons_self

end

-- such a statement records no breaks
theorem nested_unbroken {node : Node} (shaped : Shaped .statement node) (nested : isNested node = true) {inLoop : Bool}
    (own : breaksOwn inLoop node = true) {d d' : Compiler} (run : genNode env node d = .ok ((), d')) :
    d'.breakList = d.breakList := by
  rw [nested_uniform node shaped nested] at own
  have silent : Silent (genNode env node) := (genNode_records node own).same
  have holds := silent d
  unfold Sat at holds
  rwa [run] at holds

theorem if_jumps_patched {lexer : Lex.Lexer} {body : List Node} (parsed : parse lexer = .ok (.chunk body))
    (own : breaksOwnOf false body = true) (env : Env) (breakList : Option (List Nat)) :
    IfsLaid env { breakList } body := by
  intro c ran clauses d occurs nested
  have isNested : isNested (.ifStatement clauses) = true := nested
  cases parse_shaped parsed with
  | chunk shaped =>
      have start : Clear ({ breakList } : Compiler).func.code ({ breakList } : Compiler).func.curExp := Once.clear rfl
      obtain ⟨inLoop, d', shapedIf, ownIf, clear, below, run, kept⟩ := occurs.survives shaped own start ran
      obtain ⟨-, -, lays⟩ := (genNode_lays _ isNested shapedIf ownIf).run clear (fun _ h => h) run
      refine ⟨d', run, lays c.func.code fun k low high _ i => kept k low high ?_ i⟩
      unfold Unbroken
      rw [nested_unbroken shapedIf isNested ownIf run]
      exact below.unbroken low

def clauseSource : List UInt8 := Lex.bytes "if a then do b() end elseif c then if d then x = 1 end else y = 2 end"

theorem if_jumps_patched_clauses : ∃ body, parse (Lex.Lexer.init clauseSource []) = .ok (.chunk body) ∧
    (∃ c, genChunk (plainEnv clauseSource) (.chunk body) {} = .ok ((), c)) ∧ IfsLaid (plainEnv clauseSource) {} body := by
  have accepted : chunkTest (fun body => breaksOwnOf false body &&
      (genChunk (plainEnv clauseSource) (.chunk body) {}).toOption.isSome) (parse (Lex.Lexer.init clauseSource [])) = true := by
    decide +kernel
  obtain ⟨body, parsed, holds⟩ := chunkTest_holds accepted
  obtain ⟨own, compiles⟩ := and_straight holds
  refine ⟨body, parsed, ?_, if_jumps_patched parsed own (plainEnv clauseSource) none⟩
  cases run : genChunk (plainEnv clauseSource) (.chunk body) {} with
  | error e =>
      rw [run] at compiles
      cases compiles
  | ok result => exact ⟨result.2, rfl⟩

def endsAt (place : Nat) : Except Stop (Unit × Compiler) → Bool
  | .ok (_, c) => c.func.pc == place
  | .error _ => false

theorem endsAt_holds {place : Nat} {result : Except Stop (Unit × Compiler)} (ends : endsAt place result = true) :
    ∃ c, result = .ok ((), c) ∧ c.func.pc = place := by
  cases result with
  | ok result => exact ⟨result.2, rfl, eq_of_beq ends⟩
  | error _ => cases ends

def givesCode (code : List Word) : Except Stop (Unit × Compiler) → Bool
  | .ok (_, c) => decide (c.func.code = code)
  | .error _ => false

theorem givesCode_holds {result : Except Stop (Unit × Compiler)} (gives : givesCode code result = true) :
    ∃ c, result = .ok ((), c) ∧ c.func.code = code := by
  cases result with
  | ok result => exact ⟨result.2, rfl, of_decide_eq_true gives⟩
  | error _ => cases gives

-- the break in the function is recorded in the list of the loop around it, and its place, 2, is that of the jump of the
-- if statement in the code of the chunk
def overwrittenSource : List UInt8 := Lex.bytes "if a then b() end for i = 1, 2 do function g() f() break end end"

def overwrittenCode : List Word :=
  [.instr (.abx .getglobal 0 0), .instr ⟨.test, 0, 0, 0⟩, .instr (.asbx .jmp 0 9), .instr (.abx .getglobal 1 1),
    .instr ⟨.call, 1, 1, 1⟩, .instr (.abx .loadk 4 2), .instr (.abx .loadk 5 3), .instr (.abx .loadk 6 4),
    .instr (.asbx .forprep 0 0), .instr (.abx .closure 7 0), .instr (.abx .setglobal 7 5), .instr (.asbx .forloop 0 0),
    .instr ⟨.return, 0, 1, 0⟩]

-- an if statement with one clause, whose code ends in front of place 5
def firstIf (c₀ : Compiler) : List Node → Bool
  | .ifStatement [.ifClause token (some condition) body] :: _ =>
      areNested [.ifClause token (some condition) body] &&
        endsAt 5 (genNode (plainEnv overwrittenSource) (.ifStatement [.ifClause token (some condition) body]) c₀)
  | _ => false

theorem overwritten_goes : Jumps overwrittenCode 2 12 := by
  have found : overwrittenCode[2]? = some (.instr (.asbx .jmp 0 (9 : Nat))) := rfl
  exact jumps_offset found (by decide)

theorem overwritten_test {k : Nat} (tests : Tests overwrittenCode k) : k = 1 := by
  have inside : k < 13 := (List.getElem?_eq_some_iff.mp tests).1
  have all : ∀ k < 13, overwrittenCode[k]? = some (.instr ⟨.test, 0, 0, 0⟩) → k = 1 := by decide
  exact all k inside tests

theorem overwritten_unlaid {token : Token} {condition : Node} {body : List Node} :
    ¬Laid overwrittenCode (.ifStatement [.ifClause token (some condition) body]) 0 5 := by
  rintro ⟨next, ⟨test, _, -, -, tests, jumps, -⟩, rfl⟩
  rw [overwritten_test tests] at jumps
  exact absurd (jumps.unique overwritten_goes) (by decide)

theorem if_jumps_overwritten : ∃ body, parse (Lex.Lexer.init overwrittenSource []) = .ok (.chunk body) ∧
    ¬IfsLaid (plainEnv overwrittenSource) {} body := by
  have accepted : chunkTest (fun body => firstIf {} body &&
      givesCode overwrittenCode (genChunk (plainEnv overwrittenSource) (.chunk body) {}))
      (parse (Lex.Lexer.init overwrittenSource [])) = true := by
    decide +kernel
  obtain ⟨body, parsed, holds⟩ := chunkTest_holds accepted
  refine ⟨body, parsed, fun laid => ?_⟩
  obtain ⟨first, compiles⟩ := and_straight holds
  obtain ⟨c, ran, code⟩ := givesCode_holds compiles
  unfold firstIf at first
  split at first
  · rename_i token condition inner rest
    obtain ⟨nested, ends⟩ := and_straight first
    have split : .ifStatement [.ifClause token (some condition) inner] :: rest =
        [] ++ .ifStatement [.ifClause token (some condition) inner] :: rest := rfl
    obtain ⟨d', run, lays⟩ := laid c ran _ {} (.statement split rfl) nested
    obtain ⟨_, run', last⟩ := endsAt_holds ends
    cases run.symm.trans run'
    rw [code, last] at lays
    exact overwritten_unlaid lays
  · cases first

end Zua.Compile
