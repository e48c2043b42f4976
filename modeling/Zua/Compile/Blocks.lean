import Zua.Compile.Statements

/-!
# Registers in nested blocks

Only the statements of a chunk start again with the registers of the locals. In a nested block the registers that a
statement leaves are still taken when the next one starts, and they can be counted.
-/

namespace Zua.Compile
open Code Syntax Parse
open Zua.Lex (Token ch)

/-! ## The fragment -/

mutual

-- local statements, assignments to names, calls, `do` and `if`
def isBlock : Node → Bool
  | .assignmentStatement targets values isLocal => isLocal || (targets.all isName && !values.isEmpty)
  | .call _ _ _ _ _ => true
  | .doStatement body => areBlocks body
  | .ifStatement clauses => areBlocks clauses
  | .ifClause _ _ body => areBlocks body
  | _ => false

def areBlocks : List Node → Bool
  | [] => true
  | node :: rest => isBlock node && areBlocks rest

end

/-! ## Where statements start -/

section
variable (env : Env)

-- what is generated before the body of a clause
def clauseEntry : Option Node → CompileM Unit
  | some condition => do
      genNode env condition
      let _ ← genTest
  | none => return ()

mutual

-- the statements that are reached, each with the state in which it starts
def starts : Node → Compiler → List (Node × Compiler)
  | .doStatement body, c => (.doStatement body, c) :: bodyStarts body c
  | .ifStatement clauses, c => (.ifStatement clauses, c) :: clauseStarts clauses c
  | node, c => [(node, c)]

def bodyStarts : List Node → Compiler → List (Node × Compiler)
  | [], _ => []
  | node :: rest, c =>
      starts node c ++ match genNode env node c with
        | .ok (_, c') => bodyStarts rest c'
        | .error _ => []

def clauseStarts : List Node → Compiler → List (Node × Compiler)
  | [], _ => []
  | .ifClause token condition body :: rest, c =>
      (match clauseEntry env condition c with
        | .ok (_, c') => bodyStarts body c'
        | .error _ => []) ++
      match genClause env rest.isEmpty (.ifClause token condition body) c with
        | .ok (_, c') => clauseStarts rest c'
        | .error _ => []
  | _ :: _, _ => []

end

-- in a chunk the registers above the locals are given back behind every statement
def chunkStarts : List Node → Compiler → List (Node × Compiler)
  | [], _ => []
  | node :: rest, c =>
      starts env node c ++ match genStatements env [node] c with
        | .ok (_, c') => chunkStarts rest c'
        | .error _ => []

end

/-! ## What a statement leaves taken -/

mutual

def debt : Node → Nat
  | .assignmentStatement targets values true => values.length - targets.length
  | .assignmentStatement targets values false => storedDebt targets.length values.length
  | .call _ _ _ _ _ => 1
  | .doStatement body => bodyDebt body
  | .ifStatement clauses => bodyDebt clauses
  | .ifClause _ (some _) body => 1 + bodyDebt body
  | .ifClause _ none body => bodyDebt body
  | _ => 0

def bodyDebt : List Node → Nat
  | [] => 0
  | node :: rest => debt node + bodyDebt rest

end

section
variable (watched : Node → Bool)

-- a statement that is watched has to start without any register that is left
def starting (owed : Nat) (node : Node) : Bool := owed == 0 || !watched node

mutual

def settled (owed : Nat) : Node → Bool
  | .doStatement body => starting watched owed (.doStatement body) && settledBody owed body
  | .ifStatement clauses => starting watched owed (.ifStatement clauses) && settledClauses owed clauses
  | node => starting watched owed node

def settledBody (owed : Nat) : List Node → Bool
  | [] => true
  | node :: rest => settled owed node && settledBody (owed + debt node) rest

def settledClauses (owed : Nat) : List Node → Bool
  | [] => true
  | .ifClause token condition body :: rest =>
      settledBody (owed + condition.toList.length) body &&
        settledClauses (owed + debt (.ifClause token condition body)) rest
  | _ :: _ => true

end

end

/-! ## The registers that are left -/

variable {env : Env}

-- `owed` registers above the locals are taken
structure Owing (owed : Nat) (c : Compiler) : Prop where
  upper : c.func.freeRegister ≤ c.func.maxStackSize.val
  free : c.func.freeRegister = c.func.numActiveLocalVars + owed

def Owes {α : Type} (x : CompileM α) (d : Nat) : Prop :=
  ∀ c owed, Owing owed c → Sat (fun _ => True) x c fun _ c' => Owing (owed + d) c'

namespace Owes

variable {α β : Type} {x : CompileM α} {d d' : Nat}

theorem pure (a : α) : Owes (Pure.pure a) 0 := fun _ _ owing => owing

theorem bind {f : α → CompileM β} (first : Owes x d) (rest : ∀ a, Owes (f a) d') : Owes (x >>= f) (d + d') := by
  intro c owed owing
  refine Sat.bind ((first c owed owing).mono ?_)
  intro a c' owing'
  have both := rest a c' (owed + d) owing'
  rw [Nat.add_assoc] at both
  exact both

-- the last part leaves nothing
theorem last {f : α → CompileM β} (first : Owes x d) (rest : ∀ a, Owes (f a) 0) : Owes (x >>= f) d := bind first rest

theorem balances (h : ∀ c, c.func.numActiveLocalVars ≤ c.func.freeRegister →
    Balances true x c fun _ c' => c'.func.freeRegister = c.func.freeRegister + d) : Owes x d := by
  intro c owed owing
  have left := h c (owing.free ▸ Nat.le_add_right _ _) owing.upper
  rw [tolerated_true] at left
  refine left.mono ?_
  rintro a c' ⟨upper, number, free⟩
  refine ⟨upper, ?_⟩
  have := owing.free
  omega

theorem leaves {x : CompileM Unit} (declared taken : Nat) (h : ∀ c, c.func.numActiveLocalVars ≤ c.func.freeRegister →
    Leaves true x c declared (c.func.freeRegister + taken)) (le : declared + d = taken) : Owes x d := by
  intro c owed owing
  have left := h c (owing.free ▸ Nat.le_add_right _ _) owing.upper
  rw [tolerated_true] at left
  refine left.mono ?_
  rintro a c' ⟨upper, number, free⟩
  refine ⟨upper, ?_⟩
  have := owing.free
  omega

end Owes

theorem genTest_balances {c : Compiler} {loose : Bool} {low : Nat} (locals : c.func.numActiveLocalVars ≤ low)
    (holds : Holds low c) : Balances loose genTest c fun _ c' => c'.func.freeRegister = low + 1 := by
  refine .bind (nextReg_balances locals holds) ?_
  rintro r c₁ number₁ ⟨-, -, free⟩
  refine .bind (.onFunc (Func.emitABC_works _ _ _ _)) ?_
  rintro index c₂ number₂ ⟨-, -, emitted⟩
  refine (Balances.onFunc (Func.emitWord_works _)).mono ?_
  rintro index' c₃ - ⟨-, -, emitted'⟩
  rw [emitted', emitted]
  exact free

theorem emitAsBx_owes (op : OpCode) (a : Nat) (sbx : Int) : Owes (onFunc (Func.emitAsBx op a sbx)) 0 :=
  .balances fun c locals => (Balances.onFunc (Func.emitWord_works _)).mono fun _ _ _ emitted => by rw [emitted.2.2]; rfl

theorem patchHere_owes (index : Nat) : Owes (patchHere index) 0 := by
  refine .balances fun c locals => .getFunc ?_
  split
  · exact .throw (by decide)
  · refine (Balances.onFunc (Func.patch_works _ _)).mono ?_
    rintro _ c' - ⟨-, i, -, patched⟩
    rw [patched]
    rfl

theorem patchAll_owes (jumps : List Nat) : Owes (patchAll jumps) 0 := by
  induction jumps with
  | nil => exact .pure ()
  | cons index rest ih => exact (patchHere_owes index).last fun _ => ih

-- the parts of a clause
def Clausal (clause : Node) : Prop :=
  ∃ token condition body, clause = .ifClause token condition body ∧ (∀ e, condition = some e → Shaped .expression e) ∧
    AllShaped .statement body

theorem Shaped.clausal {clauses : List Node} (shaped : Shaped .statement (.ifStatement clauses)) :
    ∀ clause ∈ clauses, Clausal clause := by
  have one {clause : Node} (shaped : Shaped .clause clause) : Clausal clause := by
    cases shaped with
    | clause condition body =>
        refine ⟨_, _, _, rfl, ?_, body⟩
        rintro e ⟨⟩
        exact condition
  cases shaped with
  | ifStatement first last =>
      intro clause member
      rcases List.mem_append.mp member with member | member
      · exact one (first clause member)
      · rw [List.mem_singleton.mp member]
        cases last with
        | lastClause clause => exact one clause
        | elseClause body => exact ⟨_, _, _, rfl, fun e none => (Option.some_ne_none _ none.symm).elim, body⟩

theorem clauseEntry_owes {condition : Option Node} (shaped : ∀ e, condition = some e → Shaped .expression e) :
    Owes (clauseEntry env condition) condition.toList.length := by
  cases condition with
  | none => exact .pure ()
  | some condition =>
      refine .balances fun c locals => ?_
      have value : Balanced env true .expression condition := Shaped.balances (shaped condition rfl) (fun strict => by cases strict)
      refine .bind (value c locals) ?_
      rintro _ c₁ number₁ holds
      refine .bind (genTest_balances (by omega) holds) ?_
      rintro jump c₂ - free
      exact .pure free

mutual

theorem genNode_owes (node : Node) (shaped : Shaped .statement node) (block : isBlock node = true) :
    Owes (genNode env node) (debt node) := by
  cases node with
  | assignmentStatement targets values isLocal =>
      cases isLocal with
      | true =>
          cases shaped with
          | localStatement names given =>
              refine .leaves targets.length (max targets.length values.length) (fun c locals => ?_) ?_
              · exact genLocal_leaves ⟨given, fun strict => by cases strict⟩ c locals
              · simp only [debt]
                omega
      | false =>
          cases shaped with
          | assignment some _ given =>
              have parts := and_straight block
              refine .balances fun c locals => ?_
              refine genAssignment_balances some parts.1 ⟨given, fun strict => by cases strict⟩ ?_ c locals
              rintro rfl
              cases parts.2
  | call callee arguments openArgs closeArgs isStatement =>
      cases shaped with
      | callStatement called given =>
          refine .balances fun c locals => ?_
          exact genCallStatement_balances called (fun strict => by cases strict) ⟨given, fun strict => by cases strict⟩ c locals
  | doStatement body =>
      rw [genNode]
      cases shaped with
      | doStatement all => exact genBody_owes body all block
  | ifStatement clauses =>
      rw [genNode]
      exact (genClauses_owes clauses [] (Shaped.clausal shaped) block).last patchAll_owes
  | ifClause => cases shaped
  | _ => cases block

theorem genBody_owes (nodes : List Node) (shaped : AllShaped .statement nodes) (block : areBlocks nodes = true) :
    Owes (genBody env nodes) (bodyDebt nodes) := by
  cases nodes with
  | nil =>
      rw [genBody]
      exact .pure ()
  | cons node rest =>
      have parts := and_straight block
      rw [genBody]
      refine (genNode_owes node (shaped node List.mem_cons_self) parts.1).bind fun _ => ?_
      exact genBody_owes rest (fun node member => shaped node (List.mem_cons_of_mem _ member)) parts.2

theorem genClause_owes (last : Bool) (clause : Node) (shaped : Clausal clause) (block : isBlock clause = true) :
    Owes (genClause env last clause) (debt clause) := by
  cases clause with
  | ifClause token condition body =>
      have all : AllShaped .statement body := by
        obtain ⟨_, _, _, ⟨⟩, -, all⟩ := shaped
        exact all
      have bodies := genBody_owes body all block
      cases condition with
      | none =>
          rw [genClause]
          exact bodies.last fun _ => .pure _
      | some condition =>
          have value : Balanced env true .expression condition := by
            obtain ⟨_, _, _, ⟨⟩, known, -⟩ := shaped
            exact Shaped.balances (known condition rfl) fun strict => by cases strict
          have tested : Owes (do genNode env condition; genTest) 1 := by
            refine .balances fun c locals => .bind (value c locals) ?_
            rintro _ c₁ number₁ holds
            exact genTest_balances (by omega) holds
          have ends (jump : Nat) (escapes : List Nat) : Owes (do patchHere jump; return escapes : CompileM (List Nat)) 0 :=
            (patchHere_owes jump).last fun _ => .pure escapes
          rw [genClause, ← bind_assoc]
          refine tested.bind fun jump => bodies.last fun _ => ?_
          split
          · exact ends jump []
          · exact (emitAsBx_owes _ _ _).last fun escape => ends jump [escape]
  | _ =>
      obtain ⟨_, _, _, ⟨⟩, -⟩ := shaped

theorem genClauses_owes (clauses : List Node) (escapes : List Nat) (shaped : ∀ clause ∈ clauses, Clausal clause)
    (block : areBlocks clauses = true) : Owes (genClauses env clauses escapes) (bodyDebt clauses) := by
  cases clauses with
  | nil =>
      rw [genClauses]
      exact .pure _
  | cons clause rest =>
      have parts := and_straight block
      rw [genClauses]
      refine (genClause_owes rest.isEmpty clause (shaped clause List.mem_cons_self) parts.1).bind fun escape => ?_
      exact genClauses_owes rest _ (fun clause member => shaped clause (List.mem_cons_of_mem _ member)) parts.2

end

/-! ## Statements that start with the registers of the locals -/

section Starts

variable {watched : Node → Bool}

def Level (watched : Node → Bool) (entries : List (Node × Compiler)) : Prop :=
  ∀ entry ∈ entries, watched entry.1 = true → entry.2.func.freeRegister = entry.2.func.numActiveLocalVars

instance (entries : List (Node × Compiler)) : Decidable (Level watched entries) :=
  inferInstanceAs (Decidable (∀ entry ∈ entries, _ → _))

theorem Level.append {first second : List (Node × Compiler)} :
    Level watched (first ++ second) ↔ Level watched first ∧ Level watched second := List.forall_mem_append

theorem Level.cons {node : Node} {c : Compiler} {rest : List (Node × Compiler)} : Level watched ((node, c) :: rest) ↔
    (watched node = true → c.func.freeRegister = c.func.numActiveLocalVars) ∧ Level watched rest := List.forall_mem_cons

theorem Level.nil : Level watched [] := List.forall_mem_nil _

theorem starting_iff {owed : Nat} {c : Compiler} (owing : Owing owed c) (node : Node) :
    starting watched owed node = true ↔ (watched node = true → c.func.freeRegister = c.func.numActiveLocalVars) := by
  rw [starting, owing.free, Nat.add_eq_left]
  cases watched node <;> simp

theorem Owes.run {α : Type} {x : CompileM α} {d owed : Nat} {c c' : Compiler} {a : α} (owes : Owes x d)
    (owing : Owing owed c) (ran : x c = .ok (a, c')) : Owing (owed + d) c' := by
  have left := owes c owed owing
  unfold Sat at left
  rw [ran] at left
  exact left

mutual

theorem starts_level (node : Node) (shaped : Shaped .statement node) (block : isBlock node = true) {c : Compiler}
    {owed : Nat} (owing : Owing owed c) (whole : settled watched owed node = true) : Level watched (starts env node c) := by
  cases node with
  | doStatement body =>
      have parts := and_straight whole
      rw [starts, Level.cons]
      cases shaped with
      | doStatement all => exact ⟨(starting_iff owing _).mp parts.1, bodyStarts_level body all block owing parts.2⟩
  | ifStatement clauses =>
      have parts := and_straight whole
      rw [starts, Level.cons]
      exact ⟨(starting_iff owing _).mp parts.1, clauseStarts_level clauses (Shaped.clausal shaped) block owing parts.2⟩
  | assignmentStatement | call =>
      simp only [starts]
      exact Level.cons.mpr ⟨(starting_iff owing _).mp whole, Level.nil⟩
  | ifClause => cases shaped
  | _ => cases block

theorem bodyStarts_level (nodes : List Node) (shaped : AllShaped .statement nodes) (block : areBlocks nodes = true)
    {c : Compiler} {owed : Nat} (owing : Owing owed c) (whole : settledBody watched owed nodes = true) :
    Level watched (bodyStarts env nodes c) := by
  cases nodes with
  | nil =>
      rw [bodyStarts]
      exact Level.nil
  | cons node rest =>
      have parts := and_straight block
      have shapedNode := shaped node List.mem_cons_self
      have conditions := and_straight whole
      rw [bodyStarts, Level.append]
      refine ⟨starts_level node shapedNode parts.1 owing conditions.1, ?_⟩
      split
      · rename_i ran
        exact bodyStarts_level rest (fun node member => shaped node (List.mem_cons_of_mem _ member)) parts.2
          ((genNode_owes node shapedNode parts.1).run owing ran) conditions.2
      · exact Level.nil

theorem clauseStarts_level (clauses : List Node) (shaped : ∀ clause ∈ clauses, Clausal clause)
    (block : areBlocks clauses = true) {c : Compiler} {owed : Nat} (owing : Owing owed c)
    (whole : settledClauses watched owed clauses = true) : Level watched (clauseStarts env clauses c) := by
  cases clauses with
  | nil =>
      rw [clauseStarts]
      exact Level.nil
  | cons clause rest =>
      have parts := and_straight block
      have shapedClause := shaped clause List.mem_cons_self
      cases clause with
      | ifClause token condition body =>
          have conditions := and_straight whole
          rw [clauseStarts, Level.append]
          constructor
          · split
            · rename_i ran
              obtain ⟨_, _, _, ⟨⟩, known, all⟩ := shapedClause
              exact bodyStarts_level body all parts.1 ((clauseEntry_owes known).run owing ran) conditions.1
            · exact Level.nil
          · split
            · rename_i ran
              exact clauseStarts_level rest (fun clause member => shaped clause (List.mem_cons_of_mem _ member)) parts.2
                ((genClause_owes rest.isEmpty _ shapedClause parts.1).run owing ran) conditions.2
            · exact Level.nil
      | _ => obtain ⟨_, _, _, ⟨⟩, -⟩ := shapedClause

end

theorem genClause_parts {last : Bool} {token : Token} {condition : Option Node} {body : List Node} {c c' : Compiler}
    {escapes : List Nat} (ran : genClause env last (.ifClause token condition body) c = .ok (escapes, c')) :
    ∃ c₁ c₂, clauseEntry env condition c = .ok ((), c₁) ∧ genBody env body c₁ = .ok ((), c₂) := by
  cases condition with
  | none =>
      rw [genClause] at ran
      obtain ⟨_, c₂, ran, -⟩ := bind_returns.mp ran
      exact ⟨c, c₂, rfl, ran⟩
  | some condition =>
      rw [genClause] at ran
      obtain ⟨_, c₁, value, ran⟩ := bind_returns.mp ran
      obtain ⟨jump, c₂, test, ran⟩ := bind_returns.mp ran
      obtain ⟨_, c₃, ran, -⟩ := bind_returns.mp ran
      exact ⟨c₂, c₃, bind_returns.mpr ⟨_, c₁, value, bind_returns.mpr ⟨jump, c₂, test, rfl⟩⟩, ran⟩

mutual

-- the converse holds when the whole statement is compiled
theorem starts_settled (node : Node) (shaped : Shaped .statement node) (block : isBlock node = true) {c c' : Compiler}
    {owed : Nat} (owing : Owing owed c) (ran : genNode env node c = .ok ((), c'))
    (level : Level watched (starts env node c)) : settled watched owed node = true := by
  cases node with
  | doStatement body =>
      rw [starts, Level.cons] at level
      rw [genNode] at ran
      cases shaped with
      | doStatement all =>
          rw [settled, (starting_iff owing _).mpr level.1, bodyStarts_settled body all block owing ran level.2]
          rfl
  | ifStatement clauses =>
      rw [starts, Level.cons] at level
      rw [genNode] at ran
      obtain ⟨escapes, c₁, ran, -⟩ := bind_returns.mp ran
      rw [settled, (starting_iff owing _).mpr level.1,
        clauseStarts_settled clauses (Shaped.clausal shaped) block owing ran level.2]
      rfl
  | assignmentStatement | call =>
      simp only [starts, Level.cons] at level
      exact (starting_iff owing _).mpr level.1
  | ifClause => cases shaped
  | _ => cases block

theorem bodyStarts_settled (nodes : List Node) (shaped : AllShaped .statement nodes) (block : areBlocks nodes = true)
    {c c' : Compiler} {owed : Nat} (owing : Owing owed c) (ran : genBody env nodes c = .ok ((), c'))
    (level : Level watched (bodyStarts env nodes c)) : settledBody watched owed nodes = true := by
  cases nodes with
  | nil => rfl
  | cons node rest =>
      have parts := and_straight block
      have shapedNode := shaped node List.mem_cons_self
      rw [genBody] at ran
      obtain ⟨_, c₁, first, ran⟩ := bind_returns.mp ran
      rw [bodyStarts, Level.append, first] at level
      have here := starts_settled node shapedNode parts.1 owing first level.1
      have after := bodyStarts_settled rest (fun node member => shaped node (List.mem_cons_of_mem _ member)) parts.2
        ((genNode_owes node shapedNode parts.1).run owing first) ran level.2
      rw [settledBody, here, after]
      rfl

theorem clauseStarts_settled (clauses : List Node) (shaped : ∀ clause ∈ clauses, Clausal clause)
    (block : areBlocks clauses = true) {c c' : Compiler} {owed : Nat} {escapes escapes' : List Nat} (owing : Owing owed c)
    (ran : genClauses env clauses escapes c = .ok (escapes', c')) (level : Level watched (clauseStarts env clauses c)) :
    settledClauses watched owed clauses = true := by
  cases clauses with
  | nil => rfl
  | cons clause rest =>
      have parts := and_straight block
      have shapedClause := shaped clause List.mem_cons_self
      rw [genClauses] at ran
      obtain ⟨escape, c₁, first, others⟩ := bind_returns.mp ran
      cases clause with
      | ifClause token condition body =>
          obtain ⟨c₂, c₃, entry, inside⟩ := genClause_parts first
          rw [clauseStarts, Level.append, entry, first] at level
          have owing₁ := (genClause_owes rest.isEmpty _ shapedClause parts.1).run owing first
          have after := clauseStarts_settled rest (fun clause member => shaped clause (List.mem_cons_of_mem _ member)) parts.2
            owing₁ others level.2
          obtain ⟨_, _, _, ⟨⟩, known, all⟩ := shapedClause
          have here := bodyStarts_settled body all parts.1 ((clauseEntry_owes known).run owing entry) inside level.1
          rw [settledClauses, here, after]
          rfl
      | _ => obtain ⟨_, _, _, ⟨⟩, -⟩ := shapedClause

end

/-! ## Whole programs -/

-- behind a statement of a chunk
def Compiler.reset (c : Compiler) : Compiler :=
  { c with func := { c.func with freeRegister := c.func.numActiveLocalVars } }

theorem Owing.reset {owed : Nat} {c : Compiler} (owing : Owing owed c) : Owing 0 c.reset := by
  have upper := owing.upper
  have free := owing.free
  refine ⟨?_, rfl⟩
  simp only [Compiler.reset]
  omega

theorem genStatements_cons {node : Node} {rest : List Node} {c c' : Compiler} :
    genStatements env (node :: rest) c = .ok ((), c') ↔ ∃ c₁, genNode env node c = .ok ((), c₁) ∧
      (c₁.func.freeRegister ≤ c₁.func.maxStackSize.val ∧ c₁.func.numActiveLocalVars ≤ c₁.func.freeRegister) ∧
        genStatements env rest c₁.reset = .ok ((), c') := by
  rw [genStatements, bind_returns]
  constructor
  · rintro ⟨_, c₁, first, others⟩
    obtain ⟨fs, c₂, ⟨⟩, others⟩ := bind_returns.mp others
    split at others
    · rename_i inside
      obtain ⟨_, c₃, ⟨⟩, others⟩ := bind_returns.mp others
      exact ⟨c₁, first, inside, others⟩
    · cases others
  · rintro ⟨c₁, first, inside, others⟩
    refine ⟨(), c₁, first, bind_returns.mpr ⟨c₁.func, c₁, rfl, ?_⟩⟩
    rw [if_pos inside]
    exact bind_returns.mpr ⟨(), c₁.reset, rfl, others⟩

theorem chunkStarts_level (body : List Node) (shaped : AllShaped .statement body) (block : areBlocks body = true)
    {c : Compiler} (owing : Owing 0 c) (whole : body.all (settled watched 0) = true) :
    Level watched (chunkStarts env body c) := by
  induction body generalizing c with
  | nil => exact Level.nil
  | cons node rest ih =>
      have parts := and_straight block
      have shapedNode := shaped node List.mem_cons_self
      have conditions := and_straight whole
      rw [chunkStarts, Level.append]
      refine ⟨starts_level node shapedNode parts.1 owing conditions.1, ?_⟩
      split
      · rename_i whole
        obtain ⟨c₁, ran, -, ⟨⟩⟩ := genStatements_cons.mp whole
        exact ih (fun node member => shaped node (List.mem_cons_of_mem _ member)) parts.2
          ((genNode_owes node shapedNode parts.1).run owing ran).reset conditions.2
      · exact Level.nil

theorem chunkStarts_settled (body : List Node) (shaped : AllShaped .statement body) (block : areBlocks body = true)
    {c c' : Compiler} (owing : Owing 0 c) (ran : genStatements env body c = .ok ((), c'))
    (level : Level watched (chunkStarts env body c)) : body.all (settled watched 0) = true := by
  induction body generalizing c with
  | nil => rfl
  | cons node rest ih =>
      have parts := and_straight block
      have shapedNode := shaped node List.mem_cons_self
      obtain ⟨c₁, first, inside, others⟩ := genStatements_cons.mp ran
      have one : genStatements env [node] c = .ok ((), c₁.reset) := genStatements_cons.mpr ⟨c₁, first, inside, rfl⟩
      rw [chunkStarts, Level.append, one] at level
      have here := starts_settled node shapedNode parts.1 owing first level.1
      have after := ih (fun node member => shaped node (List.mem_cons_of_mem _ member)) parts.2
        ((genNode_owes node shapedNode parts.1).run owing first).reset others level.2
      rw [List.all_cons, here, after]
      rfl

end Starts

-- the statements that are watched start with the registers of the locals: in every program that is compiled just when
-- the count of the registers that are left says so, and whenever it says so also where compiling stops
theorem registers_level {lexer : Lex.Lexer} {body : List Node} (parsed : parse lexer = .ok (.chunk body))
    (block : areBlocks body = true) (env : Env) (breakList : Option (List Nat)) (watched : Node → Bool) :
    (body.all (settled watched 0) = true → Level watched (chunkStarts env body { breakList })) ∧
      ∀ c, genChunk env (.chunk body) { breakList } = .ok ((), c) →
        (Level watched (chunkStarts env body { breakList }) ↔ body.all (settled watched 0) = true) := by
  have shaped : AllShaped .statement body := by
    cases parse_shaped parsed
    assumption
  have start : Owing 0 { breakList } := ⟨Nat.zero_le _, rfl⟩
  have level : body.all (settled watched 0) = true → Level watched (chunkStarts env body { breakList }) :=
    chunkStarts_level body shaped block start
  refine ⟨level, fun c compiled => ⟨fun holds => ?_, level⟩⟩
  obtain ⟨_, c₁, ran, -⟩ := bind_returns.mp compiled
  exact chunkStarts_settled body shaped block start ran holds

def settledSource : List UInt8 := Lex.bytes "local a do local b = a f(b) end"

def anyStatement (_ : Node) : Bool := true

theorem registers_level_settled : ∃ body, parse (Lex.Lexer.init settledSource []) = .ok (.chunk body) ∧
    body.all (settled anyStatement 0) = true ∧ Level anyStatement (chunkStarts (plainEnv settledSource) body {}) := by
  have accepted : chunkTest (fun body => areBlocks body && body.all (settled anyStatement 0))
      (parse (Lex.Lexer.init settledSource [])) = true := by decide +kernel
  obtain ⟨body, parsed, tested⟩ := chunkTest_holds accepted
  have parts := and_straight tested
  have level := registers_level parsed parts.1 (plainEnv settledSource) none anyStatement
  exact ⟨body, parsed, parts.2, level.1 parts.2⟩

def isLocalStatement : Node → Bool
  | .assignmentStatement _ _ isLocal => isLocal
  | _ => false

def leftSource : List UInt8 := Lex.bytes "do f() local x = 1 y = x end"

-- the register of the result of `f` is not given back: 1 goes to register 1, and `x` is read from register 0
theorem local_displaced : ∃ body c, parse (Lex.Lexer.init leftSource []) = .ok (.chunk body) ∧ areBlocks body = true ∧
    genChunk (plainEnv leftSource) (.chunk body) {} = .ok ((), c) ∧
      ¬Level isLocalStatement (chunkStarts (plainEnv leftSource) body {}) ∧
      c.func.code[2]? = some (.instr (.abx .loadk 1 1)) ∧ c.func.code[3]? = some (.instr (.abx .setglobal 0 2)) := by
  have displaced : chunkTest (fun body => areBlocks body &&
      (genChunk (plainEnv leftSource) (.chunk body) {}).toOption.any fun result =>
        decide (¬Level isLocalStatement (chunkStarts (plainEnv leftSource) body {}) ∧
          result.2.func.code[2]? = some (.instr (.abx .loadk 1 1)) ∧
          result.2.func.code[3]? = some (.instr (.abx .setglobal 0 2))))
      (parse (Lex.Lexer.init leftSource [])) = true := by decide +kernel
  obtain ⟨body, parsed, tested⟩ := chunkTest_holds displaced
  have parts := and_straight tested
  cases compiled : genChunk (plainEnv leftSource) (.chunk body) {} with
  | error e =>
      rw [compiled] at parts
      cases parts.2
  | ok result =>
      rw [compiled] at parts
      exact ⟨body, result.2, parsed, parts.1, compiled, of_decide_eq_true parts.2⟩

end Zua.Compile
