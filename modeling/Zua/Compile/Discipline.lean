import Zua.Compile.Registers
import Zua.Compile.Straight

/-!
# Registers while a tree is compiled

What an expression leaves in the current description holds the registers from the first free one on, whatever the
expression is. Comparisons and functions are covered too, but compiling them may stop at a check.
-/

namespace Zua.Compile
open Code Syntax Parse
open Zua.Lex (Token ch)

/-! ## Computations of the compiler -/

def Tolerated (loose : Bool) (e : Stop) : Prop := loose = true ∨ Limit e

theorem Limit.tolerated {loose : Bool} {e : Stop} (limit : Limit e) : Tolerated loose e := .inr limit

def Balances {α : Type} (loose : Bool) (x : CompileM α) (c : Compiler) (Q : α → Compiler → Prop) : Prop :=
  c.func.freeRegister ≤ c.func.maxStackSize.val → Sat (Tolerated loose) x c fun a c' =>
    c'.func.freeRegister ≤ c'.func.maxStackSize.val ∧ c'.func.numActiveLocalVars = c.func.numActiveLocalVars ∧ Q a c'

variable {env : Env} {loose : Bool} {c : Compiler} {low : Nat}

namespace Balances

variable {α β : Type} {Q : α → Compiler → Prop}

theorem pure {a : α} (h : Q a c) : Balances loose (Pure.pure a) c Q := fun upper => ⟨upper, rfl, h⟩

theorem throw {e : Stop} (limit : Limit e) : Balances loose (MonadExcept.throw e : CompileM α) c Q :=
  fun _ => limit.tolerated

theorem bind {x : CompileM α} {f : α → CompileM β} {R : β → Compiler → Prop} (first : Balances loose x c Q)
    (rest : ∀ a c', c'.func.numActiveLocalVars = c.func.numActiveLocalVars → Q a c' → Balances loose (f a) c' R) :
    Balances loose (x >>= f) c R := by
  intro upper
  refine Sat.bind (Sat.mono (first upper) ?_)
  rintro a c' ⟨upper, number, h⟩
  refine Sat.mono (rest a c' number h upper) ?_
  rintro b c'' ⟨upper, number', h'⟩
  exact ⟨upper, number'.trans number, h'⟩

theorem mono {x : CompileM α} {R : α → Compiler → Prop} (h : Balances loose x c Q)
    (weaker : ∀ a c', c'.func.numActiveLocalVars = c.func.numActiveLocalVars → Q a c' → R a c') :
    Balances loose x c R := by
  intro upper
  refine Sat.mono (h upper) ?_
  rintro a c' ⟨upper, number, holds⟩
  exact ⟨upper, number, weaker a c' number holds⟩

theorem getFunc {f : Func → CompileM α} (h : Balances loose (f c.func) c Q) :
    Balances loose (Compile.getFunc >>= f) c Q := h

theorem onFunc {x : FuncM α} {Q : α → Func → Prop} (works : Works x c.func Q) :
    Balances loose (onFunc x) c fun a c' => c'.func.curExp = c.func.curExp ∧ Q a c'.func := by
  intro upper
  refine sat_onFunc ?_
  have holds := works upper
  unfold Sat at holds ⊢
  split
  · rename_i run
    rw [run] at holds
    obtain ⟨upper, number, same, h⟩ := holds
    exact ⟨upper, number, same, h⟩
  · rename_i run
    rw [run] at holds
    exact Limit.tolerated holds

theorem setExp (e : ExpDesc) : Balances loose (setExp e) c fun _ c' => c'.func = { c.func with curExp := e } :=
  fun upper => ⟨upper, rfl, rfl⟩

theorem onExp {f : ExpDesc → FuncM ExpDesc} {Q : ExpDesc → Func → Prop} (works : Works (f c.func.curExp) c.func Q) :
    Balances loose (onExp f) c fun _ c' => ∃ fs, c'.func = { fs with curExp := c'.func.curExp } ∧
      Q c'.func.curExp fs := by
  refine .getFunc (.bind (.onFunc works) ?_)
  rintro e c₁ - ⟨-, h⟩
  refine (setExp e).mono ?_
  rintro _ c₂ - same
  rw [same]
  exact ⟨c₁.func, rfl, h⟩

theorem onExpReg {f : ExpDesc → FuncM (Nat × ExpDesc)} {Q : Nat × ExpDesc → Func → Prop}
    (works : Works (f c.func.curExp) c.func Q) : Balances loose (onExpReg f) c fun r c' =>
      ∃ fs, c'.func = { fs with curExp := c'.func.curExp } ∧ Q (r, c'.func.curExp) fs := by
  refine .getFunc (.bind (.onFunc works) ?_)
  rintro ⟨r, e⟩ c₁ - ⟨-, h⟩
  refine .bind (setExp e) ?_
  rintro _ c₂ - same
  refine .pure ?_
  rw [same]
  exact ⟨c₁.func, rfl, h⟩

end Balances

/-! ## The current description -/

theorem Temps.frame {fs fs' : Func} {e : ExpDesc} (free : fs'.freeRegister = fs.freeRegister)
    (number : fs'.numActiveLocalVars = fs.numActiveLocalVars) (code : fs'.code = fs.code) (temps : Temps low fs e) :
    Temps low fs' e := by
  cases e with
  | void | nil | «true» | «false» | constantIndex | number | global => exact free.trans temps
  | localRegister => exact ⟨number ▸ temps.1, free.trans temps.2⟩
  | upvalueIndex => exact temps
  | indexed =>
      simp only [Temps, Key, Slot, free, number] at temps ⊢
      exact temps
  | jmp => trivial
  | relocable | call | vararg =>
      simp only [Temps, InstrAt, free, code] at temps ⊢
      exact temps
  | nonreloc =>
      simp only [Temps, Slot, free, number] at temps ⊢
      exact temps

-- the registers from `low` on are those of the current description
abbrev Holds (low : Nat) (c : Compiler) : Prop := Temps low c.func c.func.curExp

theorem Holds.set {fs : Func} (same : c.func = { fs with curExp := c.func.curExp })
    (temps : Temps low fs c.func.curExp) : Holds low c := by
  refine temps.frame ?_ ?_ ?_ <;> rw [same]

theorem onExp_balances {f : ExpDesc → FuncM ExpDesc} (works : Works (f c.func.curExp) c.func fun e fs => Temps low fs e) :
    Balances loose (onExp f) c fun _ c' => Holds low c' := by
  refine (Balances.onExp works).mono ?_
  rintro _ c' - ⟨fs, same, temps⟩
  exact .set same temps

theorem nextReg_balances (locals : c.func.numActiveLocalVars ≤ low) (holds : Holds low c) :
    Balances loose nextReg c fun r c' => r = low ∧ c'.func.curExp = .nonreloc low ∧ c'.func.freeRegister = low + 1 := by
  refine (Balances.onExpReg (Func.exp2nextreg_works locals holds)).mono ?_
  rintro r c' - ⟨fs, same, is, free⟩
  obtain ⟨rfl, is⟩ := Prod.mk.inj is
  exact ⟨rfl, is, by rw [same]; exact free⟩

theorem anyReg_balances (locals : c.func.numActiveLocalVars ≤ low) (holds : Holds low c) :
    Balances loose (onExpReg Func.exp2anyreg) c fun r c' => c'.func.curExp = .nonreloc r ∧
      Slot c'.func low c'.func.freeRegister r := by
  refine (Balances.onExpReg (Func.exp2anyreg_works locals holds)).mono ?_
  rintro r c' - ⟨fs, same, is, slot⟩
  refine ⟨is, ?_⟩
  rw [same]
  exact slot

/-! ## Names and literals -/

theorem genName_balances (token : Token) : Balances loose (genName env token) c fun _ c' =>
    c'.func = { c.func with constants := c'.func.constants } := by
  refine (Balances.onFunc (Func.putConstant_works _)).mono ?_
  rintro k c' - ⟨-, same, -⟩
  exact same

theorem setExp_balances {e : ExpDesc} (temps : Temps low c.func e) :
    Balances loose (setExp e) c fun _ c' => Holds low c' := by
  refine (Balances.setExp e).mono ?_
  rintro _ c' - same
  rw [Holds, same]
  exact temps.frame rfl rfl rfl

theorem genLiteral_balances (token : Token) :
    Balances loose (genLiteral env token) c fun _ c' => Holds c.func.freeRegister c' := by
  have index {c₁ : Compiler} {k : Nat} (free : c₁.func.freeRegister = c.func.freeRegister) :
      Balances loose (setExp (.constantIndex k)) c₁ fun _ c' => Holds c.func.freeRegister c' :=
    setExp_balances (show Temps c.func.freeRegister c₁.func (.constantIndex k) from free)
  unfold genLiteral
  split
  · split
    · refine .bind (.onFunc (Func.putConstant_works _)) ?_
      rintro k c₁ - ⟨-, same, -⟩
      exact index (by rw [same])
    · exact .throw (by decide)
  · split
    · exact setExp_balances rfl
    · exact .throw (by decide)
  · exact setExp_balances rfl
  · exact setExp_balances rfl
  · exact setExp_balances rfl
  · refine .bind (.onFunc (Func.emitABC_works _ _ _ _)) ?_
    rintro k c₁ - ⟨-, rfl, same⟩
    refine setExp_balances ?_
    rw [same]
    exact ⟨rfl, .last rfl⟩
  · refine .bind (genName_balances token) ?_
    rintro k c₁ - same
    exact index (by rw [same])
  · exact .throw (by decide)

theorem searchVar_limit {fs : Func} {source name : List UInt8} {n : Nat} {e : Stop}
    (stops : fs.searchVar source name n = .error e) : Limit e := by
  induction n with
  | zero => cases stops
  | succ n ih =>
      rw [Func.searchVar] at stops
      split at stops
      · cases stops
        exact ⟨by decide, by decide⟩
      · split at stops
        · cases stops
        · exact ih stops

theorem findLocalVarByToken_works {fs : Func} (token : Token) : Works (Func.findLocalVarByToken env.source token) fs
    fun found fs' => fs' = fs ∧ ∀ r, found = some r → r < fs.numActiveLocalVars := by
  refine Works.get fun _ => ?_
  cases search : fs.searchVar env.source (token.slice env.source) fs.numActiveLocalVars with
  | error e => exact fun _ => searchVar_limit search
  | ok found =>
      refine fun upper => ⟨upper, rfl, rfl, rfl, ?_⟩
      rintro r rfl
      exact searchVar_lt search

theorem genIdentifier_balances (token : Token) : Balances loose (genIdentifier env token) c fun _ c' =>
    c'.func.freeRegister = c.func.freeRegister ∧ Func.Variable c'.func c'.func.curExp := by
  refine .bind (.onFunc (findLocalVarByToken_works token)) ?_
  rintro found c₁ - ⟨-, same, small⟩
  refine .bind (x := recordBinding token found) (Q := fun _ c' => c'.func = c₁.func) (fun upper => ⟨upper, rfl, rfl⟩) ?_
  rintro _ c₂ - same'
  cases found with
  | some r =>
      refine (Balances.setExp _).mono ?_
      rintro _ c₃ - set
      rw [set, same', same]
      exact ⟨rfl, small r rfl⟩
  | none =>
      refine .bind (genName_balances token) ?_
      rintro k c₃ - named
      refine (Balances.setExp _).mono ?_
      rintro _ c₄ - set
      rw [set, named, same', same]
      exact ⟨rfl, trivial⟩

theorem Variable.holds (named : Func.Variable c.func c.func.curExp) : Holds c.func.freeRegister c := by
  cases same : c.func.curExp with
  | localRegister r =>
      rw [same] at named
      rw [Holds, same]
      exact ⟨named, rfl⟩
  | global k =>
      rw [Holds, same]
      rfl
  | _ =>
      rw [same] at named
      exact named.elim

/-! ## Expressions -/

theorem genDot_balances {field separator : Token} (dot : separator.isChar (ch ':') = false)
    (locals : c.func.numActiveLocalVars ≤ low) (holds : Holds low c) :
    Balances loose (genField env field separator) c fun _ c' => Holds low c' := by
  unfold genField
  rw [if_neg (by rw [dot]; exact Bool.false_ne_true)]
  refine .bind (anyReg_balances locals holds) ?_
  rintro r c₁ number₁ ⟨is, slot⟩
  refine .bind (genName_balances field) ?_
  rintro k c₂ number₂ same
  have table : c₂.func.curExp = .nonreloc r := by rw [same, is]
  have taken : Slot c₂.func low c₁.func.freeRegister r := by
    rw [same]
    exact slot
  have constant : Temps c₁.func.freeRegister c₂.func (.constantIndex k) := by rw [same]; rfl
  exact onExp_balances (Func.indexed_works (by omega) table taken constant)

theorem genColon_balances {field separator : Token} (colon : separator.isChar (ch ':') = true)
    (locals : c.func.numActiveLocalVars ≤ low) (holds : Holds low c) :
    Balances loose (genField env field separator) c fun _ c' =>
      c'.func.curExp = .nonreloc low ∧ c'.func.freeRegister = low + 2 := by
  unfold genField
  rw [if_pos colon]
  refine .bind (genName_balances field) ?_
  rintro k c₁ number₁ same
  have holds₁ : Holds low c₁ := by
    rw [Holds, same]
    exact holds.frame rfl rfl rfl
  refine (Balances.onExp (Func.handleSelf_works (by rw [number₁]; exact locals) holds₁)).mono ?_
  rintro _ c₂ - ⟨fs, same, is, free⟩
  refine ⟨is, ?_⟩
  rw [same]
  exact free

-- what the arguments need is given back at once
theorem genCallInstruction_balances (isStatement : Bool) (taken : low + 1 ≤ c.func.freeRegister) :
    Balances loose (genCallInstruction low isStatement) c fun _ c' => Holds low c' ∧ c'.func.freeRegister = low + 1 := by
  refine .getFunc ?_
  rw [if_neg (by omega)]
  refine .bind (.onFunc (Func.emitABC_works _ _ _ _)) ?_
  rintro index c₁ - ⟨-, rfl, emitted⟩
  refine .bind (Balances.setExp _) ?_
  rintro _ c₂ - set
  refine (Balances.onFunc (Works.modify (Q := fun _ fs' => fs' = { c₂.func with freeRegister := low + 1 }) ?_ rfl rfl
    rfl)).mono ?_
  · intro upper
    have : c₂.func.freeRegister = c.func.freeRegister := by rw [set, emitted]
    dsimp only
    omega
  · rintro _ c₃ - ⟨-, freed⟩
    rw [Holds, freed, set, emitted]
    exact ⟨⟨rfl, .last ⟨rfl, rfl⟩⟩, rfl⟩

-- whatever the free register is, what is taken starts with it
def Balanced (env : Env) (loose : Bool) : Role → Node → Prop
  | .expression, node | .key, node => ∀ c, c.func.numActiveLocalVars ≤ c.func.freeRegister →
      Balances loose (genNode env node) c fun _ c' => Holds c.func.freeRegister c'
  | .callee, node => ∀ c, c.func.numActiveLocalVars ≤ c.func.freeRegister →
      Balances loose (genNode env node) c fun _ c' =>
        if isMethod node then c'.func.curExp = .nonreloc c.func.freeRegister ∧
          c'.func.freeRegister = c.func.freeRegister + 2
        else Holds c.func.freeRegister c'
  | .field, node => ∀ c low, c.func.curExp = .nonreloc low → c.func.numActiveLocalVars ≤ c.func.freeRegister →
      Balances loose (genTableField env node) c fun positional c' =>
        if positional then Holds c.func.freeRegister c' else c'.func.freeRegister = c.func.freeRegister
  | _, _ => True

theorem genArguments_balances {nodes : List Node} (all : ∀ node ∈ nodes, Balanced env loose .expression node) (c : Compiler)
    (locals : c.func.numActiveLocalVars ≤ c.func.freeRegister) : Balances loose (genArguments env nodes) c fun _ c' =>
      c'.func.freeRegister = c.func.freeRegister + nodes.length := by
  induction nodes generalizing c with
  | nil =>
      rw [genArguments]
      exact .pure rfl
  | cons node nodes ih =>
      rw [genArguments]
      refine .bind (all node List.mem_cons_self c locals) ?_
      rintro _ c₁ number₁ holds
      refine .bind (nextReg_balances (by rw [number₁]; exact locals) holds) ?_
      rintro _ c₂ number₂ ⟨rfl, -, free⟩
      refine (ih (fun node member => all node (List.mem_cons_of_mem _ member)) c₂ ?_).mono ?_
      · rw [number₂, number₁, free]
        exact Nat.le_succ_of_le locals
      · rintro _ c₃ - more
        rw [more, free, List.length_cons]
        omega

theorem genExpList1_balances {nodes : List Node} (all : ∀ node ∈ nodes, Balanced env loose .expression node) (c : Compiler)
    (locals : c.func.numActiveLocalVars ≤ c.func.freeRegister) (some : nodes ≠ []) :
    Balances loose (genExpList1 env nodes) c fun _ c' => Holds (c.func.freeRegister + (nodes.length - 1)) c' := by
  induction nodes generalizing c with
  | nil => exact (some rfl).elim
  | cons node nodes ih =>
      rw [genExpList1]
      refine .bind (all node List.mem_cons_self c locals) ?_
      rintro _ c₁ number₁ holds
      cases nodes with
      | nil => exact .pure holds
      | cons next nodes =>
          refine .bind (nextReg_balances (by rw [number₁]; exact locals) holds) ?_
          rintro _ c₂ number₂ ⟨rfl, -, free⟩
          refine (ih (fun node member => all node (List.mem_cons_of_mem _ member)) c₂ ?_ (List.cons_ne_nil _ _)).mono ?_
          · rw [number₂, number₁, free]
            exact Nat.le_succ_of_le locals
          · rintro _ c₃ - holds
            have count : c₂.func.freeRegister + ((next :: nodes).length - 1) =
                c.func.freeRegister + ((node :: next :: nodes).length - 1) := by
              simp only [free, List.length_cons]
              omega
            rw [← count]
            exact holds

theorem calledRegister_balances {r : Nat} (is : c.func.curExp = .nonreloc r) :
    Balances loose calledRegister c fun base c' => base = r ∧ c' = c := by
  refine .getFunc ?_
  rw [is]
  exact .pure ⟨rfl, rfl⟩

theorem genCall_balances {callee : Node} {arguments : List Node} {openArgs closeArgs : Option Token} {isStatement : Bool}
    (called : Balanced env loose .callee callee) (all : ∀ node ∈ arguments, Balanced env loose .expression node)
    (c : Compiler) (locals : c.func.numActiveLocalVars ≤ c.func.freeRegister) :
    Balances loose (genNode env (.call callee arguments openArgs closeArgs isStatement)) c fun _ c' =>
      Holds c.func.freeRegister c' ∧ c'.func.freeRegister = c.func.freeRegister + 1 := by
  rw [genNode]
  refine .bind (called c locals) ?_
  rintro _ c₁ number₁ holds
  have calls (c₂ : Compiler) (number : c₂.func.numActiveLocalVars = c.func.numActiveLocalVars)
      (is : c₂.func.curExp = .nonreloc c.func.freeRegister) (taken : c.func.freeRegister + 1 ≤ c₂.func.freeRegister) :
      Balances loose (do
        let base ← calledRegister
        genArguments env arguments
        genCallInstruction base isStatement) c₂ fun _ c' =>
          Holds c.func.freeRegister c' ∧ c'.func.freeRegister = c.func.freeRegister + 1 := by
    refine .bind (calledRegister_balances is) ?_
    rintro _ c₃ - ⟨rfl, rfl⟩
    refine .bind (genArguments_balances all c₃ (by omega)) ?_
    rintro _ c₄ - more
    exact genCallInstruction_balances isStatement (by omega)
  split
  · rename_i method
    rw [if_pos method] at holds
    exact calls c₁ number₁ holds.1 (by omega)
  · rename_i plain
    rw [if_neg plain] at holds
    refine .bind (nextReg_balances (by rw [number₁]; exact locals) holds) ?_
    rintro _ c₂ number₂ ⟨rfl, is, free⟩
    exact calls c₂ (number₂.trans number₁) is (by omega)

/-! ## Tables -/

-- between two fields: the value that is not yet in its register, above those that are
structure Filling (tableReg : Nat) (c : Compiler) (st : FieldState) : Prop where
  table : c.func.curExp = .nonreloc tableReg
  above : ∃ mid, tableReg + 1 ≤ mid ∧ Temps mid c.func st.arrayValueExp
  empty : st.unflushed = 0 → st.arrayValueExp = .void ∧ c.func.freeRegister = tableReg + 1

theorem flushField_balances {tableReg : Nat} {st : FieldState} (filling : Filling tableReg c st)
    (locals : c.func.numActiveLocalVars ≤ tableReg) : Balances loose (flushField tableReg st) c fun st' c' =>
      Filling tableReg c' st' ∧ st'.arrayValueExp = .void ∧ tableReg + 1 ≤ c'.func.freeRegister := by
  obtain ⟨mid, above, temps⟩ := filling.above
  have flushes (value : st.arrayValueExp ≠ .void) : Balances loose (do
      let _ ← onFunc (Func.exp2nextreg st.arrayValueExp)
      if Func.fieldsPerFlush ≤ st.unflushed then
        onFunc (Func.setlist tableReg st.numArrayValues (some st.unflushed))
        return { st with arrayValueExp := .void, unflushed := 0 }
      else return { st with arrayValueExp := .void }) c fun st' c' =>
        Filling tableReg c' st' ∧ st'.arrayValueExp = .void ∧ tableReg + 1 ≤ c'.func.freeRegister := by
    refine .bind (.onFunc (Func.exp2nextreg_works (by omega) temps)) ?_
    rintro _ c₁ - ⟨same, -, free⟩
    split
    · refine .bind (.onFunc (Func.setlist_works tableReg _ _ (by omega))) ?_
      rintro _ c₂ - ⟨same', free⟩
      exact .pure ⟨⟨same'.trans (same.trans filling.table), ⟨_, le_rfl, free⟩, fun _ => ⟨rfl, free⟩⟩, rfl, free.ge⟩
    · refine .pure ⟨⟨same.trans filling.table, ⟨c₁.func.freeRegister, by omega, rfl⟩, fun none => ?_⟩, rfl, by omega⟩
      exact (value (filling.empty none).1).elim
  unfold flushField
  split
  · rename_i void
    rw [void] at temps
    exact .pure ⟨filling, void, above.trans temps.ge⟩
  · exact flushes ‹_›

theorem flushLast_balances {tableReg : Nat} {st : FieldState} (filling : Filling tableReg c st)
    (locals : c.func.numActiveLocalVars ≤ tableReg) : Balances loose (flushLast tableReg st) c fun _ c' =>
      c'.func.curExp = .nonreloc tableReg ∧ c'.func.freeRegister = tableReg + 1 := by
  obtain ⟨mid, above, temps⟩ := filling.above
  unfold flushLast
  split
  · exact .pure ⟨filling.table, (filling.empty ‹_›).2⟩
  split
  · refine .bind (.onFunc (Func.setreturns_works temps ‹_› none)) ?_
    rintro _ c₁ - ⟨same, free, -⟩
    refine .bind (.onFunc (Func.setlist_works tableReg _ _ (by omega))) ?_
    rintro _ c₂ - ⟨same', free⟩
    exact .pure ⟨same'.trans (same.trans filling.table), free⟩
  · refine .bind (.onFunc (Func.exp2nextregUnlessVoid_works (by omega) temps)) ?_
    rintro _ c₁ - ⟨same, free⟩
    refine .bind (.onFunc (Func.setlist_works tableReg _ _ ?_)) ?_
    · split at free <;> omega
    · rintro _ c₂ - ⟨same', free⟩
      exact .pure ⟨same'.trans (same.trans filling.table), free⟩

theorem rk_balances (locals : c.func.numActiveLocalVars ≤ low) (holds : Holds low c) :
    Balances loose (onExpReg Func.exp2RK) c fun _ c' => low ≤ c'.func.freeRegister := by
  refine (Balances.onExpReg (Func.exp2RK_works locals holds)).mono ?_
  rintro rk c' - ⟨fs, same, asRK⟩
  rw [same]
  show low ≤ fs.freeRegister
  rcases Func.AsRK.cases asRK with same | ⟨-, same⟩ <;> omega

theorem storeField_balances {tableReg freeReg keyRk : Nat} (holds : Holds low c) (le : freeReg ≤ low)
    (locals : c.func.numActiveLocalVars ≤ low) : Balances loose (storeField tableReg freeReg keyRk) c fun _ c' =>
      c'.func.freeRegister = freeReg := by
  refine .bind (rk_balances locals holds) ?_
  rintro valRk c₁ - above
  refine .bind (.onFunc (Func.emitABC_works _ _ _ _)) ?_
  rintro index c₂ - ⟨-, -, emitted⟩
  refine (Balances.onFunc (Works.modify (Q := fun _ fs' => fs'.freeRegister = freeReg) (fun upper => ?_) rfl rfl rfl)).mono
    fun _ _ _ h => h.2
  have kept : c₂.func.freeRegister = c₁.func.freeRegister := by rw [emitted]
  dsimp only
  omega

theorem recField_balances {key value : Node} (first : Balanced env loose .key key)
    (second : Balanced env loose .expression value) : Balanced env loose .field (.tableField (some key) value) := by
  intro c low table locals
  rw [genTableField]
  refine .getFunc ?_
  have found : (registerOf c.func.curExp : CompileM Nat) = Pure.pure low := by
    rw [table]
    rfl
  rw [found, pure_bind]
  refine .bind (first c locals) ?_
  rintro _ c₁ number₁ holds
  refine .bind (rk_balances (by rw [number₁]; exact locals) holds) ?_
  rintro keyRk c₂ number₂ above
  refine .bind (second c₂ (by rw [number₂, number₁]; omega)) ?_
  rintro _ c₃ number₃ holds
  refine .bind (storeField_balances holds above (by rw [number₃, number₂, number₁]; omega)) ?_
  rintro _ c₄ - free
  exact .pure free

theorem genFields_balances {tableReg : Nat} {fields : List Node} (all : ∀ field ∈ fields, Balanced env loose .field field)
    (c : Compiler) (st : FieldState) (filling : Filling tableReg c st) (locals : c.func.numActiveLocalVars ≤ tableReg) :
    Balances loose (genFields env tableReg fields st) c fun st' c' => Filling tableReg c' st' := by
  induction fields generalizing c st with
  | nil =>
      rw [genFields]
      exact .pure filling
  | cons field fields ih =>
      rw [genFields]
      refine .getFunc (.bind (flushField_balances filling locals) ?_)
      rintro st₁ c₁ number₁ ⟨filling₁, void, above⟩
      refine .bind (all field List.mem_cons_self c₁ tableReg filling₁.table (by omega)) ?_
      rintro positional c₂ number₂ field
      refine .getFunc (.bind (Balances.setExp _) ?_)
      rintro _ c₃ number₃ set
      have table : c₃.func.curExp = .nonreloc tableReg := by rw [set, filling.table]
      refine ih (fun field member => all field (List.mem_cons_of_mem _ member)) c₃ _ ?_ (by omega)
      cases positional with
      | true =>
          refine ⟨table, ⟨c₁.func.freeRegister, above, ?_⟩, fun none => by cases none⟩
          rw [set]
          exact Temps.frame rfl rfl rfl field
      | false =>
          have free : c₃.func.freeRegister = c₁.func.freeRegister := by
            rw [set]
            exact field
          refine ⟨table, ⟨c₁.func.freeRegister, above, ?_⟩, fun none => ⟨void, free.trans (filling₁.empty none).2⟩⟩
          show Temps _ _ st₁.arrayValueExp
          rw [void]
          exact free

theorem genTable_balances {fields : List Node} {openToken closeToken : Token}
    (all : ∀ field ∈ fields, Balanced env loose .field field) :
    Balanced env loose .expression (.tableConstructor fields openToken closeToken) := by
  intro c locals
  rw [genNode]
  refine .bind (.onFunc (Func.emitABC_works _ _ _ _)) ?_
  rintro index c₁ number₁ ⟨-, rfl, emitted⟩
  have made : Temps c.func.freeRegister c₁.func (.relocable c.func.code.length) := by
    rw [emitted]
    exact ⟨rfl, .last ⟨rfl, fun h => OpCode.noConfusion h⟩⟩
  refine .bind (setExp_balances made) ?_
  rintro _ c₂ number₂ holds
  refine .bind (nextReg_balances (by omega) holds) ?_
  rintro tableReg c₃ number₃ ⟨rfl, table, free⟩
  have start : Filling c.func.freeRegister c₃ {} := ⟨table, ⟨_, le_rfl, free⟩, fun _ => ⟨rfl, free⟩⟩
  refine .bind (genFields_balances all c₃ {} start (by omega)) ?_
  rintro st c₄ number₄ filling
  refine .bind (flushLast_balances filling (by omega)) ?_
  rintro st c₅ number₅ ⟨table, free⟩
  have holds : Holds c.func.freeRegister c₅ := by
    rw [Holds, table]
    exact .inr ⟨rfl, free⟩
  split
  · exact .pure holds
  · refine (Balances.onFunc (Func.patch_works _ _)).mono ?_
    rintro _ c₆ - ⟨same, i, -, patched⟩
    rw [Holds, same, table, patched]
    exact .inr ⟨rfl, free⟩

theorem tolerated_true : Tolerated true = fun _ => True := funext fun _ => eq_true (.inl rfl)

theorem genClosure_balances : Balances loose (genClosure env none false) c fun _ c' => Holds c.func.freeRegister c' := by
  refine .getFunc ?_
  refine .bind (.onFunc (Func.emitABx_works _ _ _)) ?_
  rintro index c₁ - ⟨-, rfl, emitted⟩
  refine .bind (Balances.setExp _) ?_
  rintro _ c₂ - set
  refine (Balances.onFunc (Func.reserveregs_works 1)).mono ?_
  rintro _ c₃ - ⟨is, free, -, -⟩
  rw [Holds, is, set]
  refine .inr ⟨rfl, ?_⟩
  rw [free, set, emitted]

-- the registers of a function are its own
theorem genFunction_balances {parameters : List Token} {body : List Node} :
    Balanced env true .expression (.functionDeclaration none parameters body false) := by
  intro c locals upper
  rw [genNode, tolerated_true]
  refine Sat.bind (Sat.get ?_)
  refine Sat.last fun _ _ => Sat.last fun _ _ => Sat.last fun _ _ => Sat.last fun _ _ => Sat.last fun _ child => ?_
  refine Sat.bind (Sat.modify ?_)
  have closed : Balances true (genClosure env none false) { child with func := c.func } fun _ c' =>
      Holds c.func.freeRegister c' := genClosure_balances
  have closed := closed upper
  rw [tolerated_true] at closed
  exact closed

theorem areStraight_mem {nodes : List Node} (straight : areStraight nodes = true) : ∀ node ∈ nodes, isStraight node = true := by
  induction nodes with
  | nil => exact fun node member => (List.not_mem_nil member).elim
  | cons first rest ih =>
      simp only [areStraight, Bool.and_eq_true] at straight
      intro node member
      rcases List.mem_cons.mp member with rfl | member
      · exact straight.1
      · exact ih straight.2 node member

theorem genIndex_balances {operand index : Node} {openToken closeToken : Token} (first : Balanced env loose .expression operand)
    (second : Balanced env loose .expression index) :
    Balanced env loose .expression (.indexAccess operand index openToken closeToken) := by
  intro c locals
  rw [genNode]
  refine .bind (first c locals) ?_
  rintro _ c₁ number₁ holds
  refine .bind (anyReg_balances (by omega) holds) ?_
  rintro r c₂ number₂ ⟨table, slot⟩
  refine .getFunc (.bind (Balances.setExp _) ?_)
  rintro _ c₃ number₃ set
  have free : c₃.func.freeRegister = c₂.func.freeRegister := by rw [set]
  have le : c.func.freeRegister ≤ c₂.func.freeRegister := Slot.le slot
  refine .bind (second c₃ (by omega)) ?_
  rintro _ c₄ number₄ holds
  refine .bind (onExp_balances ((Func.dischargevars_works (by omega) holds).mono fun _ _ _ h => h.1)) ?_
  rintro _ c₅ number₅ holds
  rw [free] at holds
  refine onExp_balances (Func.indexed_works (by omega) table ?_ holds)
  unfold Slot
  rw [number₅, number₄, number₃]
  exact slot

theorem jump_balances {f : ExpDesc → FuncM ExpDesc} (stays : Sat (fun _ => True) (f c.func.curExp) c.func fun d fs' =>
    Func.Inside c.func fs' ∧ Func.isJump d = true) : Balances true (onExp f) c fun _ c' => Holds low c' := by
  intro upper
  rw [tolerated_true]
  show Sat _ (onFunc (f c.func.curExp) >>= fun e => setExp e) c _
  refine Sat.bind (sat_onFunc (stays.mono ?_))
  rintro d fs' ⟨inside, jump⟩
  obtain ⟨upper, number, -⟩ := inside upper
  refine sat_onFunc (Sat.modify ⟨upper, number, ?_⟩)
  cases d with
  | jmp index => trivial
  | _ => cases jump

theorem genBinary_balances {op : Token} {left right : Node} (computed : loose = false → Func.isComputed op = true)
    (first : Balanced env loose .expression left) (second : Balanced env loose .expression right) :
    Balanced env loose .expression (.binaryExpression op left right) := by
  intro c locals
  rw [genNode]
  refine .bind (first c locals) ?_
  rintro _ c₁ number₁ holds
  refine .bind (Balances.onExp (Func.leftOperand_works op (by omega) holds)) ?_
  rintro _ c₂ number₂ ⟨fs, same, waits, concat⟩
  have waits : Func.Waits c₂.func c.func.freeRegister c₂.func.freeRegister c₂.func.curExp := by
    rw [same]
    exact waits
  have le : c.func.freeRegister ≤ c₂.func.freeRegister := Func.Waits.le waits
  refine .getFunc (.bind (second c₂ (by omega)) ?_)
  rintro _ c₃ number₃ holds
  cases known : Func.isComputed op with
  | true =>
      exact onExp_balances (Func.binaryOperator_works env.toArithmetic known (by omega) (Func.Waits.frame number₃ waits)
        concat holds)
  | false =>
      cases loose with
      | false => exact Bool.noConfusion (known.symm.trans (computed rfl))
      | true => exact jump_balances (Func.binaryOperator_inside env.toArithmetic known)

theorem and_straight {a b : Bool} (both : (a && b) = true) : a = true ∧ b = true := (Bool.and_eq_true a b).mp both

theorem expression_notMethod {node : Node} (shaped : Shaped .expression node) : isMethod node = false := by
  cases shaped with
  | fieldAccess _ dot => exact dot_notColon dot
  | _ => rfl

theorem Shaped.balances {role : Role} {node : Node} (shaped : Shaped role node) :
    (loose = false → isStraight node = true) → Balanced env loose role node := by
  induction shaped with
  | literal _ =>
      intro _ c locals
      rw [genNode]
      exact genLiteral_balances _
  | identifier _ =>
      intro _ c locals
      rw [genNode]
      refine (genIdentifier_balances _).mono ?_
      rintro _ c' - ⟨free, named⟩
      rw [← free]
      exact Variable.holds named
  | fieldAccess _ dot operand =>
      intro plain c locals
      rw [genNode]
      refine .bind (operand plain c locals) ?_
      rintro _ c₁ number₁ holds
      exact genDot_balances (dot_notColon dot) (by omega) holds
  | indexAccess _ _ operand index =>
      intro plain
      have parts (strict : loose = false) := and_straight (plain strict)
      exact genIndex_balances (operand fun strict => (parts strict).1) (index fun strict => (parts strict).2)
  | call _ _ _ called arguments =>
      intro plain c locals
      have parts (strict : loose = false) := and_straight (plain strict)
      refine (genCall_balances (called fun strict => (parts strict).1) (fun argument member => ?_) c locals).mono
        fun _ _ _ h => h.1
      exact arguments argument member fun strict => areStraight_mem (parts strict).2 argument member
  | function _ body =>
      intro plain
      cases loose with
      | false => cases plain rfl
      | true => exact genFunction_balances
  | tableConstructor _ fields =>
      intro plain
      exact genTable_balances fun field member =>
        fields field member fun strict => areStraight_mem (plain strict) field member
  | unaryExpression isUnary _ argument =>
      intro plain c locals
      rw [genNode]
      refine .bind (argument plain c locals) ?_
      rintro _ c₁ number₁ holds
      exact onExp_balances (Func.unaryOperator_works env.toArithmetic _ (by omega) holds)
  | binaryExpression isBinary _ _ left right =>
      intro plain
      have parts (strict : loose = false) := and_straight (plain strict)
      have operands (strict : loose = false) := and_straight (parts strict).1
      exact genBinary_balances (fun strict => (operands strict).1) (left fun strict => (operands strict).2)
        (right fun strict => (parts strict).2)
  | groupedExpression _ expression =>
      intro plain c locals
      rw [genNode]
      exact expression plain c locals
  | callee expression balanced =>
      intro plain c locals
      refine (balanced plain c locals).mono ?_
      rintro _ c' - holds
      rw [if_neg (by rw [expression_notMethod expression]; exact Bool.false_ne_true)]
      exact holds
  | method _ colon operand =>
      intro plain c locals
      rw [genNode]
      refine .bind (operand plain c locals) ?_
      rintro _ c₁ number₁ holds
      refine (genColon_balances colon (by omega) holds).mono ?_
      rintro _ c' - method
      rw [if_pos (show isMethod (.fieldAccess _ _ _) = true from colon)]
      exact method
  | key _ expression => exact expression
  | nameKey name =>
      intro _ c locals
      rw [genNode]
      exact genLiteral_balances _
  | listField _ value =>
      intro plain c low table locals
      rw [genTableField]
      refine .bind (value plain c locals) ?_
      rintro _ c₁ - holds
      exact .pure holds
  | recField _ _ key value =>
      intro plain
      have parts (strict : loose = false) := and_straight (plain strict)
      exact recField_balances (key fun strict => (parts strict).1) (value fun strict => (parts strict).2)
  | _ => exact fun _ => trivial

end Zua.Compile
