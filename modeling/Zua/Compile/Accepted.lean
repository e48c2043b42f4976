import Zua.Compile.Emitted

/-!
# What is compiled is accepted

The generators for straight-line code keep the words checked, and so the verifier accepts the function that
`compile` returns.
-/

namespace Zua.Compile
open Code Syntax
open Memory (Constant)
open Zua.Lex (Token ch)

variable {low low' : Nat} {fs fs' : Func} {exempt : Option Nat} {i : Instruction} {e : ExpDesc} {index : Nat}

/-! ## Lists of values -/

namespace Func

theorem reserveMore_ends (extra : Nat) (lower : low ≤ fs.freeRegister) (upper : fs.freeRegister ≤ fs.maxStackSize.val) :
    Ends (reserveMore extra) fs fun _ fs' => Resized low fs fs' ∧ fs'.freeRegister = fs.freeRegister + (extra - 1) := by
  unfold reserveMore
  split
  · exact reserveregs_ends (extra - 1) lower
  · refine .pure ⟨⟨rfl, rfl, rfl, rfl, le_rfl, lower, upper⟩, ?_⟩
    omega

-- a call, or all values of the function, gets as many results as there are variables without a value
def results (num : Option Nat) : Nat := (num.map (· + 1)).getD 0

-- the call that is the last instruction, with a number of results that its registers are not there for yet
structure Adjusted (low index : Nat) (num : Option Nat) (fs : Func) (i : Instruction) : Prop where
  stable : Stable low (some index) fs
  last : index + 1 = fs.code.length
  located : fs.code[index]? = some (.instr i)
  few : num.getD 0 < 511

theorem setreturns_call {num : Option Nat} (h : Described low fs (.call index)) : Ends (setreturns (.call index) num) fs
    fun _ fs' => ∃ i, i.op = .call ∧ Fine fs.maxStackSize.val fs.constants i ∧ fs.freeRegister = i.a + 1 ∧
      low ≤ i.a ∧ Adjusted low index num fs' { i with c := results num } ∧
      fs'.freeRegister = fs.freeRegister ∧ fs'.maxStackSize = fs.maxStackSize := by
  obtain ⟨stable, last, i, located, op, -, top, above⟩ := h
  have stable : Stable low none fs := stable
  have fine := (stable.coded.instrs index i located (Option.some_ne_none _).symm).1
  have operands := fine.operands
  simp only [FineOperands, op] at operands
  have used : i.b ≠ 0 := by omega
  unfold setreturns
  split
  · exact .throw _
  · rename_i room
    refine (patch_ends stable (.inl rfl) located id (by simp [consumes, op, used])
      (by simp [Function.takesBatch, op])).mono ?_
    rintro _ _ - ⟨patched, there, rfl⟩
    refine ⟨i, op, fine, top, above, ⟨patched, ?_, there, by omega⟩, rfl, rfl⟩
    rw [List.length_set]
    exact last

theorem setreturns_vararg {num : Option Nat} (h : Described low fs (.vararg index)) :
    Ends (setreturns (.vararg index) num) fs fun _ fs' =>
      Adjusted low index num fs' ⟨.vararg, fs.freeRegister, results num, 0⟩ ∧ fs'.freeRegister = fs.freeRegister + 1 := by
  obtain ⟨stable, last, located⟩ := h
  unfold setreturns
  split
  · exact .throw _
  · rename_i room
    refine Ends.get (.bind (patch_ends stable (.inr rfl) located id rfl rfl) ?_)
    rintro _ _ - ⟨patched, there, rfl⟩
    refine (reserveregs_ends 1 patched.lower).mono ?_
    rintro _ fs₂ - ⟨resized, more⟩
    refine ⟨⟨patched.resize resized, ?_, by rw [resized.code]; exact there, by omega⟩, more⟩
    rw [resized.code, List.length_set]
    exact last

theorem Adjusted.resize {num : Option Nat} (h : Adjusted low index num fs i) (resized : Resized low fs fs') :
    Adjusted low index num fs' i :=
  ⟨h.stable.resize resized, by rw [resized.code]; exact h.last, by rw [resized.code]; exact h.located, h.few⟩

theorem adjustMany_ends {extra : Nat} (h : Described low fs e) (many : e.hasmultret = true)
    (target : unfinished e ≠ none → 0 < extra ∨ 0 < fs.freeRegister) : Ends (do
      setreturns e (some extra)
      reserveMore extra
      return e) fs fun _ fs' => Stable low none fs' := by
  cases e
  case call index =>
      refine .bind (setreturns_call h) ?_
      rintro _ fs₁ grows₁ ⟨i, op, ⟨fits, a, operands⟩, top, -, adjusted, free, -⟩
      refine .bind (reserveMore_ends extra adjusted.stable.lower adjusted.stable.upper) ?_
      rintro _ fs₂ grows₂ ⟨resized, more⟩
      have registers : fs.maxStackSize.val ≤ fs₂.maxStackSize.val := grows₁.registers.trans grows₂.registers
      have upper := resized.upper
      have few : extra < 511 := adjusted.few
      have adjusted := adjusted.resize resized
      simp only [FineOperands, op] at operands
      have call : FineOperands fs₂.maxStackSize.val fs₂.constants { i with c := extra + 1 } := by
        simp only [FineOperands, op]
        omega
      have fine : Fine fs₂.maxStackSize.val fs₂.constants { i with c := extra + 1 } :=
        ⟨⟨fits.a, fits.b, by dsimp only; omega⟩, a.trans_le registers, call⟩
      refine .pure (adjusted.stable.close adjusted.located fine ?_ ?_)
      · simp [opens, op, results]
      · simp [Function.takesBatch, op]
  case vararg index =>
      have target := target (Option.some_ne_none index)
      refine .bind (setreturns_vararg h) ?_
      rintro _ fs₁ - ⟨adjusted, more⟩
      refine .bind (reserveMore_ends extra adjusted.stable.lower adjusted.stable.upper) ?_
      rintro _ fs₂ - ⟨resized, more'⟩
      have upper := resized.upper
      have small := fs₂.registers_lt
      have few : extra < 511 := adjusted.few
      have adjusted := adjusted.resize resized
      have below : fs.freeRegister < fs₂.maxStackSize.val := by omega
      have enough : 2 ≤ fs.freeRegister + (extra + 1) := by omega
      have inside : fs.freeRegister + (extra + 1) ≤ fs₂.maxStackSize.val + 1 := by omega
      have fits : Instruction.Fits ⟨.vararg, fs.freeRegister, extra + 1, 0⟩ :=
        ⟨by dsimp only; omega, by dsimp only; omega, Nat.zero_lt_succ _⟩
      exact .pure (adjusted.stable.close adjusted.located ⟨fits, below, rfl, .inr ⟨enough, inside⟩⟩ rfl rfl)
  all_goals cases many

theorem adjustAssign_ends (numVars numValues : Nat)
    (h : Described low fs e ∨ e = .void ∧ Stable low none fs)
    (target : unfinished e ≠ none → numVars < numValues → 0 < fs.freeRegister) :
    Ends (adjustAssign numVars numValues e) fs fun _ fs' => Stable low none fs' := by
  have fill (fs : Func) (stable : Stable low none fs) : Ends (fillNil (numVars - numValues)) fs fun _ fs' =>
      Stable low none fs' := by
    unfold fillNil
    split
    · exact .pure stable
    · refine Ends.get (.bind (reserveregs_ends _ stable.lower) ?_)
      rintro _ fs₁ - ⟨resized, more⟩
      have upper := resized.upper
      exact (emitNil_ends (stable.resize resized) (by omega)).mono fun _ _ _ ended => ended.1
  unfold adjustAssign
  split
  · rename_i many
    have described : Described low fs e := by
      rcases h with described | ⟨rfl, -⟩
      · exact described
      · cases many
    refine adjustMany_ends described many ?_
    intro all
    have positive := target all
    omega
  · have value : Ends (exp2nextregUnlessVoid e) fs fun _ fs' => Stable low none fs' := by
      rcases h with described | ⟨rfl, stable⟩
      · unfold exp2nextregUnlessVoid
        split
        · exact described.describes.elim
        · refine .bind (exp2nextreg_ends described) ?_
          rintro _ fs₁ - ⟨r, rfl, stable, -⟩
          exact .pure stable
      · exact .pure stable
    refine .bind value ?_
    intro _ fs₁ _ stable
    refine .bind (fill fs₁ stable) ?_
    intro _ fs₂ _ stable
    exact .pure stable

/-! ## Values up to the top -/

-- the last instruction leaves its results up to the top
def Opened (low : Nat) (fs : Func) : Prop :=
  ∃ index i, Adjusted low index none fs i ∧ Fine fs.maxStackSize.val fs.constants i ∧ Function.takesBatch i = false

theorem setmultret_ends (h : Described low fs e) (many : e.hasmultret = true) :
    Ends (setmultret e) fs fun _ fs' => Opened low fs' ∧
      fs'.numActiveLocalVars < fs'.maxStackSize.val ∧
      ∀ index, e = .call index → ∃ i, i.op = .call ∧ i.c = 0 ∧ Adjusted low index none fs' i ∧
        Fine fs'.maxStackSize.val fs'.constants i := by
  cases e
  case call index =>
      refine (setreturns_call h).mono ?_
      rintro _ fs' grows ⟨i, op, fine, top, above, adjusted, free, same⟩
      have locals := adjusted.stable.locals
      obtain ⟨fits, a, operands⟩ := fine.mono grows.registers grows.constants
      simp only [FineOperands, op] at operands
      have call : FineOperands fs'.maxStackSize.val fs'.constants { i with c := 0 } := by
        simp only [FineOperands, op]
        omega
      have fine : Fine fs'.maxStackSize.val fs'.constants { i with c := 0 } :=
        ⟨⟨fits.a, fits.b, Nat.zero_lt_succ _⟩, a, call⟩
      refine ⟨⟨index, _, adjusted, fine, by simp [Function.takesBatch, op]⟩, by omega, ?_⟩
      intro _ same
      cases same
      exact ⟨{ i with c := 0 }, op, rfl, adjusted, fine⟩
  case vararg index =>
      refine (setreturns_vararg h).mono ?_
      rintro _ fs' grows ⟨adjusted, more⟩
      have lower := h.stable.lower
      have locals := adjusted.stable.locals
      have upper := adjusted.stable.upper
      have small := fs'.registers_lt
      have below : fs.freeRegister < fs'.maxStackSize.val := by omega
      have fits : Instruction.Fits ⟨.vararg, fs.freeRegister, 0, 0⟩ :=
        ⟨by dsimp only; omega, Nat.zero_lt_succ _, Nat.zero_lt_succ _⟩
      refine ⟨⟨index, _, adjusted, ⟨fits, below, rfl, .inl rfl⟩, rfl⟩, by omega, ?_⟩
      intro _ same
      cases same
  all_goals cases many

-- what uses the results is there
theorem Adjusted.close {next : Instruction} (h : Adjusted low index none fs i) (fine : Fine fs.maxStackSize.val fs.constants i)
    (short : Function.takesBatch i = false) (stable : Stable low (some index) fs') (registers : fs.maxStackSize.val ≤ fs'.maxStackSize.val)
    (constants : fs.constants <+: fs'.constants) (code : fs.code <+: fs'.code)
    (there : fs'.code[fs.code.length]? = some (.instr next)) (uses : consumes next = true) : Stable low none fs' := by
  refine ⟨stable.coded.close (getElem?_of_initial h.located code) (fine.mono registers constants) ⟨?_, ?_⟩,
    stable.locals, stable.lower, stable.upper, stable.limit⟩
  · intro _
    exact ⟨next, by rw [h.last]; exact there, uses⟩
  · rw [short]
    intro long
    cases long

theorem emitSetlist_ends {base batch toStore : Nat} (stable : Stable low exempt fs)
    (inside : base + toStore < fs.maxStackSize.val) (positive : 0 < batch) :
    Ends (emitSetlist base batch toStore) fs fun _ fs' => Stable low exempt fs' ∧ fs.code <+: fs'.code ∧
      fs' = { fs with code := fs'.code } ∧
      ∃ next, fs'.code[fs.code.length]? = some (.instr next) ∧ (toStore = 0 → consumes next = true) := by
  have small := fs.registers_lt
  have below : base < fs.maxStackSize.val := by omega
  unfold emitSetlist
  split
  · rename_i short
    have fits : Instruction.Fits ⟨.setlist, base, toStore, batch⟩ :=
      ⟨by dsimp only; omega, by dsimp only; omega, by dsimp only; omega⟩
    refine (emitInstruction_ends stable ⟨fits, below, inside⟩ rfl ?_).mono ?_
    · simp only [Function.takesBatch]
      simp
      omega
    · rintro _ _ - ⟨stable, rfl, -⟩
      refine ⟨stable, List.prefix_append _ _, rfl, _, List.getElem?_concat_length, ?_⟩
      rintro rfl
      rfl
  · have fits : Instruction.Fits ⟨.setlist, base, toStore, 0⟩ :=
      ⟨by dsimp only; omega, by dsimp only; omega, Nat.zero_lt_succ _⟩
    have block : Coded none { fs with code := [.instr ⟨.setlist, base, toStore, 0⟩, .batch batch] } :=
      coded_pair ⟨fits, below, inside⟩ rfl rfl
    have grown : (fs.code ++ [Word.instr ⟨.setlist, base, toStore, 0⟩]) ++ [.batch batch] =
        fs.code ++ [.instr ⟨.setlist, base, toStore, 0⟩, .batch batch] := by simp
    refine ⟨⟨le_rfl, List.prefix_rfl, rfl, rfl, fun _ table => table.append.append⟩, rfl, ?_, ?_, rfl, ?_⟩
    · exact ⟨stable.coded.append block grown rfl rfl, stable.locals, stable.lower, stable.upper, stable.limit⟩
    · exact ⟨_, grown.symm⟩
    · refine ⟨⟨.setlist, base, toStore, 0⟩, ?_, ?_⟩
      · dsimp only
        rw [grown, List.getElem?_append_right le_rfl, Nat.sub_self]
        rfl
      · rintro rfl
        rfl

theorem modifyFree_ends {n : Nat} (upper : n ≤ fs.maxStackSize.val) (lower : low ≤ n) :
    Ends (modify fun fs => { fs with freeRegister := n }) fs fun _ fs' => Resized low fs fs' ∧ fs'.freeRegister = n := by
  have resized : Resized low fs { fs with freeRegister := n } := ⟨rfl, rfl, rfl, rfl, le_rfl, lower, upper⟩
  exact ⟨resized.grows, rfl, resized, rfl⟩

theorem setlist_ends {base numValues toStore : Nat} (stable : Stable low none fs)
    (inside : base + toStore < fs.maxStackSize.val) (lower : low ≤ base) :
    Ends (setlist base numValues (some toStore)) fs fun _ fs' => Stable low none fs' ∧ fs'.freeRegister = base + 1 := by
  refine .bind (emitSetlist_ends stable inside (Nat.succ_pos _)) ?_
  rintro _ fs₁ grows ⟨stable, -, -, -⟩
  have registers := grows.registers
  have lower : low ≤ base + 1 := by omega
  refine (modifyFree_ends (by omega) lower).mono ?_
  rintro _ fs₂ - ⟨resized, free⟩
  exact ⟨stable.resize resized, free⟩

theorem setlistOpen_ends {base numValues : Nat} (opened : Opened low fs) (inside : base < fs.maxStackSize.val)
    (lower : low ≤ base) :
    Ends (setlist base numValues none) fs fun _ fs' => Stable low none fs' ∧ fs'.freeRegister = base + 1 := by
  obtain ⟨index, i, adjusted, fine, short⟩ := opened
  refine .bind (emitSetlist_ends adjusted.stable inside (Nat.succ_pos _)) ?_
  rintro _ fs₁ grows ⟨stable, code, -, next, there, uses⟩
  have stable := adjusted.close fine short stable grows.registers grows.constants code there (uses rfl)
  have registers := grows.registers
  have lower : low ≤ base + 1 := by omega
  refine (modifyFree_ends (by omega) lower).mono ?_
  rintro _ fs₂ - ⟨resized, free⟩
  exact ⟨stable.resize resized, free⟩

theorem emitReturn_ends {first : Nat} {n : Nat} (stable : Stable low none fs) (register : first < fs.maxStackSize.val)
    (inside : first + n ≤ fs.maxStackSize.val) :
    Ends (emitReturn first (some n)) fs fun _ fs' => Stable low none fs' := by
  have small := fs.registers_lt
  have values : first + (n + 1) ≤ fs.maxStackSize.val + 1 := by omega
  have fits : Instruction.Fits ⟨.return, first, n + 1, 0⟩ :=
    ⟨by dsimp only; omega, by dsimp only; omega, Nat.zero_lt_succ _⟩
  exact (emitInstruction_ends stable ⟨fits, register, rfl, values⟩ rfl rfl).mono fun _ _ _ ended => ended.1

theorem emitReturnOpen_ends {first : Nat} (opened : Opened low fs) (register : first < fs.maxStackSize.val) :
    Ends (emitReturn first none) fs fun _ fs' => Stable low none fs' := by
  have small := fs.registers_lt
  obtain ⟨index, i, adjusted, fine, short⟩ := opened
  have fits : Instruction.Fits ⟨.return, first, 0, 0⟩ :=
    ⟨by dsimp only; omega, Nat.zero_lt_succ _, Nat.zero_lt_succ _⟩
  have values : first + 0 ≤ fs.maxStackSize.val + 1 := by omega
  refine (emitInstruction_ends adjusted.stable ⟨fits, register, rfl, values⟩ rfl rfl).mono ?_
  rintro _ _ grows ⟨stable, rfl, -⟩
  exact adjusted.close fine short stable le_rfl List.prefix_rfl (List.prefix_append _ _) List.getElem?_concat_length rfl

end Func

theorem Stable.top (stable : Stable low exempt fs) : Stable fs.freeRegister exempt fs :=
  { stable with locals := stable.locals.trans stable.lower, lower := le_rfl }

theorem Describes.weaken (h : Describes low fs e) (le : low' ≤ low) : Describes low' fs e := by
  cases e
  case localRegister | nonreloc => exact Own.weaken h le
  case indexed => exact ⟨h.1.weaken le, h.2.1, fun register above => le.trans (h.2.2 register above)⟩
  case call =>
      obtain ⟨last, i, located, op, some, top, above⟩ := h
      exact ⟨last, i, located, op, some, top, le.trans above⟩
  all_goals exact h

theorem Describes.keep (h : Describes low fs e) (grows : Grows fs fs') (code : fs'.code = fs.code)
    (free : fs'.freeRegister = fs.freeRegister) : Describes low fs' e := by
  cases e
  case constantIndex => exact Nat.lt_of_lt_of_le h grows.constants.length_le
  case localRegister | nonreloc => exact Own.grows h grows
  case global => exact IsName.mono h grows.constants
  case indexed => exact ⟨h.1.grows grows, h.2.1.mono grows.registers grows.constants, h.2.2.grows grows⟩
  case relocable =>
      unfold Describes
      rw [code]
      exact h
  case call =>
      unfold Describes
      rw [code, free]
      exact h
  case vararg =>
      unfold Describes
      rw [code]
      exact h
  all_goals exact h

theorem Described.weaken (h : Described low fs e) (le : low' ≤ low) (locals : fs.numActiveLocalVars ≤ low') :
    Described low' fs e := ⟨h.stable.weaken le locals, h.describes.weaken le⟩

theorem Stable.setExp (stable : Stable low exempt fs) (e : ExpDesc) : Stable low exempt { fs with curExp := e } :=
  stable.resize ⟨rfl, rfl, rfl, rfl, le_rfl, stable.lower, stable.upper⟩

theorem Described.setExp {e' : ExpDesc} (h : Described low fs e) : Described low { fs with curExp := e' } e := by
  refine ⟨h.stable.setExp e', ?_⟩
  have describes := h.describes
  cases e
  case localRegister | nonreloc => exact ⟨describes.inside, describes.above⟩
  case indexed => exact ⟨⟨describes.1.inside, describes.1.above⟩, describes.2.1, describes.2.2⟩
  all_goals exact describes

/-! ## Generators -/

def Generates {α : Type} (x : CompileM α) (c : Compiler) (Q : α → Compiler → Prop) : Prop :=
  Sat (fun _ => True) x c fun a c' => Grows c.func c'.func ∧ Q a c'

namespace Generates

variable {α β : Type} {c : Compiler} {Q : α → Compiler → Prop}

theorem pure {a : α} (h : Q a c) : Generates (Pure.pure a) c Q := ⟨grows_reflexive.refl c.func, h⟩

theorem throw (e : Stop) : Generates (MonadExcept.throw e : CompileM α) c Q := trivial

theorem bind {x : CompileM α} {f : α → CompileM β} {R : β → Compiler → Prop} (first : Generates x c Q)
    (rest : ∀ a c', Grows c.func c'.func → Q a c' → Generates (f a) c' R) : Generates (x >>= f) c R := by
  refine Sat.bind (Sat.mono first ?_)
  rintro a c' ⟨grows, h⟩
  refine Sat.mono (rest a c' grows h) ?_
  rintro b c'' ⟨grows', h'⟩
  exact ⟨grows_reflexive.trans grows grows', h'⟩

theorem mono {x : CompileM α} {R : α → Compiler → Prop} (h : Generates x c Q)
    (weaker : ∀ a c', Grows c.func c'.func → Q a c' → R a c') : Generates x c R := by
  refine Sat.mono h ?_
  rintro a c' ⟨grows, holds⟩
  exact ⟨grows, weaker a c' grows holds⟩

theorem getFunc {f : Func → CompileM α} (h : Generates (f c.func) c Q) : Generates (Compile.getFunc >>= f) c Q := h

theorem onFunc {x : FuncM α} {Q : α → Func → Prop} (h : Ends x c.func Q) :
    Generates (Compile.onFunc x) c fun a c' => Q a c'.func ∧ c'.func.curExp = c.func.curExp := by
  refine sat_onFunc (Sat.mono h ?_)
  rintro a fs ⟨grows, same, holds⟩
  exact ⟨grows, holds, same⟩

theorem setExp (e : ExpDesc) : Generates (Compile.setExp e) c fun _ c' => c'.func = { c.func with curExp := e } :=
  ⟨⟨le_rfl, List.prefix_rfl, rfl, rfl, fun _ => id⟩, rfl⟩

theorem onExp {f : ExpDesc → FuncM ExpDesc} {Q : ExpDesc → Func → Prop} (h : Ends (f c.func.curExp) c.func Q) :
    Generates (Compile.onExp f) c fun _ c' => ∃ e fs, Q e fs ∧ c'.func = { fs with curExp := e } := by
  refine getFunc (.bind (onFunc h) ?_)
  rintro e c₁ - ⟨holds, -⟩
  refine (setExp e).mono ?_
  rintro _ c₂ - same
  exact ⟨e, c₁.func, holds, same⟩

theorem onExpReg {f : ExpDesc → FuncM (Nat × ExpDesc)} {Q : Nat × ExpDesc → Func → Prop}
    (h : Ends (f c.func.curExp) c.func Q) : Generates (Compile.onExpReg f) c fun r c' =>
      ∃ e fs, Q (r, e) fs ∧ c'.func = { fs with curExp := e } := by
  refine getFunc (.bind (onFunc h) ?_)
  rintro ⟨r, e⟩ c₁ - ⟨holds, -⟩
  refine .bind (setExp e) ?_
  rintro _ c₂ - same
  exact .pure ⟨e, c₁.func, holds, same⟩

theorem nextReg (h : Described low c.func c.func.curExp) : Generates nextReg c fun r c' =>
    Stable low none c'.func ∧ c'.func.curExp = .nonreloc r ∧ r + 1 = c'.func.freeRegister ∧ low ≤ r := by
  refine (onExpReg (Func.exp2nextreg_ends h)).mono ?_
  rintro r c' - ⟨e, fs, ⟨_, same, stable, last, above⟩, state⟩
  cases same
  rw [state]
  exact ⟨stable.setExp _, rfl, last, above⟩

theorem anyReg (h : Described low c.func c.func.curExp) : Generates (Compile.onExpReg Func.exp2anyreg) c fun r c' =>
    Stable low none c'.func ∧ c'.func.curExp = .nonreloc r ∧ Own low c'.func r := by
  refine (onExpReg (Func.exp2anyreg_ends h)).mono ?_
  rintro r c' - ⟨e, fs, ⟨_, same, stable, own⟩, state⟩
  cases same
  rw [state]
  exact ⟨stable.setExp _, rfl, own.inside, own.above⟩

end Generates

-- the value of an expression; without a target it holds no register
structure Value (low : Nat) (fs : Func) : Prop where
  described : Described low fs fs.curExp
  kept : unfinished fs.curExp ≠ none → fs.freeRegister = low

theorem Value.of_finished (h : Finished low fs e) : Value low { fs with curExp := e } where
  described := h.described.setExp
  kept some := absurd h.single some

/-! ## Expressions -/

-- the one instruction that would not pass as it is emitted
theorem Coded.vararg (coded : Coded none fs) :
    Coded (some fs.code.length) { fs with code := fs.code ++ [.instr ⟨.vararg, 0, 1, 0⟩] } := by
  have two := fs.two_le_registers
  have fine : Fine fs.maxStackSize.val fs.constants ⟨.vararg, 0, 2, 0⟩ :=
    ⟨⟨by decide, by decide, by decide⟩, by dsimp only; omega, rfl, .inr ⟨le_rfl, by dsimp only; omega⟩⟩
  have passing : Coded none { fs with code := fs.code ++ [.instr ⟨.vararg, 0, 2, 0⟩] } :=
    coded.append (coded_single fine rfl rfl) rfl rfl rfl
  have replaced : fs.code ++ [Word.instr ⟨.vararg, 0, 1, 0⟩] =
      (fs.code ++ [Word.instr ⟨.vararg, 0, 2, 0⟩]).set fs.code.length (.instr ⟨.vararg, 0, 1, 0⟩) := by
    rw [List.set_append_right _ _ le_rfl, Nat.sub_self]
    rfl
  exact passing.set (.inl rfl) List.getElem?_concat_length replaced rfl rfl rfl rfl

theorem emitVararg_ends (stable : Stable low none fs) : Ends (Func.emitABC .vararg 0 1 0) fs fun index fs' =>
    Described low fs' (.vararg index) ∧ fs'.freeRegister = fs.freeRegister := by
  refine ⟨⟨le_rfl, List.prefix_rfl, rfl, rfl, fun _ table => table.append⟩, rfl, ⟨⟨stable.coded.vararg, stable.locals,
    stable.lower, stable.upper, stable.limit⟩, ?_, List.getElem?_concat_length⟩, rfl⟩
  simp [Func.pc]

section Generators

variable {env : Env} {c : Compiler}

theorem setExp_value (finished : Finished low c.func e) :
    Generates (setExp e) c fun _ c' => Value low c'.func := by
  refine (Generates.setExp e).mono ?_
  rintro _ c' - state
  rw [state]
  exact .of_finished finished

theorem genName_generates (token : Token) (stable : Stable low exempt c.func) :
    Generates (genName env token) c fun k c' => Stable low exempt c'.func ∧ IsName c'.func.constants k ∧
      k < c'.func.constants.length ∧ (∀ e, Describes low c.func e → Describes low c'.func e) ∧
      c'.func.curExp = c.func.curExp := by
  refine (Generates.onFunc (Func.putConstant_ends _ stable)).mono ?_
  rintro k c' grows ⟨⟨stable, state, -, inside, name⟩, same⟩
  refine ⟨stable, name _ rfl, inside, ?_, same⟩
  intro e describes
  exact describes.keep grows (by rw [state]) (by rw [state])

theorem genLiteral_value (token : Token) (stable : Stable c.func.freeRegister none c.func) :
    Generates (genLiteral env token) c fun _ c' => Value c.func.freeRegister c'.func := by
  unfold genLiteral
  split
  · split
    · refine .bind (Generates.onFunc (Func.putConstant_ends _ stable)) ?_
      rintro k c₁ - ⟨⟨stable, -, -, inside, -⟩, -⟩
      exact setExp_value ⟨stable, inside, rfl⟩
    · exact .throw _
  · split
    · exact setExp_value ⟨stable, trivial, rfl⟩
    · exact .throw _
  · exact setExp_value ⟨stable, trivial, rfl⟩
  · exact setExp_value ⟨stable, trivial, rfl⟩
  · exact setExp_value ⟨stable, trivial, rfl⟩
  · refine .bind (Generates.onFunc (emitVararg_ends stable)) ?_
    rintro index c₁ - ⟨⟨described, free⟩, -⟩
    refine (Generates.setExp _).mono ?_
    rintro _ c₂ - state
    rw [state]
    exact ⟨described.setExp, fun _ => free⟩
  · refine .bind (genName_generates token stable) ?_
    rintro k c₁ - ⟨stable, -, inside, -⟩
    exact setExp_value ⟨stable, inside, rfl⟩
  · exact .throw _

theorem searchVar_lt {name : List UInt8} {n k : Nat} (h : fs.searchVar env.source name n = .ok (some k)) : k < n := by
  induction n with
  | zero => cases h
  | succ n ih =>
      unfold Func.searchVar at h
      split at h
      · cases h
      · split at h
        · cases h
          exact Nat.lt_succ_self _
        · exact (ih h).trans (Nat.lt_succ_self n)

theorem genIdentifier_target (token : Token) (stable : Stable c.func.freeRegister none c.func) :
    Generates (genIdentifier env token) c fun _ c' => Value c.func.freeRegister c'.func ∧
      Func.Target c'.func c'.func.curExp := by
  have found : Ends (Func.findLocalVarByToken env.source token) c.func fun found fs' =>
      fs' = c.func ∧ ∀ r, found = some r → r < c.func.numActiveLocalVars := by
    refine Ends.get ?_
    cases search : c.func.searchVar env.source (token.slice env.source) c.func.numActiveLocalVars with
    | error e => exact .throw e
    | ok found =>
        refine .pure ⟨rfl, ?_⟩
        rintro r rfl
        exact searchVar_lt search
  refine .bind (Generates.onFunc found) ?_
  rintro found c₁ - ⟨⟨same, isLocal⟩, -⟩
  have record : Generates (recordBinding token found) c₁ fun _ c' => c'.func = c₁.func :=
    ⟨grows_reflexive.refl _, rfl⟩
  refine .bind record ?_
  rintro _ c₂ - same'
  have locals := stable.locals
  have upper := stable.upper
  have stable : Stable c.func.freeRegister none c₂.func := by rwa [same', same]
  have stated (e : ExpDesc) (target : Func.Target c₂.func e) (finished : Finished c.func.freeRegister c₂.func e) :
      Generates (setExp e) c₂ fun _ c' => Value c.func.freeRegister c'.func ∧ Func.Target c'.func c'.func.curExp := by
    refine (Generates.setExp e).mono ?_
    rintro _ c' - state
    rw [state]
    exact ⟨.of_finished finished, target⟩
  cases found with
  | some r =>
      have active := isLocal r rfl
      have inside : r < c₂.func.maxStackSize.val := by rw [same', same]; omega
      exact stated (.localRegister r) inside ⟨stable, ⟨inside, .inl (by rw [same', same]; exact active)⟩, rfl⟩
  | none =>
      refine .bind (genName_generates token stable) ?_
      rintro k c₃ - ⟨stable, name, -⟩
      refine (Generates.setExp _).mono ?_
      rintro _ c' - state
      rw [state]
      exact ⟨.of_finished ⟨stable, name, rfl⟩, name⟩

-- the value of the access, and for a method the registers of the call
theorem genField_value (field separator : Token) (h : Described low c.func c.func.curExp) :
    Generates (genField env field separator) c fun _ c' => Value low c'.func ∧
      (separator.isChar (ch ':') = true → ∃ r, c'.func.curExp = .nonreloc r ∧ low ≤ r) := by
  unfold genField
  split
  · refine .bind (genName_generates field h.stable) ?_
    rintro k c₁ - ⟨stable, -, inside, keep, same⟩
    rw [← same] at stable
    have described : Described low c₁.func c₁.func.curExp := ⟨stable, by rw [same]; exact keep _ h.describes⟩
    have self : Ends (Func.handleSelf c₁.func.curExp (.constantIndex k)) c₁.func fun e' fs' =>
        Finished low fs' e' ∧ ∃ r, e' = .nonreloc r ∧ low ≤ r :=
      Func.handleSelf_ends described trivial inside
    refine (Generates.onExp self).mono ?_
    rintro _ c₂ - ⟨e, fs, ⟨finished, r, rfl, above⟩, state⟩
    rw [state]
    exact ⟨.of_finished finished, fun _ => ⟨r, rfl, above⟩⟩
  · rename_i plain
    refine .bind (Generates.anyReg h) ?_
    rintro r c₁ - ⟨stable, same, own⟩
    refine .bind (genName_generates field stable) ?_
    rintro k c₂ grows ⟨stable, -, inside, keep, same'⟩
    rw [same] at same'
    have key : Described low c₂.func (.constantIndex k) := ⟨stable, inside⟩
    have table : Ends (Func.indexed c₂.func.curExp (.constantIndex k)) c₂.func fun e fs' => Finished low fs' e := by
      rw [same']
      exact Func.indexed_ends key trivial (own.grows grows)
    refine (Generates.onExp table).mono ?_
    rintro _ c₃ - ⟨e, fs, finished, state⟩
    rw [state]
    exact ⟨.of_finished finished, fun method => absurd method plain⟩

theorem genCallInstruction_value {base : Nat} (isStatement : Bool) (stable : Stable low none c.func)
    (register : low ≤ base) : Generates (genCallInstruction base isStatement) c fun _ c' => Value low c'.func := by
  have upper := stable.upper
  have small := c.func.registers_lt
  refine .getFunc ?_
  split
  · exact .throw _
  · rename_i taken
    have below : base < c.func.maxStackSize.val := by omega
    have count : (if isStatement then 1 else 2) ≤ 2 ∧ 0 < (if isStatement then 1 else 2) := by
      cases isStatement <;> decide
    generalize (if isStatement then 1 else 2) = results at count ⊢
    have arguments : base + (c.func.freeRegister - (base + 1) + 1) ≤ c.func.maxStackSize.val := by omega
    have values : base + results ≤ c.func.maxStackSize.val + 1 := by omega
    have closed : opens ⟨.call, base, c.func.freeRegister - (base + 1) + 1, results⟩ = false :=
      beq_eq_false_iff_ne.mpr count.2.ne'
    refine .bind (Generates.onFunc (Func.emitABC_ends stable below ⟨by omega, by omega⟩
      ⟨Nat.succ_pos _, arguments, values⟩ closed rfl)) ?_
    rintro index c₁ - ⟨⟨stable, state, rfl⟩, -⟩
    refine .bind (Generates.setExp _) ?_
    rintro _ c₂ - state'
    have resized : Resized low c₁.func c₂.func := by
      rw [state']
      exact ⟨rfl, rfl, rfl, rfl, le_rfl, stable.lower, stable.upper⟩
    have code : c₂.func.code =
        c.func.code ++ [.instr ⟨.call, base, c.func.freeRegister - (base + 1) + 1, results⟩] := by
      rw [resized.code, state]
    have inside : base + 1 ≤ c₂.func.maxStackSize.val := by
      rw [state', state]
      exact below
    refine (Generates.onFunc (Func.modifyFree_ends inside (Nat.le_succ_of_le register))).mono ?_
    rintro _ c₃ - ⟨⟨resized', free⟩, same⟩
    have call : c₃.func.curExp = .call c.func.code.length := by rw [same, state']
    rw [← resized'.code] at code
    constructor
    · rw [call]
      refine ⟨(stable.resize resized).resize resized', ?_,
        ⟨.call, base, c.func.freeRegister - (base + 1) + 1, results⟩, ?_, rfl, count.2, free, register⟩
      · rw [code]
        simp
      · rw [code]
        exact List.getElem?_concat_length
    · rw [call]
      intro some
      exact absurd rfl some

/-! ## Table constructors -/

-- the values that are not stored yet are above the table, and the last one may still be described
structure Fields (low tableReg : Nat) (c : Compiler) (st : FieldState) : Prop where
  table : c.func.curExp = .nonreloc tableReg
  above : low ≤ tableReg
  inside : tableReg < c.func.maxStackSize.val
  locals : c.func.numActiveLocalVars ≤ low
  values : st.arrayValueExp = .void ∧ Stable low none c.func ∧ tableReg + 1 + st.unflushed ≤ c.func.freeRegister ∨
    0 < st.unflushed ∧ Described (tableReg + st.unflushed) c.func st.arrayValueExp

theorem Fields.described {tableReg : Nat} {st : FieldState} (h : Fields low tableReg c st)
    (some : st.arrayValueExp ≠ .void) : Described (tableReg + st.unflushed) c.func st.arrayValueExp := by
  rcases h.values with ⟨none, -⟩ | ⟨-, described⟩
  · exact absurd none some
  · exact described

theorem Fields.flushed {tableReg : Nat} {st : FieldState} (h : Fields low tableReg c st)
    (void : st.arrayValueExp = .void) :
    Stable low none c.func ∧ tableReg + 1 + st.unflushed ≤ c.func.freeRegister := by
  rcases h.values with ⟨-, stable, free⟩ | ⟨-, described⟩
  · exact ⟨stable, free⟩
  · have impossible := described.describes
    rw [void] at impossible
    exact impossible.elim

theorem flushField_fields {tableReg : Nat} {st : FieldState} (h : Fields low tableReg c st) :
    Generates (flushField tableReg st) c fun st' c' => Fields low tableReg c' st' ∧ st'.arrayValueExp = .void := by
  have above := h.above
  have locals := h.locals
  unfold flushField
  split
  · rename_i none
    exact .pure ⟨h, none⟩
  · rename_i e some
    refine .bind (Generates.onFunc (Func.exp2nextreg_ends (h.described some))) ?_
    rintro _ c₁ grows ⟨⟨r, rfl, stable, last, atLeast⟩, same⟩
    have upper := stable.upper
    have number := grows.number
    have stable := stable.weaken (show low ≤ tableReg + st.unflushed by omega) (by omega)
    split
    · refine .bind (Generates.onFunc (Func.setlist_ends stable (by omega) above)) ?_
      rintro _ c₂ grows' ⟨⟨stable, free⟩, same'⟩
      have number' := grows'.number
      refine .pure ⟨⟨by rw [same', same, h.table], above, ?_, by omega, .inl ⟨rfl, stable, by dsimp only; omega⟩⟩, rfl⟩
      exact h.inside.trans_le (grows.registers.trans grows'.registers)
    · refine .pure ⟨⟨by rw [same, h.table], above, ?_, by omega, .inl ⟨rfl, stable, by dsimp only; omega⟩⟩, rfl⟩
      exact h.inside.trans_le grows.registers

theorem flushLast_value {tableReg : Nat} {st : FieldState} (h : Fields low tableReg c st) :
    Generates (flushLast tableReg st) c fun _ c' => Stable low none c'.func ∧ c'.func.curExp = .nonreloc tableReg := by
  have above := h.above
  have locals := h.locals
  unfold flushLast
  split
  · rename_i none
    rcases h.values with ⟨-, stable, -⟩ | ⟨some, -⟩
    · exact .pure ⟨stable, h.table⟩
    · omega
  · split
    · rename_i many
      have some : st.arrayValueExp ≠ .void := by
        intro none
        rw [none] at many
        cases many
      have described := (h.described some).weaken (show low ≤ tableReg + st.unflushed by omega) locals
      refine .bind (Generates.onFunc (Func.setmultret_ends described many)) ?_
      rintro _ c₁ grows ⟨⟨opened, -⟩, same⟩
      refine .bind (Generates.onFunc (Func.setlistOpen_ends opened (h.inside.trans_le grows.registers) above)) ?_
      rintro _ c₂ - ⟨⟨stable, -⟩, same'⟩
      exact .pure ⟨stable, by rw [same', same, h.table]⟩
    · have values : Ends (Func.exp2nextregUnlessVoid st.arrayValueExp) c.func fun _ fs' => Stable low none fs' ∧
          tableReg + 1 + st.unflushed ≤ fs'.freeRegister := by
        unfold Func.exp2nextregUnlessVoid
        split
        · rename_i none
          exact .pure (h.flushed none)
        · rename_i some
          refine .bind (Func.exp2nextreg_ends (h.described some)) ?_
          rintro _ fs₁ grows ⟨r, rfl, stable, last, atLeast⟩
          have number := grows.number
          exact .pure ⟨stable.weaken (by omega) (by omega), by omega⟩
      refine .bind (Generates.onFunc values) ?_
      rintro _ c₁ grows ⟨⟨stable, free⟩, same⟩
      have upper := stable.upper
      refine .bind (Generates.onFunc (Func.setlist_ends stable (by omega) above)) ?_
      rintro _ c₂ - ⟨⟨stable, -⟩, same'⟩
      exact .pure ⟨stable, by rw [same', same, h.table]⟩

theorem intToFloatingPointByte_lt (x : Nat) : intToFloatingPointByte x < 512 :=
  (Nat.mod_lt _ (by norm_num)).trans (by norm_num)

theorem sizeTable_stable {st : FieldState} (stable : Stable low none c.func) (table : IsTable c.func.code index) :
    Generates (sizeTable index st) c fun _ c' => Stable low none c'.func ∧ c'.func.curExp = c.func.curExp := by
  obtain ⟨i, located, op⟩ := table
  obtain ⟨fits, a, operands⟩ := (stable.coded.instrs index i located (Option.some_ne_none _).symm).1
  refine (Generates.onFunc (Func.patch_ends stable (.inl rfl) located id (by simp [consumes, op])
    (by simp [Function.takesBatch, op]))).mono ?_
  rintro _ c' grows ⟨⟨patched, there, state⟩, same⟩
  refine ⟨patched.close there ⟨⟨fits.a, intToFloatingPointByte_lt _, intToFloatingPointByte_lt _⟩,
    a.trans_le grows.registers, ?_⟩ ?_ ?_, same⟩
  · simp [FineOperands, op]
  · simp [opens, op]
  · simp [Function.takesBatch, op]

-- the operand of the key is there already
theorem storeField_stable {tableReg keyRk : Nat} (h : Described low c.func c.func.curExp)
    (register : tableReg < c.func.maxStackSize.val)
    (key : Operand c.func.maxStackSize.val c.func.constants keyRk) :
    Generates (storeField tableReg low keyRk) c fun _ c' => Stable low none c'.func ∧ c'.func.freeRegister = low := by
  refine .bind (Generates.onExpReg (Func.exp2RK_ends h)) ?_
  rintro valRk c₁ grows ⟨e, fs, operand, state⟩
  have small := c₁.func.registers_lt
  have stable : Stable low none c₁.func := by
    rw [state]
    exact operand.stable.setExp e
  have value : Operand c₁.func.maxStackSize.val c₁.func.constants valRk := by
    rw [state]
    exact operand.operand
  have key := key.mono grows.registers grows.constants
  refine .bind (Generates.onFunc (Func.emitABC_ends stable (register.trans_le grows.registers)
    ⟨key.lt (by omega), value.lt (by omega)⟩ ⟨key, value⟩ rfl rfl)) ?_
  rintro _ c₂ - ⟨⟨stable, -, -⟩, -⟩
  have inside : low ≤ c₂.func.maxStackSize.val := stable.lower.trans stable.upper
  refine (Generates.onFunc (Func.modifyFree_ends inside le_rfl)).mono ?_
  rintro _ c₃ - ⟨⟨resized, free⟩, -⟩
  exact ⟨stable.resize resized, free⟩

end Generators

/-! ## The fragment -/

mutual

-- literals, names, operators, accesses, calls and tables; comparisons and functions are left out
def isStraight : Node → Bool
  | .literal _ | .identifier _ => true
  | .groupedExpression _ expression _ => isStraight expression
  | .unaryExpression _ argument => isStraight argument
  | .binaryExpression op left right =>
      ((Func.arithmeticOp op).isSome || op.id == .concat) && isStraight left && isStraight right
  | .fieldAccess operand _ _ => isStraight operand
  | .indexAccess operand index _ _ => isStraight operand && isStraight index
  | .call expression arguments _ _ _ => isStraight expression && areStraight arguments
  | .tableConstructor fields _ _ => areStraight fields
  | .tableField key value => isStraight? key && isStraight value
  | _ => false

def areStraight : List Node → Bool
  | [] => true
  | node :: rest => isStraight node && areStraight rest

def isStraight? : Option Node → Bool
  | none => true
  | some node => isStraight node

end

section Straight

variable {env : Env}

mutual

theorem genNode_value (node : Node) (h : isStraight node = true) (c : Compiler)
    (stable : Stable c.func.freeRegister none c.func) : Generates (genNode env node) c fun _ c' =>
      Value c.func.freeRegister c'.func ∧
        (isMethod node = true → ∃ r, c'.func.curExp = .nonreloc r ∧ c.func.freeRegister ≤ r) := by
  cases node with
  | literal token =>
      rw [genNode]
      exact (genLiteral_value token stable).mono fun _ _ _ value => ⟨value, fun method => by cases method⟩
  | identifier token =>
      rw [genNode]
      exact (genIdentifier_target token stable).mono fun _ _ _ h => ⟨h.1, fun method => by cases method⟩
  | groupedExpression openToken expression closeToken =>
      rw [genNode]
      exact (genNode_value expression h c stable).mono fun _ _ _ h => ⟨h.1, fun method => by cases method⟩
  | unaryExpression op argument =>
      rw [genNode]
      refine .bind (genNode_value argument h c stable) ?_
      rintro _ c₁ - ⟨value, -⟩
      refine (Generates.onExp (Func.unaryOperator_ends env.toArithmetic op value.described)).mono ?_
      rintro _ c₂ - ⟨e, fs, finished, state⟩
      rw [state]
      exact ⟨.of_finished finished, fun method => by cases method⟩
  | binaryExpression op left right =>
      simp only [isStraight, Bool.and_eq_true, Bool.or_eq_true, beq_iff_eq] at h
      obtain ⟨⟨straight, hl⟩, hr⟩ := h
      rw [genNode]
      refine .bind (genNode_value left hl c stable) ?_
      rintro _ c₁ - ⟨value, -⟩
      refine .bind (Generates.onExp (Func.leftOperand_ends op value.described)) ?_
      rintro _ c₂ - ⟨e1, fs, operand, state⟩
      have left : Func.LeftOperand c.func.freeRegister op c₂.func.curExp c₂.func := by
        rw [state]
        obtain ⟨stable, steady, describes, concat⟩ := operand
        exact ⟨stable.setExp e1, steady, (steady.described describes stable).setExp.describes, concat⟩
      refine .getFunc (.bind (genNode_value right hr c₂ left.1.top) ?_)
      rintro _ c₃ grows ⟨value, -⟩
      have described := value.described.weaken left.1.lower (by rw [grows.number]; exact left.1.locals)
      refine (Generates.onExp (Func.binaryOperator_ends env.toArithmetic c₂.func left grows described straight)).mono ?_
      rintro _ c₄ - ⟨e, fs, finished, state⟩
      rw [state]
      exact ⟨.of_finished finished, fun method => by cases method⟩
  | fieldAccess operand field separator =>
      rw [genNode]
      refine .bind (genNode_value operand h c stable) ?_
      rintro _ c₁ - ⟨value, -⟩
      exact genField_value field separator value.described
  | indexAccess operand index openToken closeToken =>
      simp only [isStraight, Bool.and_eq_true] at h
      rw [genNode]
      refine .bind (genNode_value operand h.1 c stable) ?_
      rintro _ c₁ - ⟨value, -⟩
      refine .bind (Generates.anyReg value.described) ?_
      rintro r c₂ - ⟨stable₂, same, own⟩
      refine .getFunc (.bind (Generates.setExp .void) ?_)
      rintro _ c₃ grows₃ state
      have stable₃ : Stable c.func.freeRegister none c₃.func := by
        rw [state]
        exact stable₂.setExp .void
      refine .bind (genNode_value index h.2 c₃ stable₃.top) ?_
      rintro _ c₄ grows₄ ⟨value, -⟩
      have described := value.described.weaken stable₃.lower (by rw [grows₄.number]; exact stable₃.locals)
      refine .bind (Generates.onExp (Func.dischargevars_ends described)) ?_
      rintro _ c₅ grows₅ ⟨key, fs, ⟨described, -, -⟩, state⟩
      have described : Described c.func.freeRegister c₅.func c₅.func.curExp := by
        rw [state]
        exact described.setExp
      have own := ((own.grows grows₃).grows grows₄).grows grows₅
      have access : Ends (Func.indexed c₂.func.curExp c₅.func.curExp) c₅.func fun e fs' =>
          Finished c.func.freeRegister fs' e := by
        rw [same]
        exact Func.indexed_ends described trivial own
      refine (Generates.onExp access).mono ?_
      rintro _ c₆ - ⟨e, fs, finished, state⟩
      rw [state]
      exact ⟨.of_finished finished, fun method => by cases method⟩
  | call expression arguments openToken closeToken isStatement =>
      simp only [isStraight, Bool.and_eq_true] at h
      rw [genNode]
      refine .bind (genNode_value expression h.1 c stable) ?_
      rintro _ c₁ - ⟨value, method⟩
      -- the function and its arguments are in consecutive registers
      have rest (c₂ : Compiler) (r : Nat) (same : c₂.func.curExp = .nonreloc r) (above : c.func.freeRegister ≤ r)
          (stable : Stable c.func.freeRegister none c₂.func) : Generates (do
            let base ← calledRegister
            genArguments env arguments
            genCallInstruction base isStatement) c₂ fun _ c' => Value c.func.freeRegister c'.func := by
        have register : Generates calledRegister c₂ fun base c' => base = r ∧ c' = c₂ := by
          refine .getFunc ?_
          rw [same]
          exact .pure ⟨rfl, rfl⟩
        refine .bind register ?_
        rintro base c₃ - ⟨rfl, rfl⟩
        refine .bind (genArguments_stable arguments h.2 c₃ _ stable) ?_
        intro _ c₄ _ stable
        exact genCallInstruction_value isStatement stable above
      split
      · rename_i isMethod
        obtain ⟨r, same, above⟩ := method isMethod
        have stable : Stable c.func.freeRegister none c₁.func := by
          have stable := value.described.stable
          rwa [same] at stable
        exact (rest c₁ r same above stable).mono fun _ _ _ value => ⟨value, fun method => by cases method⟩
      · refine .bind (Generates.nextReg value.described) ?_
        rintro r c₂ - ⟨stable, same, -, above⟩
        exact (rest c₂ r same above stable).mono fun _ _ _ value => ⟨value, fun method => by cases method⟩
  | tableConstructor fields openToken closeToken =>
      have two := c.func.two_le_registers
      rw [genNode]
      refine .bind (Generates.onFunc (Func.emitABC_ends stable (by omega) ⟨by decide, by decide⟩ trivial rfl rfl)) ?_
      rintro _ c₁ - ⟨⟨stable₁, state, rfl⟩, -⟩
      have located : c₁.func.code[c.func.code.length]? = some (.instr ⟨.newtable, 0, 0, 0⟩) := by
        rw [state]
        exact List.getElem?_concat_length
      refine .bind (setExp_value ⟨stable₁, ⟨_, located, trivial⟩, rfl⟩) ?_
      intro _ c₂ grows₂ value
      refine .bind (Generates.nextReg value.described) ?_
      rintro tableReg c₃ grows₃ ⟨stable₃, same, last, above⟩
      have upper := stable₃.upper
      have start : Fields c.func.freeRegister tableReg c₃ {} :=
        ⟨same, above, by omega, stable₃.locals, .inl ⟨rfl, stable₃, by dsimp only; omega⟩⟩
      refine .bind (genFields_fields fields h c₃ {} start) ?_
      intro st c₄ grows₄ filled
      refine .bind (flushLast_value filled) ?_
      rintro st' c₅ grows₅ ⟨stable₅, same⟩
      have inside := filled.inside.trans_le grows₅.registers
      have table : IsTable c₅.func.code c.func.code.length :=
        grows₅.tables _ (grows₄.tables _ (grows₃.tables _ (grows₂.tables _ ⟨_, located, rfl⟩)))
      have valued (c' : Compiler) (stable : Stable c.func.freeRegister none c'.func)
          (same : c'.func.curExp = .nonreloc tableReg) (inside : tableReg < c'.func.maxStackSize.val) :
          Value c.func.freeRegister c'.func := by
        constructor
        · rw [same]
          exact ⟨stable, inside, .inr above⟩
        · rw [same]
          intro some
          exact absurd rfl some
      split
      · exact .pure ⟨valued c₅ stable₅ same inside, fun method => by cases method⟩
      · refine (sizeTable_stable stable₅ table).mono ?_
        rintro _ c₆ grows₆ ⟨stable₆, same'⟩
        exact ⟨valued c₆ stable₆ (same'.trans same) (inside.trans_le grows₆.registers), fun method => by cases method⟩
  | tableField key value =>
      rw [genNode]
      exact .throw _
  | _ => cases h

theorem genArguments_stable (nodes : List Node) (h : areStraight nodes = true) (c : Compiler) (low : Nat)
    (stable : Stable low none c.func) : Generates (genArguments env nodes) c fun _ c' => Stable low none c'.func := by
  cases nodes with
  | nil =>
      rw [genArguments]
      exact .pure stable
  | cons node rest =>
      simp only [areStraight, Bool.and_eq_true] at h
      rw [genArguments]
      refine .bind (genNode_value node h.1 c stable.top) ?_
      rintro _ c₁ grows ⟨value, -⟩
      have described := value.described.weaken stable.lower (by rw [grows.number]; exact stable.locals)
      refine .bind (Generates.nextReg described) ?_
      rintro r c₂ - ⟨stable, -⟩
      exact genArguments_stable rest h.2 c₂ low stable

-- the value of a field without a key is described, one with a key is stored
theorem genTableField_field (field : Node) (h : isStraight field = true) (c : Compiler) (tableReg : Nat)
    (table : c.func.curExp = .nonreloc tableReg) (inside : tableReg < c.func.maxStackSize.val)
    (stable : Stable c.func.freeRegister none c.func) : Generates (genTableField env field) c fun positional c' =>
      if positional then Described c.func.freeRegister c'.func c'.func.curExp
      else Stable c.func.freeRegister none c'.func := by
  cases field with
  | tableField key value =>
      cases key with
      | none =>
          simp only [isStraight, isStraight?, Bool.true_and] at h
          rw [genTableField]
          refine .bind (genNode_value value h c stable) ?_
          rintro _ c₁ - ⟨value, -⟩
          exact .pure value.described
      | some key =>
          simp only [isStraight, isStraight?, Bool.and_eq_true] at h
          rw [genTableField]
          refine .getFunc ?_
          have register : Generates (registerOf c.func.curExp : CompileM Nat) c fun r c' => r = tableReg ∧ c' = c := by
            rw [table]
            exact .pure ⟨rfl, rfl⟩
          refine .bind register ?_
          rintro r c₀ - ⟨rfl, rfl⟩
          refine .bind (genNode_value key h.1 c₀ stable) ?_
          rintro _ c₁ grows₁ ⟨value, -⟩
          refine .bind (Generates.onExpReg (Func.exp2RK_ends value.described)) ?_
          rintro keyRk c₂ grows₂ ⟨e, fs, operand, state⟩
          have stable₂ : Stable c₀.func.freeRegister none c₂.func := by
            rw [state]
            exact operand.stable.setExp e
          have key : Operand c₂.func.maxStackSize.val c₂.func.constants keyRk := by
            rw [state]
            exact operand.operand
          refine .bind (genNode_value _ h.2 c₂ stable₂.top) ?_
          rintro _ c₃ grows₃ ⟨value, -⟩
          have described := value.described.weaken stable₂.lower (by rw [grows₃.number]; exact stable₂.locals)
          have inside := inside.trans_le (grows₁.registers.trans (grows₂.registers.trans grows₃.registers))
          refine .bind (storeField_stable described inside (key.mono grows₃.registers grows₃.constants)) ?_
          rintro _ c₄ - ⟨stable, -⟩
          exact .pure stable
  | _ =>
      simp only [genTableField]
      exact .throw _

theorem genFields_fields (fields : List Node) (h : areStraight fields = true) (c : Compiler) (st : FieldState)
    {low tableReg : Nat} (filled : Fields low tableReg c st) :
    Generates (genFields env tableReg fields st) c fun st' c' => Fields low tableReg c' st' := by
  cases fields with
  | nil =>
      rw [genFields]
      exact .pure filled
  | cons field rest =>
      simp only [areStraight, Bool.and_eq_true] at h
      rw [genFields]
      refine .getFunc (.bind (flushField_fields filled) ?_)
      rintro st₁ c₁ grows₁ ⟨flushed, void⟩
      obtain ⟨stable, free⟩ := flushed.flushed void
      refine .bind (genTableField_field field h.1 c₁ tableReg flushed.table flushed.inside stable.top) ?_
      intro positional c₂ grows₂ ended
      refine .getFunc (.bind (Generates.setExp _) ?_)
      rintro _ c₃ grows₃ state
      have number : c₃.func.numActiveLocalVars = c₁.func.numActiveLocalVars := by rw [grows₃.number, grows₂.number]
      have locals := flushed.locals
      have above := flushed.above
      refine genFields_fields rest h.2 c₃ _ ⟨by rw [state, filled.table], above, ?_, by omega, ?_⟩
      · exact flushed.inside.trans_le (grows₂.registers.trans grows₃.registers)
      · cases positional with
        | true =>
            refine .inr ⟨Nat.succ_pos _, ?_⟩
            have described : Described c₁.func.freeRegister c₂.func c₂.func.curExp := ended
            have number₂ := grows₂.number
            have next : tableReg + (st₁.unflushed + 1) ≤ c₁.func.freeRegister := by omega
            rw [state]
            exact (described.weaken next (by omega)).setExp
        | false =>
            have stable₂ : Stable c₁.func.freeRegister none c₂.func := ended
            have lower := stable₂.lower
            have number₂ := grows₂.number
            refine .inl ⟨void, ?_, ?_⟩
            · rw [state]
              exact (stable₂.weaken (by omega) (by omega)).setExp _
            · rw [state]
              show tableReg + 1 + st₁.unflushed ≤ c₂.func.freeRegister
              omega

end

end Straight

end Zua.Compile
