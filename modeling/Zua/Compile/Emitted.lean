import Zua.Compile.Checked

/-!
# Emitting checked code

Each function of `Func` keeps the words that have been emitted checked. A description says what its value
still needs: an instruction without a target, a call with one result, or a list of values of unknown length.
-/

namespace Zua.Compile
open Code Syntax
open Memory (Constant)
open Zua.Lex (Token ch)

/-! ## What never shrinks -/

def IsTable (code : List Word) (index : Nat) : Prop := ∃ i, code[index]? = some (.instr i) ∧ i.op = .newtable

structure Grows (fs fs' : Func) : Prop where
  registers : fs.maxStackSize.val ≤ fs'.maxStackSize.val
  constants : fs.constants <+: fs'.constants
  number : fs'.numActiveLocalVars = fs.numActiveLocalVars
  varargs : fs'.varargs = fs.varargs
  tables : ∀ index, IsTable fs.code index → IsTable fs'.code index

theorem grows_reflexive : Reflexive Grows where
  refl _ := ⟨le_rfl, List.prefix_rfl, rfl, rfl, fun _ => id⟩
  trans h h' := ⟨h.registers.trans h'.registers, h.constants.trans h'.constants, h'.number.trans h.number,
    h'.varargs.trans h.varargs, fun index table => h'.tables index (h.tables index table)⟩

-- when `x` returns, the function has grown and the result is as `Q` says
def Ends {α : Type} (x : FuncM α) (fs : Func) (Q : α → Func → Prop) : Prop :=
  Sat (fun _ => True) x fs fun a fs' => Grows fs fs' ∧ fs'.curExp = fs.curExp ∧ Q a fs'

namespace Ends

variable {α β : Type} {fs fs' : Func} {Q : α → Func → Prop}

theorem pure {a : α} (h : Q a fs) : Ends (Pure.pure a) fs Q := ⟨grows_reflexive.refl fs, rfl, h⟩

theorem throw (e : Stop) : Ends (MonadExcept.throw e : FuncM α) fs Q := trivial

theorem bind {x : FuncM α} {f : α → FuncM β} {R : β → Func → Prop} (first : Ends x fs Q)
    (rest : ∀ a fs', Grows fs fs' → Q a fs' → Ends (f a) fs' R) : Ends (x >>= f) fs R := by
  refine Sat.bind (Sat.mono first ?_)
  rintro a fs' ⟨grows, same, h⟩
  refine Sat.mono (rest a fs' grows h) ?_
  rintro b fs'' ⟨grows', same', h'⟩
  exact ⟨grows_reflexive.trans grows grows', same'.trans same, h'⟩

theorem mono {x : FuncM α} {R : α → Func → Prop} (h : Ends x fs Q) (weaker : ∀ a fs', Grows fs fs' → Q a fs' → R a fs') :
    Ends x fs R := by
  refine Sat.mono h ?_
  rintro a fs' ⟨grows, same, holds⟩
  exact ⟨grows, same, weaker a fs' grows holds⟩

theorem get {f : Func → FuncM α} (h : Ends (f fs) fs Q) : Ends (MonadState.get >>= f) fs Q := h

end Ends

/-! ## States between two instructions -/

-- the registers from `low` on are those of the expression that is being compiled
structure Stable (low : Nat) (exempt : Option Nat) (fs : Func) : Prop where
  coded : Coded exempt fs
  locals : fs.numActiveLocalVars ≤ low
  lower : low ≤ fs.freeRegister
  upper : fs.freeRegister ≤ fs.maxStackSize.val
  limit : fs.constants.length ≤ 2 ^ 18

variable {low low' : Nat} {fs fs' : Func} {exempt : Option Nat} {i : Instruction} {e : ExpDesc} {index : Nat}

-- registers are taken or given back
structure Resized (low : Nat) (fs fs' : Func) : Prop where
  code : fs'.code = fs.code
  constants : fs'.constants = fs.constants
  number : fs'.numActiveLocalVars = fs.numActiveLocalVars
  varargs : fs'.varargs = fs.varargs
  registers : fs.maxStackSize.val ≤ fs'.maxStackSize.val
  lower : low ≤ fs'.freeRegister
  upper : fs'.freeRegister ≤ fs'.maxStackSize.val

theorem Resized.trans {fs'' : Func} (h : Resized low fs fs') (h' : Resized low fs' fs'') : Resized low fs fs'' where
  code := h'.code.trans h.code
  constants := h'.constants.trans h.constants
  number := h'.number.trans h.number
  varargs := h'.varargs.trans h.varargs
  registers := h.registers.trans h'.registers
  lower := h'.lower
  upper := h'.upper

theorem Resized.grows (h : Resized low fs fs') : Grows fs fs' where
  registers := h.registers
  constants := by rw [h.constants]
  number := h.number
  varargs := h.varargs
  tables := by rw [h.code]; exact fun _ => id

theorem Coded.grow (coded : Coded exempt fs) (code : fs'.code = fs.code)
    (registers : fs.maxStackSize.val ≤ fs'.maxStackSize.val) (constants : fs.constants <+: fs'.constants) :
    Coded exempt fs' where
  instrs := by
    rw [code]
    intro index i located other
    obtain ⟨fine, complete⟩ := coded.instrs index i located other
    exact ⟨fine.mono registers constants, complete⟩
  batches := by
    rw [code]
    exact coded.batches

namespace Stable

theorem resize (stable : Stable low exempt fs) (h : Resized low fs fs') : Stable low exempt fs' where
  coded := stable.coded.grow h.code h.registers (by rw [h.constants])
  locals := by rw [h.number]; exact stable.locals
  lower := h.lower
  upper := h.upper
  limit := by rw [h.constants]; exact stable.limit

theorem resized (stable : Stable low exempt fs) : Resized low fs fs :=
  ⟨rfl, rfl, rfl, rfl, le_rfl, stable.lower, stable.upper⟩

theorem weaken (stable : Stable low exempt fs) (le : low' ≤ low) (locals : fs.numActiveLocalVars ≤ low') :
    Stable low' exempt fs := { stable with locals, lower := le.trans stable.lower }

end Stable

/-! ## Emitting and patching -/

theorem Complete.of_closed {code : List Word} (closed : opens i = false) (short : Function.takesBatch i = false) :
    Complete code index i where
  consumed opened := by
    rw [closed] at opened
    cases opened
  batch long := by
    rw [short] at long
    cases long

-- words that are checked by themselves
theorem Coded.append {words : List Word} (coded : Coded exempt fs) (block : Coded none { fs with code := words })
    (code : fs'.code = fs.code ++ words) (registers : fs'.maxStackSize = fs.maxStackSize)
    (constants : fs'.constants = fs.constants) : Coded exempt fs' := by
  have before {index : Nat} {w : Word} (h : fs.code[index]? = some w) : fs'.code[index]? = some w := by
    rw [code]
    exact getElem?_of_initial h (List.prefix_append _ _)
  have behind (k : Nat) : fs'.code[fs.code.length + k]? = words[k]? := by
    rw [code, List.getElem?_append_right (Nat.le_add_right _ _), Nat.add_sub_cancel_left]
  have places {index : Nat} {w : Word} (h : fs'.code[index]? = some w) :
      fs.code[index]? = some w ∨ ∃ k, index = fs.code.length + k ∧ words[k]? = some w := by
    by_cases less : index < fs.code.length
    · rw [code, List.getElem?_append_left less] at h
      exact .inl h
    · have place : index = fs.code.length + (index - fs.code.length) := by omega
      rw [place, behind] at h
      exact .inr ⟨_, place, h⟩
  constructor
  · intro index j located other
    rw [registers, constants]
    rcases places located with old | ⟨k, rfl, new⟩
    · obtain ⟨fine, consumed, batch⟩ := coded.instrs index j old other
      refine ⟨fine, ?_, ?_⟩
      · intro opened
        obtain ⟨next, there, uses⟩ := consumed opened
        exact ⟨next, before there, uses⟩
      · intro long
        obtain ⟨n, there⟩ := batch long
        exact ⟨n, before there⟩
    · obtain ⟨fine, consumed, batch⟩ := block.instrs k j new (Option.some_ne_none k).symm
      refine ⟨fine, ?_, ?_⟩
      · intro opened
        obtain ⟨next, there, uses⟩ := consumed opened
        exact ⟨next, (behind (k + 1)).trans there, uses⟩
      · intro long
        obtain ⟨n, there⟩ := batch long
        exact ⟨n, (behind (k + 1)).trans there⟩
  · intro index n located
    rcases places located with old | ⟨k, rfl, new⟩
    · obtain ⟨prior, j, same, found, long⟩ := coded.batches index n old
      exact ⟨prior, j, same, before found, long⟩
    · obtain ⟨prior, j, rfl, found, long⟩ := block.batches k n new
      exact ⟨fs.code.length + prior, j, rfl, (behind prior).trans found, long⟩

theorem coded_single (fine : Fine fs.maxStackSize.val fs.constants i) (closed : opens i = false)
    (short : Function.takesBatch i = false) : Coded none { fs with code := [.instr i] } where
  instrs index j located _ := by
    cases List.mem_singleton.mp (List.mem_of_getElem? located)
    exact ⟨fine, .of_closed closed short⟩
  batches index n located := by
    cases List.mem_singleton.mp (List.mem_of_getElem? located)

-- a long list with its batch number
theorem coded_pair {n : Nat} (fine : Fine fs.maxStackSize.val fs.constants i) (closed : opens i = false)
    (long : Function.takesBatch i = true) : Coded none { fs with code := [.instr i, .batch n] } where
  instrs index j located _ := by
    match index with
    | 0 =>
        cases located
        refine ⟨fine, ?_, fun _ => ⟨n, rfl⟩⟩
        rw [closed]
        intro opened
        cases opened
    | 1 => cases located
    | index + 2 => cases located
  batches index m located := by
    match index with
    | 0 => cases located
    | 1 => exact ⟨0, i, rfl, rfl, long⟩
    | index + 2 => cases located

-- an instruction that nothing before it depends on is replaced
theorem Coded.set {j : Instruction} (coded : Coded exempt fs) (only : exempt = none ∨ exempt = some index)
    (located : fs.code[index]? = some (.instr i)) (code : fs'.code = fs.code.set index (.instr j))
    (registers : fs'.maxStackSize = fs.maxStackSize) (constants : fs'.constants = fs.constants)
    (unused : consumes i = false) (short : Function.takesBatch i = false) : Coded (some index) fs' := by
  have at_index : fs'.code[index]? = some (.instr j) := by
    rw [code, List.getElem?_set_self (List.getElem?_eq_some_iff.mp located).1]
  have elsewhere {k : Nat} (other : index ≠ k) : fs'.code[k]? = fs.code[k]? := by
    rw [code, List.getElem?_set_ne other]
  constructor
  · intro k l there other
    have other : index ≠ k := fun same => other (congrArg some same)
    rw [elsewhere other] at there
    have free : exempt ≠ some k := by
      rcases only with rfl | rfl
      · exact (Option.some_ne_none k).symm
      · exact fun same => other (Option.some.inj same)
    obtain ⟨fine, consumed, batch⟩ := coded.instrs k l there free
    rw [registers, constants]
    refine ⟨fine, ?_, ?_⟩
    · intro opened
      obtain ⟨next, found, uses⟩ := consumed opened
      by_cases same : index = k + 1
      · subst same
        rw [located] at found
        cases found
        rw [unused] at uses
        cases uses
      · exact ⟨next, by rw [elsewhere same, found], uses⟩
    · intro long
      obtain ⟨n, found⟩ := batch long
      by_cases same : index = k + 1
      · subst same
        rw [located] at found
        cases found
      · exact ⟨n, by rw [elsewhere same, found]⟩
  · intro k n there
    have other : index ≠ k := by
      rintro rfl
      rw [at_index] at there
      cases there
    rw [elsewhere other] at there
    obtain ⟨prior, l, same, found, long⟩ := coded.batches k n there
    refine ⟨prior, l, same, ?_, long⟩
    rw [elsewhere, found]
    rintro rfl
    rw [located] at found
    cases found
    rw [short] at long
    cases long

theorem Coded.close (coded : Coded (some index) fs) (located : fs.code[index]? = some (.instr i))
    (fine : Fine fs.maxStackSize.val fs.constants i) (complete : Complete fs.code index i) : Coded none fs where
  instrs := by
    intro k j there _
    by_cases same : index = k
    · subst same
      rw [located] at there
      cases there
      exact ⟨fine, complete⟩
    · exact coded.instrs k j there fun h => same (Option.some.inj h)
  batches := coded.batches

theorem IsTable.append {code : List Word} {w : Word} (table : IsTable code index) : IsTable (code ++ [w]) index := by
  obtain ⟨i, located, op⟩ := table
  exact ⟨i, getElem?_of_initial located (List.prefix_append _ _), op⟩

theorem IsTable.set {code : List Word} {k : Nat} {j : Instruction} (located : code[k]? = some (.instr i))
    (op : i.op = .newtable → j.op = .newtable) (table : IsTable code index) : IsTable (code.set k (.instr j)) index := by
  obtain ⟨l, there, isTable⟩ := table
  by_cases same : k = index
  · subst same
    rw [located] at there
    cases there
    refine ⟨j, ?_, op isTable⟩
    rw [List.getElem?_set_self (List.getElem?_eq_some_iff.mp located).1]
  · exact ⟨l, by rw [List.getElem?_set_ne same, there], isTable⟩

-- the instruction has been given its target or its operands
theorem Stable.close (stable : Stable low (some index) fs) (located : fs.code[index]? = some (.instr i))
    (fine : Fine fs.maxStackSize.val fs.constants i) (closed : opens i = false)
    (short : Function.takesBatch i = false) : Stable low none fs :=
  ⟨stable.coded.close located fine (.of_closed closed short), stable.locals, stable.lower, stable.upper, stable.limit⟩

-- a register that can be given back is one of the expression
def Held (low : Nat) (fs : Func) (reg : Nat) : Prop :=
  rkIsConstant reg = false → fs.numActiveLocalVars ≤ reg → low ≤ reg

-- the register of a local, or one of the expression
structure Own (low : Nat) (fs : Func) (r : Nat) : Prop where
  inside : r < fs.maxStackSize.val
  above : r < fs.numActiveLocalVars ∨ low ≤ r

theorem Own.held {r : Nat} (own : Own low fs r) : Held low fs r := by
  intro _ notLocal
  exact own.above.resolve_left (Nat.not_lt.mpr notLocal)

theorem Own.grows {r : Nat} (own : Own low fs r) (grows : Grows fs fs') : Own low fs' r :=
  ⟨own.inside.trans_le grows.registers, by rw [grows.number]; exact own.above⟩

theorem Held.grows {reg : Nat} (held : Held low fs reg) (grows : Grows fs fs') : Held low fs' reg := by
  unfold Held
  rw [grows.number]
  exact held

theorem Own.weaken {r : Nat} (own : Own low fs r) (le : low' ≤ low) : Own low' fs r :=
  ⟨own.inside, own.above.imp_right le.trans⟩

namespace Func

theorem emitInstruction_ends (stable : Stable low exempt fs) (fine : Fine fs.maxStackSize.val fs.constants i)
    (closed : opens i = false) (short : Function.takesBatch i = false) :
    Ends (emitInstruction i) fs fun index fs' => Stable low exempt fs' ∧ fs' = { fs with code := fs.code ++ [.instr i] } ∧
      index = fs.code.length := by
  refine ⟨⟨le_rfl, List.prefix_rfl, rfl, rfl, fun _ table => table.append⟩, rfl, ?_, rfl, rfl⟩
  exact ⟨stable.coded.append (coded_single fine closed short) rfl rfl rfl, stable.locals, stable.lower, stable.upper, stable.limit⟩

theorem getcode_run (located : fs.code[index]? = some (.instr i)) : getcode index fs = .ok (i, fs) := by
  have run : Sat (fun _ => False) (getcode index) fs fun j fs' => j = i ∧ fs' = fs := by
    refine Sat.bind (Sat.get ?_)
    rw [located]
    exact ⟨rfl, rfl⟩
  unfold Sat at run
  split at run
  · rename_i result
    rw [result, run.1, run.2]
  · exact run.elim

theorem getcode_ends {α : Type} {f : Instruction → FuncM α} {Q : α → Func → Prop}
    (located : fs.code[index]? = some (.instr i)) (h : Ends (f i) fs Q) : Ends (getcode index >>= f) fs Q := by
  refine Sat.bind ?_
  unfold Sat
  rw [getcode_run located]
  exact h

-- an instruction that nothing depends on, with a new target or new operands
theorem patch_ends {f : Instruction → Instruction} (stable : Stable low exempt fs)
    (only : exempt = none ∨ exempt = some index) (located : fs.code[index]? = some (.instr i))
    (op : i.op = .newtable → (f i).op = .newtable) (unused : consumes i = false) (short : Function.takesBatch i = false) :
    Ends (patch index f) fs fun _ fs' => Stable low (some index) fs' ∧ fs'.code[index]? = some (.instr (f i)) ∧
      fs' = { fs with code := fs.code.set index (.instr (f i)) } := by
  have run : patch index f fs = .ok ((), { fs with code := fs.code.set index (.instr (f i)) }) := by
    show (getcode index fs >>= _) = _
    rw [getcode_run located]
    rfl
  unfold Ends Sat
  rw [run]
  refine ⟨⟨le_rfl, List.prefix_rfl, rfl, rfl, fun _ table => table.set located op⟩, rfl, ?_, ?_, rfl⟩
  · exact ⟨stable.coded.set only located rfl rfl rfl unused short, stable.locals, stable.lower, stable.upper, stable.limit⟩
  · exact List.getElem?_set_self (List.getElem?_eq_some_iff.mp located).1

theorem reserveregs_ends (n : Nat) (lower : low ≤ fs.freeRegister) :
    Ends (reserveregs n) fs fun _ fs' => Resized low fs fs' ∧ fs'.freeRegister = fs.freeRegister + n := by
  have checked : Sat (fun _ => True) (checkstack n) fs fun _ fs' =>
      Resized low fs { fs' with freeRegister := fs'.freeRegister + n } ∧ fs'.freeRegister = fs.freeRegister ∧
        fs'.curExp = fs.curExp := by
    refine Sat.bind (Sat.get ?_)
    dsimp only
    split
    · trivial
    · split
      · rename_i fits
        exact ⟨⟨rfl, rfl, rfl, rfl, le_rfl, Nat.le_add_right_of_le lower, fits⟩, rfl, rfl⟩
      · rename_i more
        split
        · trivial
        · exact ⟨⟨rfl, rfl, rfl, rfl, Nat.le_of_not_le more, Nat.le_add_right_of_le lower, le_rfl⟩, rfl, rfl⟩
  refine Sat.bind (Sat.mono checked ?_)
  rintro _ fs' ⟨resized, same, exp⟩
  refine Sat.modify ⟨resized.grows, exp, resized, ?_⟩
  dsimp only
  rw [same]

-- a register above the locals was the last one
theorem freereg_ends {reg : Nat} (held : Held low fs reg) (stable : Stable low exempt fs) :
    Ends (freereg reg) fs fun _ fs' => Resized low fs fs' ∧
      (rkIsConstant reg = false → fs.numActiveLocalVars ≤ reg →
        reg + 1 = fs.freeRegister ∧ fs'.freeRegister = reg) := by
  refine Ends.get ?_
  split
  · rename_i own
    simp only [Bool.and_eq_true, Bool.not_eq_true', decide_eq_true_eq] at own
    split
    · exact .throw _
    · split
      · exact .throw _
      · rename_i positive last
        have upper := stable.upper
        have above := held own.1 own.2
        have resized : Resized low fs { fs with freeRegister := fs.freeRegister - 1 } :=
          ⟨rfl, rfl, rfl, rfl, le_rfl, by dsimp only; omega, by dsimp only; omega⟩
        exact ⟨resized.grows, rfl, resized, fun _ _ => by dsimp only; omega⟩
  · rename_i other
    refine .pure ⟨stable.resized, ?_⟩
    intro register above
    simp [register, above] at other

theorem freeexp_ends (own : ∀ r, e = .nonreloc r → Own low fs r) (stable : Stable low exempt fs) :
    Ends (freeexp e) fs fun _ fs' => Resized low fs fs' := by
  unfold freeexp
  split
  · exact (freereg_ends (own _ rfl).held stable).mono fun _ _ _ h => h.1
  · exact .pure stable.resized

theorem freeOwn_ends {r : Nat} (own : Own low fs r) (stable : Stable low exempt fs) :
    Ends (freeexp (.nonreloc r)) fs fun _ fs' => Resized low fs fs' :=
  (freereg_ends own.held stable).mono fun _ _ _ h => h.1

theorem putConstant_ends (constant : Constant) (stable : Stable low exempt fs) :
    Ends (putConstant constant) fs fun k fs' => Stable low exempt fs' ∧ fs' = { fs with constants := fs'.constants } ∧
      k ≤ fs.constants.length ∧ k < fs'.constants.length ∧
      (∀ name, constant = .string name → IsName fs'.constants k) := by
  refine Ends.get ?_
  split
  · rename_i index found
    obtain ⟨inside, holds, -⟩ := List.findIdx?_eq_some_iff_getElem.mp found
    refine .pure ⟨stable, rfl, inside.le, inside, ?_⟩
    rintro name rfl
    cases there : fs.constants[index] with
    | string other =>
        simp only [there, sameKey, beq_iff_eq] at holds
        subst holds
        exact ⟨name, by rw [List.getElem?_eq_getElem inside, there]⟩
    | _ => simp [there, sameKey] at holds
  · split
    · exact .throw _
    · rename_i room
      have more : fs.constants <+: fs.constants ++ [constant] := List.prefix_append _ _
      refine ⟨⟨le_rfl, more, rfl, rfl, fun _ => id⟩, rfl, ⟨stable.coded.grow rfl le_rfl more, stable.locals, stable.lower, stable.upper, ?_⟩, rfl,
        le_rfl, ?_, ?_⟩
      · simp only [maxBx] at room
        simp only [List.length_append, List.length_singleton]
        omega
      · simp
      · rintro name rfl
        exact ⟨name, by simp⟩

end Func

/-! ## Descriptions -/

-- its target may be any register
def Relocatable (i : Instruction) : Prop :=
  match i.op with
  | .getglobal | .gettable | .newtable | .add | .sub | .mul | .div | .mod | .pow | .unm | .not | .len | .concat => True
  | .vararg => i.b = 2
  | _ => False

theorem Relocatable.moved {registers r : Nat} {constants : List Constant} (h : Relocatable i)
    (fine : Fine registers constants i) (register : r < registers) (small : registers ≤ 256) :
    Fine registers constants { i with a := r } := by
  obtain ⟨fits, -, operands⟩ := fine
  refine ⟨⟨register.trans_le small, fits.b, fits.c⟩, register, ?_⟩
  rcases i with ⟨op, a, b, c⟩
  cases op
  all_goals try exact h.elim
  case vararg =>
      obtain rfl : b = 2 := h
      exact ⟨operands.1, .inr ⟨Nat.le_add_left 2 r, Nat.succ_le_succ register⟩⟩
  all_goals exact operands

theorem Relocatable.plain (h : Relocatable i) :
    opens i = false ∧ consumes i = false ∧ Function.takesBatch i = false := by
  rcases i with ⟨op, a, b, c⟩
  cases op
  all_goals try exact h.elim
  case vararg =>
      obtain rfl : b = 2 := h
      exact ⟨rfl, rfl, rfl⟩
  all_goals exact ⟨rfl, rfl, rfl⟩

-- nothing is left to emit but an instruction that loads the value
def Plain : ExpDesc → Prop
  | .nil | .true | .false | .number _ | .constantIndex _ | .relocable _ | .nonreloc _ => True
  | _ => False

def Describes (low : Nat) (fs : Func) : ExpDesc → Prop
  | .nil | .true | .false | .number _ => True
  | .constantIndex k => k < fs.constants.length
  | .localRegister r | .nonreloc r => Own low fs r
  | .global k => IsName fs.constants k
  | .indexed table key => Own low fs table ∧ Operand fs.maxStackSize.val fs.constants key ∧ Held low fs key
  | .relocable index => ∃ i, fs.code[index]? = some (.instr i) ∧ Relocatable i
  | .call index => index + 1 = fs.code.length ∧ ∃ i, fs.code[index]? = some (.instr i) ∧ i.op = .call ∧ 0 < i.c ∧
      fs.freeRegister = i.a + 1 ∧ low ≤ i.a
  | .vararg index => index + 1 = fs.code.length ∧ fs.code[index]? = some (.instr ⟨.vararg, 0, 1, 0⟩)
  | .void | .upvalueIndex _ | .jmp _ => False

-- a vararg has no target yet, not even a preliminary one
def unfinished : ExpDesc → Option Nat
  | .vararg index => some index
  | _ => none

structure Described (low : Nat) (fs : Func) (e : ExpDesc) : Prop where
  stable : Stable low (unfinished e) fs
  describes : Describes low fs e

-- its value is one value
structure Finished (low : Nat) (fs : Func) (e : ExpDesc) : Prop where
  stable : Stable low none fs
  describes : Describes low fs e
  single : unfinished e = none

theorem Finished.described (h : Finished low fs e) : Described low fs e := ⟨by rw [h.single]; exact h.stable, h.describes⟩

theorem Describes.resize (h : Describes low fs e) (plain : Plain e) (resized : Resized low fs fs') : Describes low fs' e := by
  cases e
  all_goals try exact plain.elim
  case constantIndex k => exact Nat.lt_of_lt_of_eq h (by rw [resized.constants])
  case nonreloc r => exact Own.grows h resized.grows
  case relocable index =>
      obtain ⟨i, located, moves⟩ := h
      exact ⟨i, by rw [resized.code, located], moves⟩
  all_goals trivial

theorem Plain.finished (plain : Plain e) : unfinished e = none := by
  cases e
  all_goals try exact plain.elim
  all_goals rfl

theorem Described.own (h : Described low fs e) : ∀ r, e = .nonreloc r → Own low fs r := by
  rintro r rfl
  exact h.describes

theorem Described.resize (h : Described low fs e) (plain : Plain e) (resized : Resized low fs fs') : Described low fs' e :=
  ⟨h.stable.resize resized, h.describes.resize plain resized⟩

namespace Func

theorem registers_lt (fs : Func) : fs.maxStackSize.val < 250 := fs.maxStackSize.lt

theorem two_le_registers (fs : Func) : 2 ≤ fs.maxStackSize.val := fs.maxStackSize.two_le

theorem emitABC_ends {op : OpCode} {a b c : Nat} (stable : Stable low none fs) (register : a < fs.maxStackSize.val)
    (fits : b < 512 ∧ c < 512) (operands : FineOperands fs.maxStackSize.val fs.constants ⟨op, a, b, c⟩)
    (closed : opens ⟨op, a, b, c⟩ = false) (short : Function.takesBatch ⟨op, a, b, c⟩ = false) :
    Ends (emitABC op a b c) fs fun index fs' => Stable low none fs' ∧
      fs' = { fs with code := fs.code ++ [.instr ⟨op, a, b, c⟩] } ∧ index = fs.code.length := by
  have small := fs.registers_lt
  exact emitInstruction_ends stable ⟨⟨by dsimp only; omega, fits.1, fits.2⟩, register, operands⟩ closed short

theorem emitABx_ends {op : OpCode} {a k : Nat} (stable : Stable low none fs) (register : a < fs.maxStackSize.val)
    (inside : k < fs.constants.length) (operands : FineOperands fs.maxStackSize.val fs.constants (.abx op a k))
    (closed : opens (.abx op a k) = false) (short : Function.takesBatch (.abx op a k) = false) :
    Ends (emitABx op a k) fs fun index fs' => Stable low none fs' ∧
      fs' = { fs with code := fs.code ++ [.instr (.abx op a k)] } ∧ index = fs.code.length := by
  have small := fs.registers_lt
  have limit := stable.limit
  have fits : (Instruction.abx op a k).Fits :=
    ⟨by simp only [Instruction.abx]; omega, by simp only [Instruction.abx]; omega, Nat.mod_lt k (by norm_num)⟩
  exact emitInstruction_ends stable ⟨fits, register, operands⟩ closed short

theorem discharge_call (h : Described low fs (.call index)) : Ends (setoneret (.call index)) fs fun e' fs' =>
    Described low fs' e' ∧ Plain e' := by
  obtain ⟨stable, -, i, located, -, -, -, above⟩ := h
  refine getcode_ends located (.pure ⟨⟨stable, ?_, .inr above⟩, trivial⟩)
  exact (stable.coded.instrs index i located (Option.some_ne_none _).symm).1.a

theorem discharge_vararg (h : Described low fs (.vararg index)) : Ends (setoneret (.vararg index)) fs fun e' fs' =>
    Described low fs' e' ∧ Plain e' := by
  obtain ⟨stable, -, located⟩ := h
  refine (patch_ends stable (.inr rfl) located id rfl rfl).bind ?_
  rintro _ fs' - ⟨stable, located, rfl⟩
  have two := fs.two_le_registers
  have fine : Fine fs.maxStackSize.val fs.constants ⟨.vararg, 0, 2, 0⟩ :=
    ⟨⟨by decide, by decide, by decide⟩, by dsimp only; omega, rfl, .inr ⟨le_rfl, by dsimp only; omega⟩⟩
  exact .pure ⟨⟨stable.close located fine rfl rfl, _, located, rfl⟩, trivial⟩

theorem dischargevars_ends (h : Described low fs e) : Ends (dischargevars e) fs fun e' fs' =>
    Described low fs' e' ∧ Plain e' ∧ (Plain e → fs' = fs) := by
  have two := fs.two_le_registers
  cases e
  case void | upvalueIndex | jmp => exact h.describes.elim
  case localRegister r => exact .pure ⟨⟨h.stable, h.describes⟩, trivial, False.elim⟩
  case global k =>
      obtain ⟨stable, name⟩ := h
      obtain ⟨text, found⟩ := id name
      have inside := (List.getElem?_eq_some_iff.mp found).1
      refine (emitABx_ends stable (by omega) inside (by simpa [FineOperands]) rfl rfl).bind ?_
      rintro _ _ - ⟨stable, rfl, rfl⟩
      exact .pure ⟨⟨stable, _, List.getElem?_concat_length, trivial⟩, trivial, False.elim⟩
  case indexed table key =>
      obtain ⟨stable, own, operand, held⟩ := h
      have inside := own.inside
      have small := fs.registers_lt
      refine .bind (freereg_ends held stable) ?_
      rintro _ fs₁ grows₁ ⟨resized, -⟩
      refine .bind (freereg_ends (own.held.grows grows₁) (stable.resize resized)) ?_
      rintro _ fs₂ - ⟨resized', -⟩
      have more : fs.maxStackSize.val ≤ fs₂.maxStackSize.val := resized.registers.trans resized'.registers
      have same : fs₂.constants = fs.constants := resized'.constants.trans resized.constants
      have small' := fs₂.registers_lt
      have operand' : Operand fs₂.maxStackSize.val fs₂.constants key := operand.mono more (by rw [same])
      have below : table < fs₂.maxStackSize.val := by omega
      refine .bind (emitABC_ends ((stable.resize resized).resize resized') (by omega)
        ⟨by omega, operand'.lt (by omega)⟩ ⟨below, operand'⟩ rfl rfl) ?_
      rintro _ _ - ⟨stable, rfl, rfl⟩
      exact .pure ⟨⟨stable, _, List.getElem?_concat_length, trivial⟩, trivial, False.elim⟩
  case call index => exact (discharge_call h).mono fun _ _ _ h => ⟨h.1, h.2, False.elim⟩
  case vararg index => exact (discharge_vararg h).mono fun _ _ _ h => ⟨h.1, h.2, False.elim⟩
  all_goals exact .pure ⟨h, trivial, fun _ => rfl⟩

/-! ## Values in registers -/

theorem emitNil_ends {start n : Nat} (stable : Stable low none fs) (inside : start + n ≤ fs.maxStackSize.val) :
    Ends (emitNil start n) fs fun _ fs' => Stable low none fs' ∧ fs'.freeRegister = fs.freeRegister := by
  have small := fs.registers_lt
  refine Ends.get ?_
  split
  · exact .throw _
  · split
    · exact .pure ⟨stable, rfl⟩
    · have last : start + n - 1 < fs.maxStackSize.val := by omega
      refine .bind (emitABC_ends stable (by omega) ⟨by omega, by decide⟩ ⟨last, rfl⟩ rfl rfl) ?_
      rintro _ _ - ⟨stable, rfl, -⟩
      exact .pure ⟨stable, rfl⟩

theorem discharge2reg_ends {reg : Nat} (h : Described low fs e) (register : reg < fs.maxStackSize.val) :
    Ends (discharge2reg e reg) fs fun e' fs' => Stable low none fs' ∧ e' = .nonreloc reg ∧
      (Plain e → fs'.freeRegister = fs.freeRegister) := by
  refine .bind (dischargevars_ends h) ?_
  rintro e' fs' grows ⟨⟨stable, describes⟩, plain, same⟩
  have register : reg < fs'.maxStackSize.val := register.trans_le grows.registers
  have small := fs'.registers_lt
  have free (n : Nat) (kept : n = fs'.freeRegister) (before : Plain e) : n = fs.freeRegister := by
    rw [kept, same before]
  rw [plain.finished] at stable
  cases e'
  all_goals try exact plain.elim
  case nil =>
      refine .bind (emitNil_ends stable (by omega)) ?_
      rintro _ _ - ⟨stable, kept⟩
      exact .pure ⟨stable, rfl, free _ kept⟩
  case true | false =>
      refine .bind (emitABC_ends stable register ⟨by decide, by decide⟩ rfl rfl rfl) ?_
      rintro _ _ - ⟨stable, rfl, -⟩
      exact .pure ⟨stable, rfl, free _ rfl⟩
  case constantIndex k =>
      have inside : k < fs'.constants.length := describes
      refine .bind (emitABx_ends stable register inside (by simpa [FineOperands] using inside) rfl rfl) ?_
      rintro _ _ - ⟨stable, rfl, -⟩
      exact .pure ⟨stable, rfl, free _ rfl⟩
  case number n =>
      refine .bind (putConstant_ends _ stable) ?_
      rintro k fs'' grows ⟨stable, state, -, inside, -⟩
      have kept : fs''.freeRegister = fs'.freeRegister := by rw [state]
      refine .bind (emitABx_ends stable (register.trans_le grows.registers) inside
        (by simpa [FineOperands] using inside) rfl rfl) ?_
      rintro _ _ - ⟨stable, rfl, -⟩
      exact .pure ⟨stable, rfl, free _ kept⟩
  case relocable index =>
      obtain ⟨i, located, moves⟩ := describes
      obtain ⟨closed, unused, short⟩ := moves.plain
      refine getcode_ends located ?_
      split
      · refine .bind (patch_ends stable (.inl rfl) located id unused short) ?_
        rintro _ _ - ⟨patched, there, rfl⟩
        have fine := (stable.coded.instrs index i located (Option.some_ne_none _).symm).1
        have fine := moves.moved fine register (by omega)
        exact .pure ⟨patched.close there fine closed short, rfl, free _ rfl⟩
      · exact .throw _
  case nonreloc r =>
      have operand : r < fs'.maxStackSize.val := describes.inside
      dsimp only
      split
      · exact .pure ⟨stable, rfl, free _ rfl⟩
      · refine .bind (emitABC_ends stable register ⟨by omega, by decide⟩ ⟨operand, rfl⟩ rfl rfl) ?_
        rintro _ _ - ⟨stable, rfl, -⟩
        exact .pure ⟨stable, rfl, free _ rfl⟩

theorem exp2reg_ends {reg : Nat} (h : Described low fs e) (register : reg < fs.maxStackSize.val) :
    Ends (exp2reg e reg) fs fun e' fs' => Stable low none fs' ∧ e' = .nonreloc reg ∧
      (Plain e → fs'.freeRegister = fs.freeRegister) := by
  refine .bind (discharge2reg_ends h register) ?_
  rintro _ fs' - ⟨stable, rfl, kept⟩
  exact .pure ⟨stable, rfl, kept⟩

-- in the register that was free
theorem exp2nextreg_ends (h : Described low fs e) : Ends (exp2nextreg e) fs fun result fs' =>
    ∃ r, result = (r, .nonreloc r) ∧ Stable low none fs' ∧ r + 1 = fs'.freeRegister ∧ low ≤ r := by
  refine .bind (dischargevars_ends h) ?_
  rintro e fs₁ - ⟨described, plain, -⟩
  refine .bind (freeexp_ends described.own described.stable) ?_
  rintro _ fs₂ - resized
  have described := described.resize plain resized
  have lower := described.stable.lower
  refine .bind (reserveregs_ends 1 lower) ?_
  rintro _ fs₃ - ⟨resized', more⟩
  have upper := resized'.upper
  refine Ends.get ?_
  refine .bind (exp2reg_ends (described.resize plain resized') (by omega)) ?_
  rintro _ fs₄ grows ⟨stable, rfl, kept⟩
  have kept := kept plain
  exact .pure ⟨_, rfl, stable, by omega, by omega⟩

theorem exp2anyreg_ends (h : Described low fs e) : Ends (exp2anyreg e) fs fun result fs' =>
    ∃ r, result = (r, .nonreloc r) ∧ Stable low none fs' ∧ Own low fs' r := by
  refine .bind (dischargevars_ends h) ?_
  rintro e fs₁ - ⟨described, plain, -⟩
  split
  · exact .pure ⟨_, rfl, described.stable, described.describes⟩
  · refine (exp2nextreg_ends described).mono ?_
    rintro _ fs₂ - ⟨r, rfl, stable, last, above⟩
    have upper := stable.upper
    exact ⟨r, rfl, stable, by omega, .inr above⟩

end Func

/-! ## Operands -/

-- a value that stays where it is while other code is emitted
def Steady : ExpDesc → Prop
  | .nil | .true | .false | .number _ | .constantIndex _ | .nonreloc _ => True
  | _ => False

theorem Steady.plain (steady : Steady e) : Plain e := by
  cases e
  all_goals try exact steady.elim
  all_goals trivial

theorem Steady.grows (steady : Steady e) (describes : Describes low fs e) (grows : Grows fs fs') : Describes low fs' e := by
  cases e
  all_goals try exact steady.elim
  case constantIndex k => exact Nat.lt_of_lt_of_le describes grows.constants.length_le
  case nonreloc r => exact Own.grows describes grows
  all_goals trivial

theorem Steady.described (steady : Steady e) (describes : Describes low fs e) (stable : Stable low none fs) :
    Described low fs e := ⟨by rw [steady.plain.finished]; exact stable, describes⟩

namespace Func

structure AsOperand (low rk : Nat) (e : ExpDesc) (fs : Func) : Prop where
  stable : Stable low none fs
  operand : Operand fs.maxStackSize.val fs.constants rk
  held : Held low fs rk
  steady : Steady e
  describes : Describes low fs e

theorem held_constant {k : Nat} (small : k ≤ rkMaxConstantIndex) : Held low fs (constantIndexToRK k) := by
  intro register
  rw [(rk_constant small).1] at register
  cases register

theorem exp2anyreg_operand (h : Described low fs e) :
    Ends (exp2anyreg e) fs fun result fs' => AsOperand low result.1 result.2 fs' := by
  refine (exp2anyreg_ends h).mono ?_
  rintro _ fs' - ⟨r, rfl, stable, own⟩
  exact ⟨stable, .inl own.inside, own.held, trivial, own⟩

theorem exp2RK_ends (h : Described low fs e) : Ends (exp2RK e) fs fun result fs' => AsOperand low result.1 result.2 fs' := by
  refine .bind (dischargevars_ends h) ?_
  rintro e fs' - ⟨described, plain, -⟩
  refine Ends.get ?_
  have literal (constant : Constant) (steady : Steady e)
      (kept : ∀ fs'', Grows fs' fs'' → Describes low fs'' e) : Ends (if fs'.constants.length ≤ rkMaxConstantIndex then do
        let k ← putConstant constant
        return (constantIndexToRK k, e)
      else exp2anyreg e) fs' fun result fs' => AsOperand low result.1 result.2 fs' := by
    split
    · rename_i room
      refine .bind (putConstant_ends constant described.stable) ?_
      rintro k fs'' grows ⟨stable, -, small, inside, -⟩
      rw [plain.finished] at stable
      exact .pure ⟨stable, .inr ⟨k, small.trans room, inside, rfl⟩, held_constant (small.trans room), steady,
        kept fs'' grows⟩
    · exact exp2anyreg_operand described
  cases e
  all_goals try exact plain.elim
  case nil | true | false | number => exact literal _ trivial fun _ _ => trivial
  case constantIndex k =>
      dsimp only [literal?]
      split
      · rename_i small
        exact .pure ⟨described.stable, .inr ⟨k, small, described.describes, rfl⟩, held_constant small, trivial,
          described.describes⟩
      · exact exp2anyreg_operand described
  all_goals exact exp2anyreg_operand described

theorem exp2RK_nonreloc (r : Nat) (fs : Func) : exp2RK (.nonreloc r) fs = .ok ((r, .nonreloc r), fs) := rfl

theorem indexed_ends {table key : ExpDesc} (h : Described low fs key) (steady : Steady table)
    (describes : Describes low fs table) : Ends (indexed table key) fs fun e fs' => Finished low fs' e := by
  refine .bind (exp2RK_ends h) ?_
  rintro ⟨rk, e⟩ fs' grows operand
  cases table
  case nonreloc r =>
      exact .pure ⟨operand.stable, ⟨Own.grows describes grows, operand.operand, operand.held⟩, rfl⟩
  all_goals exact .throw _

-- the function of a method call and its first argument are in the next two registers
theorem handleSelf_ends {key : ExpDesc} (h : Described low fs e) (steady : Steady key) (describes : Describes low fs key) :
    Ends (handleSelf e key) fs fun e' fs' => Finished low fs' e' ∧ ∃ r, e' = .nonreloc r ∧ low ≤ r := by
  refine .bind (exp2anyreg_ends h) ?_
  rintro _ fs₁ grows₁ ⟨table, rfl, stable, own⟩
  refine .bind (freeOwn_ends own stable) ?_
  intro _ fs₂ grows₂ resized
  have stable₂ := stable.resize resized
  have lower := stable₂.lower
  refine Ends.get ?_
  refine .bind (reserveregs_ends 2 lower) ?_
  rintro _ fs₃ grows₃ ⟨resized', more⟩
  have upper := resized'.upper
  have stable₃ := stable₂.resize resized'
  have grows := grows_reflexive.trans (grows_reflexive.trans grows₁ grows₂) grows₃
  refine .bind (exp2RK_ends (steady.described (steady.grows describes grows) stable₃)) ?_
  rintro ⟨rk, key⟩ fs₄ grows₄ operand
  have small := fs₄.registers_lt
  have registers := grows₄.registers
  have below := (((own.grows grows₂).grows grows₃).grows grows₄).inside
  have setup : fs₂.freeRegister + 1 < fs₄.maxStackSize.val := by omega
  refine .bind (emitABC_ends operand.stable (by omega) ⟨by omega, operand.operand.lt (by omega)⟩
    ⟨setup, below, operand.operand⟩ rfl rfl) ?_
  rintro _ fs₅ grows₅ ⟨stable₅, -, -⟩
  have described := operand.steady.described (operand.steady.grows operand.describes grows₅) stable₅
  refine .bind (freeexp_ends described.own stable₅) ?_
  intro _ fs₆ grows₆ resized
  have registers' := grows₅.registers.trans grows₆.registers
  exact .pure ⟨⟨stable₅.resize resized, ⟨by omega, .inr lower⟩, rfl⟩, _, rfl, lower⟩

-- a name that can be assigned to
def Target (fs : Func) : ExpDesc → Prop
  | .localRegister r => r < fs.maxStackSize.val
  | .global k => IsName fs.constants k
  | _ => False

theorem Target.grows {target : ExpDesc} (h : Target fs target) (grows : Grows fs fs') : Target fs' target := by
  cases target
  case localRegister r => exact Nat.lt_of_lt_of_le h grows.registers
  case global k => exact IsName.mono h grows.constants
  all_goals exact h.elim

theorem freeexp_described (h : Described low fs e) : Ends (freeexp e) fs fun _ fs' => Described low fs' e := by
  unfold freeexp
  split
  · exact (freeOwn_ends (h.own _ rfl) h.stable).mono fun _ _ _ freed => h.resize trivial freed
  · exact .pure h

theorem storevar_ends {target : ExpDesc} (h : Described low fs e) (assignable : Target fs target) :
    Ends (storevar target e) fs fun _ fs' => Stable low none fs' := by
  cases target
  case localRegister r =>
      refine .bind (freeexp_described h) ?_
      intro _ fs' grows described
      refine (exp2reg_ends described (Nat.lt_of_lt_of_le assignable grows.registers)).mono ?_
      exact fun _ _ _ ended => ended.1
  case global k =>
      refine .bind (exp2anyreg_ends h) ?_
      rintro _ fs₁ grows ⟨r, rfl, stable, own⟩
      have name : IsName fs₁.constants k := IsName.mono assignable grows.constants
      obtain ⟨text, found⟩ := id name
      have inside := (List.getElem?_eq_some_iff.mp found).1
      refine .bind (emitABx_ends stable own.inside inside (by simpa [FineOperands]) rfl rfl) ?_
      rintro _ fs₂ grows ⟨stable, -, -⟩
      refine .bind (freeOwn_ends (own.grows grows) stable) ?_
      intro _ fs₃ _ resized
      exact .pure (stable.resize resized)
  all_goals exact assignable.elim

/-! ## Operators -/

theorem discharge2anyreg_ends (h : Described low fs e) (plain : Plain e) :
    Ends (discharge2anyreg e) fs fun e' fs' => ∃ r, e' = .nonreloc r ∧ Stable low none fs' ∧ Own low fs' r := by
  unfold discharge2anyreg
  split
  · exact .pure ⟨_, rfl, h.stable, h.describes⟩
  · have lower := h.stable.lower
    refine .bind (reserveregs_ends 1 lower) ?_
    rintro _ fs' - ⟨resized, more⟩
    have upper := resized.upper
    have own : Own low fs' (fs'.freeRegister - 1) := ⟨by omega, .inr (by omega)⟩
    refine Ends.get ((discharge2reg_ends (h.resize plain resized) own.inside).mono ?_)
    rintro _ fs'' grows ⟨stable, rfl, -⟩
    exact ⟨_, rfl, stable, own.grows grows⟩

-- the operand is in a register
theorem emitUnary_ends {op : OpCode} {r : Nat} (unary : op = .not ∨ op = .unm ∨ op = .len) (stable : Stable low none fs)
    (register : r < fs.maxStackSize.val) : Ends (do
      let index ← emitABC op 0 r 0
      return ExpDesc.relocable index) fs fun e' fs' => Finished low fs' e' := by
  have two := fs.two_le_registers
  have small := fs.registers_lt
  refine .bind (emitABC_ends stable (by omega) ⟨by omega, by decide⟩ ?_ ?_ ?_) ?_
  · rcases unary with rfl | rfl | rfl <;> exact ⟨register, rfl⟩
  · rcases unary with rfl | rfl | rfl <;> rfl
  · rcases unary with rfl | rfl | rfl <;> rfl
  · rintro _ _ - ⟨stable, rfl, rfl⟩
    refine .pure ⟨stable, ⟨_, List.getElem?_concat_length, ?_⟩, rfl⟩
    rcases unary with rfl | rfl | rfl <;> trivial

theorem codenot_ends (h : Described low fs e) : Ends (codenot e) fs fun e' fs' => Finished low fs' e' := by
  refine .bind (dischargevars_ends h) ?_
  rintro e fs₁ - ⟨described, plain, -⟩
  cases e
  all_goals try exact plain.elim
  case relocable | nonreloc =>
      refine .bind (discharge2anyreg_ends described plain) ?_
      rintro _ fs₂ - ⟨r, rfl, stable, own⟩
      refine .bind (freeOwn_ends own stable) ?_
      intro _ fs₃ grows resized
      exact emitUnary_ends (.inl rfl) (stable.resize resized) (own.grows grows).inside
  all_goals exact .pure ⟨described.stable, trivial, rfl⟩

section Arithmetic

variable (A : F64.Arithmetic)

theorem fold_ends (op : OpCode) (v1 v2 : F64) : Ends (fold A op v1 v2) fs fun _ fs' => fs' = fs := by
  unfold fold
  split
  all_goals first
    | exact .pure rfl
    | exact .throw _

-- only numbers are folded
theorem constfolding_ends (op : OpCode) (e1 : ExpDesc) (e2 : Option ExpDesc) :
    Ends (constfolding A op e1 e2) fs fun folded fs' => fs' = fs ∧
      ((∃ v, e1 = .number v) ∧ (∀ e ∈ e2, ∃ v, e = .number v) ∨ folded = none) := by
  unfold constfolding
  split
  · refine (fold_ends A op _ _).mono fun _ _ _ same => ⟨same, .inl ⟨⟨_, rfl⟩, ?_⟩⟩
    rintro e ⟨⟩
    exact ⟨_, rfl⟩
  · refine (fold_ends A op _ _).mono fun _ _ _ same => ⟨same, .inl ⟨⟨_, rfl⟩, ?_⟩⟩
    rintro e ⟨⟩
  · exact .pure ⟨rfl, .inr rfl⟩

def IsArithmetic (op : OpCode) : Prop :=
  op = .add ∨ op = .sub ∨ op = .mul ∨ op = .div ∨ op = .mod ∨ op = .pow

theorem arithmeticOp_isArithmetic {op : Token} {code : OpCode} (h : arithmeticOp op = some code) :
    IsArithmetic code := by
  unfold arithmeticOp at h
  split at h
  · obtain ⟨c, -, found⟩ := Option.bind_eq_some_iff.mp h
    obtain ⟨before, after, split, -⟩ := List.lookup_eq_some_iff.mp found
    have member : (c, code) ∈ arithmeticOps := by
      rw [split]
      exact List.mem_append_right before List.mem_cons_self
    simp only [arithmeticOps, List.mem_cons, Prod.mk.injEq, List.not_mem_nil, or_false] at member
    unfold IsArithmetic
    tauto
  · cases h

theorem IsArithmetic.operands {op : OpCode} {registers o1 o2 : Nat} {constants : List Constant} (h : IsArithmetic op)
    (first : Operand registers constants o1) (second : Operand registers constants o2) :
    FineOperands registers constants ⟨op, 0, o1, o2⟩ := by
  rcases h with rfl | rfl | rfl | rfl | rfl | rfl <;> exact ⟨first, second⟩

theorem IsArithmetic.closed {op : OpCode} {b c : Nat} (h : IsArithmetic op) : opens ⟨op, 0, b, c⟩ = false ∧
    Function.takesBatch ⟨op, 0, b, c⟩ = false ∧ Relocatable ⟨op, 0, b, c⟩ := by
  rcases h with rfl | rfl | rfl | rfl | rfl | rfl <;> exact ⟨rfl, rfl, trivial⟩

theorem freeBoth_ends {e1 e2 : ExpDesc} (o1 o2 : Nat) (stable : Stable low none fs)
    (own1 : ∀ r, e1 = .nonreloc r → Own low fs r) (own2 : ∀ r, e2 = .nonreloc r → Own low fs r) :
    Ends (freeBoth o1 o2 e1 e2) fs fun _ fs' => Resized low fs fs' := by
  have both {x y : ExpDesc} (ownx : ∀ r, x = .nonreloc r → Own low fs r)
      (owny : ∀ r, y = .nonreloc r → Own low fs r) :
      Ends (do freeexp x; freeexp y) fs fun _ fs' => Resized low fs fs' := by
    refine .bind (freeexp_ends ownx stable) ?_
    intro _ fs₁ grows first
    refine (freeexp_ends (fun r same => (owny r same).grows grows) (stable.resize first)).mono ?_
    exact fun _ _ _ second => first.trans second
  unfold freeBoth
  split
  · exact both own1 own2
  · exact both own2 own1

theorem codearith_ends {op : OpCode} {e1 e2 : ExpDesc} (arithmetic : IsArithmetic op) (steady : Steady e1)
    (describes : Describes low fs e1) (h : Described low fs e2) :
    Ends (codearith A op e1 (some e2)) fs fun e' fs' => Finished low fs' e' := by
  refine .bind (constfolding_ends A op e1 (some e2)) ?_
  rintro folded _ - ⟨rfl, numbers⟩
  cases folded with
  | some r =>
      rcases numbers with ⟨-, numeral⟩ | none
      · obtain ⟨v, rfl⟩ := numeral e2 rfl
        exact .pure ⟨h.stable, trivial, rfl⟩
      · cases none
  | none =>
      refine .bind (exp2RK_ends h) ?_
      rintro ⟨o2, e2'⟩ fs₁ grows₁ second
      refine .bind (exp2RK_ends (steady.described (steady.grows describes grows₁) second.stable)) ?_
      rintro ⟨o1, e1'⟩ fs₂ grows₂ first
      have described1 := first.steady.described first.describes first.stable
      have described2 := second.steady.described (second.steady.grows second.describes grows₂) first.stable
      refine .bind (freeBoth_ends o1 o2 first.stable described1.own described2.own) ?_
      intro _ fs₃ grows₃ resized
      have two := fs₃.two_le_registers
      have small := fs₃.registers_lt
      have operand1 := first.operand.mono grows₃.registers grows₃.constants
      have operand2 := (second.operand.mono grows₂.registers grows₂.constants).mono grows₃.registers grows₃.constants
      obtain ⟨closed, short, moves⟩ := arithmetic.closed
      refine .bind (emitABC_ends (first.stable.resize resized) (by omega)
        ⟨operand1.lt (by omega), operand2.lt (by omega)⟩ (arithmetic.operands operand1 operand2) closed short) ?_
      rintro _ _ - ⟨stable, rfl, rfl⟩
      exact .pure ⟨stable, ⟨_, List.getElem?_concat_length, moves⟩, rfl⟩

-- the operand of a negation or a length is a number or in a register
theorem codearith_unary_ends {op : OpCode} (unary : op = .unm ∨ op = .len) (h : Described low fs e)
    (simple : (∃ v, e = .number v ∧ op = .unm) ∨ ∃ r, e = .nonreloc r) :
    Ends (codearith A op e none) fs fun e' fs' => Finished low fs' e' := by
  rcases simple with ⟨v, rfl, rfl⟩ | ⟨r, rfl⟩
  · exact .pure ⟨h.stable, trivial, rfl⟩
  · show Ends (do
      freeexp (.nonreloc r)
      let index ← emitABC op 0 r 0
      return ExpDesc.relocable index) fs _
    have own : Own low fs r := h.describes
    refine .bind (freeOwn_ends own h.stable) ?_
    intro _ fs' grows resized
    exact emitUnary_ends (.inr unary) (h.stable.resize resized) (own.grows grows).inside

theorem unaryOperator_ends (op : Token) (h : Described low fs e) :
    Ends (unaryOperator A op e) fs fun e' fs' => Finished low fs' e' := by
  unfold unaryOperator
  split
  · exact codenot_ends h
  · split
    · split
      · rename_i numeral
        cases e
        case number v => exact codearith_unary_ends A (.inl rfl) h (.inl ⟨v, rfl, rfl⟩)
        all_goals cases numeral
      · refine .bind (exp2anyreg_ends h) ?_
        rintro _ fs' - ⟨r, rfl, stable, register⟩
        exact codearith_unary_ends A (.inl rfl) ⟨stable, register⟩ (.inr ⟨r, rfl⟩)
    · split
      · refine .bind (exp2anyreg_ends h) ?_
        rintro _ fs' - ⟨r, rfl, stable, register⟩
        exact codearith_unary_ends A (.inr rfl) ⟨stable, register⟩ (.inr ⟨r, rfl⟩)
      · exact .throw _

-- the left operand of a concatenation is in a register
def LeftOperand (low : Nat) (op : Token) (e : ExpDesc) (fs : Func) : Prop :=
  Stable low none fs ∧ Steady e ∧ Describes low fs e ∧ (op.id = .concat → ∃ r, e = .nonreloc r)

theorem arithmeticOp_ne_concat {op : Token} (h : (arithmeticOp op).isSome = true) : op.id ≠ .concat := by
  intro concat
  rw [arithmeticOp, concat] at h
  cases h

theorem leftOperand_ends (op : Token) (h : Described low fs e) :
    Ends (leftOperand op e) fs fun e' fs' => LeftOperand low op e' fs' := by
  have operand : Ends (exp2RK e) fs fun result fs' => Stable low none fs' ∧ Steady result.2 ∧ Describes low fs' result.2 :=
    (exp2RK_ends h).mono fun _ _ _ operand => ⟨operand.stable, operand.steady, operand.describes⟩
  unfold leftOperand
  split
  · exact .throw _
  · split
    · rename_i arithmetic
      have other := arithmeticOp_ne_concat arithmetic
      split
      · rename_i numeral
        cases e
        case number v => exact .pure ⟨h.stable, trivial, trivial, fun concat => absurd concat other⟩
        all_goals cases numeral
      · refine .bind operand ?_
        rintro ⟨_, e⟩ fs' - ⟨stable, steady, describes⟩
        exact .pure ⟨stable, steady, describes, fun concat => absurd concat other⟩
    · split
      · refine .bind (exp2nextreg_ends h) ?_
        rintro _ fs' - ⟨r, rfl, stable, last, above⟩
        have upper := stable.upper
        exact ⟨grows_reflexive.refl fs', rfl, stable, trivial, ⟨by omega, .inr above⟩, fun _ => ⟨r, rfl⟩⟩
      · rename_i other
        refine .bind operand ?_
        rintro ⟨_, e⟩ fs' - ⟨stable, steady, describes⟩
        exact .pure ⟨stable, steady, describes, fun concat => absurd concat other⟩

-- two registers that are both given back are in order
theorem concat_registers {r1 r2 : Nat} (stable : Stable low none fs) (last : r2 + 1 = fs.freeRegister)
    (above : low ≤ r2) (own : Own low fs r1) :
    Ends (freeBoth r1 r2 (.nonreloc r1) (.nonreloc r2)) fs fun _ fs' => Resized low fs fs' ∧ r1 < r2 := by
  have small := fs.registers_lt
  have upper := stable.upper
  have locals := stable.locals
  have inside := own.inside
  have register1 : rkIsConstant r1 = false := rk_register (show r1 < 256 by omega)
  have register2 : rkIsConstant r2 = false := rk_register (show r2 < 256 by omega)
  have own2 : Own low fs r2 := ⟨by omega, .inr above⟩
  unfold freeBoth
  split
  · rename_i less
    refine .bind (freereg_ends own.held stable) ?_
    rintro _ fs₁ - ⟨-, freed⟩
    have freed := freed register1 (by omega)
    omega
  · rename_i less
    refine .bind (freereg_ends own2.held stable) ?_
    rintro _ fs₁ grows ⟨resized, freed⟩
    have freed := freed register2 (by omega)
    have number := resized.number
    refine (freereg_ends (own.grows grows).held (stable.resize resized)).mono ?_
    rintro _ fs₂ - ⟨resized', freed'⟩
    have freed' := freed' register1
    exact ⟨resized.trans resized', by omega⟩

theorem concatOperand_ends (h : Described low fs e) (plain : Plain e) : Ends (concatOperand e) fs fun found fs' =>
    fs' = fs ∧ ∀ index i, found = some (index, i) →
      e = .relocable index ∧ fs.code[index]? = some (.instr i) ∧ i.op = .concat := by
  unfold concatOperand
  split
  · rename_i index
    obtain ⟨i, located, -⟩ := h.describes
    refine getcode_ends located (.pure ⟨rfl, ?_⟩)
    intro index' i' found
    split at found
    · rename_i op
      cases found
      exact ⟨rfl, located, op⟩
    · cases found
  · refine .pure ⟨rfl, ?_⟩
    intro index i found
    cases found

theorem codeconcat_ends {r : Nat} {e2 : ExpDesc} (h : Described low fs e2) (own : Own low fs r) :
    Ends (codeconcat A (.nonreloc r) e2) fs fun e' fs' => Finished low fs' e' := by
  refine .bind (dischargevars_ends h) ?_
  rintro e2 fs₁ grows₁ ⟨described, plain, -⟩
  have own := own.grows grows₁
  refine .bind (concatOperand_ends described plain) ?_
  rintro found fs₁ - ⟨rfl, merges⟩
  cases found with
  | some pair =>
      obtain ⟨index, i⟩ := pair
      obtain ⟨rfl, located, op⟩ := merges index i rfl
      have stable : Stable low none fs₁ := described.stable
      obtain ⟨fits, a, operands⟩ := (stable.coded.instrs index i located (Option.some_ne_none _).symm).1
      simp only [FineOperands, op] at operands
      have unused : consumes i = false := by simp [consumes, op]
      have short : Function.takesBatch i = false := by simp [Function.takesBatch, op]
      dsimp only
      split
      · rename_i consecutive
        refine .bind (freereg_ends own.held stable) ?_
        rintro _ fs₂ grows₂ ⟨resized, -⟩
        rw [← resized.code] at located
        refine .bind (patch_ends (stable.resize resized) (.inl rfl) located id unused short) ?_
        rintro _ _ - ⟨patched, there, rfl⟩
        have registers := grows₂.registers
        have small := fs₂.registers_lt
        have concat : FineOperands fs₂.maxStackSize.val fs₂.constants { i with b := r } := by
          simp only [FineOperands, op]
          omega
        have fine : Fine fs₂.maxStackSize.val fs₂.constants { i with b := r } :=
          ⟨⟨fits.a, by dsimp only; omega, fits.c⟩, a.trans_le registers, concat⟩
        refine .pure ⟨patched.close there fine (by simp [opens, op]) (by simp [Function.takesBatch, op]),
          ⟨_, there, ?_⟩, rfl⟩
        simp [Relocatable, op]
      · exact .throw _
  | none =>
      refine .bind (exp2nextreg_ends described) ?_
      rintro _ fs₂ grows₂ ⟨r2, rfl, stable, last, above⟩
      show Ends (do
        freeBoth r r2 (.nonreloc r) (.nonreloc r2)
        let index ← emitABC .concat 0 r r2
        return ExpDesc.relocable index) fs₂ _
      refine .bind (concat_registers stable last above (own.grows grows₂)) ?_
      rintro _ fs₃ grows₃ ⟨resized, less⟩
      have two := fs₃.two_le_registers
      have small := fs₃.registers_lt
      have upper := stable.upper
      have registers := grows₃.registers
      have below : r2 < fs₃.maxStackSize.val := by omega
      refine .bind (emitABC_ends (stable.resize resized) (by omega) ⟨by omega, by omega⟩ ⟨less, below⟩ rfl rfl) ?_
      rintro _ _ - ⟨stable, rfl, rfl⟩
      exact .pure ⟨stable, ⟨_, List.getElem?_concat_length, trivial⟩, rfl⟩

theorem binaryOperator_ends {op : Token} {e1 e2 : ExpDesc} (fs₀ : Func) (left : LeftOperand low op e1 fs₀)
    (grows : Grows fs₀ fs) (h : Described low fs e2) (straight : (arithmeticOp op).isSome ∨ op.id = .concat) :
    Ends (binaryOperator A op e1 e2) fs fun e' fs' => Finished low fs' e' := by
  obtain ⟨-, steady, describes, concat⟩ := left
  have describes := steady.grows describes grows
  unfold binaryOperator
  split
  · exact .throw _
  · split
    · rename_i isConcat
      obtain ⟨r, rfl⟩ := concat isConcat
      exact codeconcat_ends A h describes
    · rename_i isConcat
      have arithmetic := straight.resolve_right isConcat
      obtain ⟨code, found⟩ := Option.isSome_iff_exists.mp arithmetic
      have single : op.id = .singleChar := by
        unfold arithmeticOp at found
        split at found
        · assumption
        · cases found
      simp only [single, reduceCtorEq, if_false, found]
      exact codearith_ends A (arithmeticOp_isArithmetic found) steady describes h

end Arithmetic

end Func

end Zua.Compile
