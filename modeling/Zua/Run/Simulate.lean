import Zua.Compile.Checked
import Zua.Compile.Registers
import Zua.Vm.Loads

/-!
# Code that computes

A description says how the value of an expression is reached once the code in front of it has run. What is emitted
for it is code that the machine goes through from one instruction to the next.
-/

namespace Zua.Run
open Code Object Compile Vm
open Memory (Constant)

/-! ## What may stop compiling -/

def Full (e : Compile.Stop) : Prop := e = .registerLimit ∨ e = .constantLimit

structure Roomy (fs : Func) : Prop where
  registers : fs.freeRegister ≤ fs.maxStackSize.val
  constants : fs.constants.length ≤ Func.maxBx + 1

structure Wider (fs fs' : Func) : Prop where
  registers : fs.maxStackSize.val ≤ fs'.maxStackSize.val
  constants : fs.constants <+: fs'.constants
  scope : SameScope fs fs'

namespace Wider

variable {fs fs' fs'' : Func}

theorem refl (fs : Func) : Wider fs fs := ⟨le_rfl, List.prefix_rfl, sameScope_reflexive.refl fs⟩

theorem trans (h : Wider fs fs') (h' : Wider fs' fs'') : Wider fs fs'' :=
  ⟨h.registers.trans h'.registers, h.constants.trans h'.constants, sameScope_reflexive.trans h.scope h'.scope⟩

theorem freed {n : Nat} (h : Wider { fs with freeRegister := n } fs') : Wider fs fs' :=
  ⟨h.registers, h.constants, h.scope.number, h.scope.active, h.scope.locals⟩

theorem number (h : Wider fs fs') : fs'.numActiveLocalVars = fs.numActiveLocalVars := h.scope.number

end Wider

-- apart from the two limits `x` returns, and neither the locals nor the current expression have changed
def Emits {α : Type} (x : FuncM α) (fs : Func) (Q : α → Func → Prop) : Prop :=
  Roomy fs → Sat Full x fs fun a fs' => Roomy fs' ∧ Wider fs fs' ∧ fs'.curExp = fs.curExp ∧ Q a fs'

namespace Emits

variable {α β : Type} {fs : Func} {Q : α → Func → Prop}

theorem pure {a : α} (h : Q a fs) : Emits (Pure.pure a) fs Q := fun roomy => ⟨roomy, .refl fs, rfl, h⟩

theorem bind {x : FuncM α} {f : α → FuncM β} {R : β → Func → Prop} (first : Emits x fs Q)
    (rest : ∀ a fs', Wider fs fs' → Q a fs' → Emits (f a) fs' R) : Emits (x >>= f) fs R := by
  intro roomy
  refine Sat.bind (Sat.mono (first roomy) ?_)
  rintro a fs' ⟨roomy, wider, same, h⟩
  refine Sat.mono (rest a fs' wider h roomy) ?_
  rintro b fs'' ⟨roomy, wider', same', h'⟩
  exact ⟨roomy, wider.trans wider', same'.trans same, h'⟩

theorem mono {x : FuncM α} {R : α → Func → Prop} (h : Emits x fs Q) (weaker : ∀ a fs', Wider fs fs' → Q a fs' → R a fs') :
    Emits x fs R := by
  intro roomy
  refine Sat.mono (h roomy) ?_
  rintro a fs' ⟨roomy, wider, same, holds⟩
  exact ⟨roomy, wider, same, weaker a fs' wider holds⟩

-- what returns and changes nothing
theorem of_run {x : FuncM α} {a : α} (run : x fs = .ok (a, fs)) : Emits x fs fun b fs' => b = a ∧ fs' = fs := by
  intro roomy
  unfold Sat
  rw [run]
  exact ⟨roomy, .refl fs, rfl, rfl, rfl⟩

theorem get {f : Func → FuncM α} (h : Roomy fs → Emits (f fs) fs Q) : Emits (MonadState.get >>= f) fs Q :=
  fun roomy => h roomy roomy

end Emits

/-! ## Emitting and registers -/

variable {fs : Func} {low high mid : Nat} {e : ExpDesc}

theorem reserveregs_emits (n : Nat) : Emits (Func.reserveregs n) fs fun _ fs' =>
    fs' = { fs with freeRegister := fs.freeRegister + n, maxStackSize := fs'.maxStackSize } ∧
      fs.freeRegister + n ≤ fs'.maxStackSize.val := by
  intro roomy
  have checked : Sat Full (Func.checkstack n) fs fun _ fs' => fs.freeRegister + n ≤ fs'.maxStackSize.val ∧
      fs.maxStackSize.val ≤ fs'.maxStackSize.val ∧ fs' = { fs with maxStackSize := fs'.maxStackSize } := by
    refine Sat.bind (Sat.get ?_)
    dsimp only
    split
    · exact Sat.throw (.inl rfl)
    split
    · rename_i fits
      exact Sat.pure ⟨fits, le_rfl, rfl⟩
    split
    · exact Sat.throw (.inl rfl)
    · rename_i larger _
      exact Sat.set ⟨le_rfl, (Nat.lt_of_not_le larger).le, rfl⟩
  refine Sat.bind (checked.mono ?_)
  rintro _ fs' ⟨room, grows, same⟩
  refine Sat.modify ?_
  rw [same]
  exact ⟨⟨room, roomy.constants⟩, ⟨grows, List.prefix_rfl, rfl, rfl, rfl⟩, rfl, rfl, room⟩

-- what only gives back registers
theorem frees_emits {α : Type} {x : FuncM α} {Q : α → Func → Prop} (works : Works x fs Q)
    (frees : Sat (fun e => e = .assertion ∨ e = .overflow) x fs fun _ fs' =>
      fs' = { fs with freeRegister := fs'.freeRegister }) :
    Emits x fs fun a fs' => fs' = { fs with freeRegister := fs'.freeRegister } ∧ Q a fs' := by
  intro roomy
  have works := works roomy.registers
  unfold Sat at works frees ⊢
  cases run : x fs with
  | error e =>
      rw [run] at works frees
      obtain ⟨checked, counted⟩ := works
      rcases frees with rfl | rfl
      · exact (checked rfl).elim
      · exact (counted rfl).elim
  | ok result =>
      rw [run] at works frees
      obtain ⟨registers, -, -, holds⟩ := works
      dsimp only at frees registers holds ⊢
      refine ⟨⟨registers, ?_⟩, ?_, ?_, frees, holds⟩
      · rw [frees]
        exact roomy.constants
      · rw [frees]
        exact ⟨le_rfl, List.prefix_rfl, rfl, rfl, rfl⟩
      · rw [frees]

theorem freereg_frees (reg : Nat) : Sat (fun e => e = .assertion ∨ e = .overflow) (Func.freereg reg) fs fun _ fs' =>
    fs' = { fs with freeRegister := fs'.freeRegister } := by
  refine Sat.bind (Sat.get ?_)
  split
  · split
    · exact Sat.throw (.inr rfl)
    split
    · exact Sat.throw (.inl rfl)
    · exact Sat.set rfl
  · exact Sat.pure rfl

theorem freeexp_frees (e : ExpDesc) : Sat (fun e => e = .assertion ∨ e = .overflow) (Func.freeexp e) fs fun _ fs' =>
    fs' = { fs with freeRegister := fs'.freeRegister } := by
  cases e with
  | nonreloc r => exact freereg_frees r
  | _ => exact Sat.pure rfl

theorem freeTwo_frees (first second : ExpDesc) : Sat (fun e => e = .assertion ∨ e = .overflow)
    (do Func.freeexp first; Func.freeexp second) fs fun _ fs' => fs' = { fs with freeRegister := fs'.freeRegister } := by
  refine Sat.bind ((freeexp_frees first).mono ?_)
  intro _ fs₁ same
  refine (freeexp_frees second).mono ?_
  intro _ fs₂ same'
  rw [same', same]

theorem freeBoth_emits {o1 o2 : Nat} {e1 e2 : ExpDesc} (locals : fs.numActiveLocalVars ≤ low)
    (held : AsRK fs low mid o1 e1 ∧ AsRK fs mid fs.freeRegister o2 e2 ∨
      AsRK fs low mid o2 e2 ∧ AsRK fs mid fs.freeRegister o1 e1) :
    Emits (Func.freeBoth o1 o2 e1 e2) fs fun _ fs' => fs' = { fs with freeRegister := low } := by
  refine (frees_emits (Func.freeBoth_works locals held) ?_).mono ?_
  · unfold Func.freeBoth
    split
    · exact freeTwo_frees e1 e2
    · exact freeTwo_frees e2 e1
  · rintro _ fs' - ⟨same, free⟩
    rw [same, free]

theorem freereg_emits {r : Nat} (locals : fs.numActiveLocalVars ≤ low) (key : Key fs low fs.freeRegister r) :
    Emits (Func.freereg r) fs fun _ fs' => fs' = { fs with freeRegister := low } := by
  refine (frees_emits (Func.freereg_works locals key) (freereg_frees r)).mono ?_
  rintro _ fs' - ⟨-, rfl⟩
  rfl

theorem emitInstruction_emits (i : Instruction) : Emits (Func.emitInstruction i) fs fun index fs' =>
    index = fs.code.length ∧ fs' = { fs with code := fs.code ++ [.instr i] } :=
  fun roomy => ⟨⟨roomy.registers, roomy.constants⟩, ⟨le_rfl, List.prefix_rfl, rfl, rfl, rfl⟩, rfl, rfl, rfl⟩

theorem getcode_emits {index : Nat} {i : Instruction} (located : fs.code[index]? = some (.instr i)) :
    Emits (Func.getcode index) fs fun j fs' => j = i ∧ fs' = fs := by
  refine Emits.get fun _ => ?_
  rw [located]
  exact .pure ⟨rfl, rfl⟩

theorem patch_emits {index : Nat} {i : Instruction} (located : fs.code[index]? = some (.instr i))
    (f : Instruction → Instruction) : Emits (Func.patch index f) fs fun _ fs' =>
      fs' = { fs with code := fs.code.set index (.instr (f i)) } := by
  refine .bind (getcode_emits located) ?_
  rintro j fs' - ⟨rfl, rfl⟩
  exact fun roomy => ⟨⟨roomy.registers, roomy.constants⟩, ⟨le_rfl, List.prefix_rfl, rfl, rfl, rfl⟩, rfl, rfl⟩

theorem putConstant_emits (constant : Constant) : Emits (Func.putConstant constant) fs fun k fs' =>
    fs' = { fs with constants := fs'.constants } ∧ fs'.constants[k]? = some constant ∧ k ≤ fs.constants.length := by
  refine Emits.get fun roomy => ?_
  split
  · rename_i index found
    obtain ⟨inside, same⟩ := List.findIdx?_eq_some_iff_getElem.mp found
    refine .pure ⟨rfl, ?_, inside.le⟩
    rw [List.getElem?_eq_getElem inside, ← Func.sameKey_eq same.1]
  split
  · exact fun _ => .inr rfl
  · rename_i room
    intro _
    refine ⟨⟨roomy.registers, ?_⟩, ⟨le_rfl, List.prefix_append _ _, rfl, rfl, rfl⟩, rfl, rfl, ?_, le_rfl⟩
    · rw [List.length_append]
      exact Nat.succ_le_succ (Nat.le_of_not_lt room)
    · exact List.getElem?_concat_length

/-! ## Code that has been emitted -/

section

variable {P : Platform} (frame : Frame) (size : Nat)

-- what is known of the frame in the end
structure Extends (fs : Func) : Prop where
  constants : fs.constants <+: frame.constants
  registers : fs.maxStackSize.val ≤ size

-- in front of the first instruction the registers above the locals are nil
structure Starts (code : List Word) (low : Nat) (s : Machine P) : Prop where
  room : frame.base + size ≤ s.stack.length
  fresh : code = [] → ∀ r, low ≤ r → r < size → s.slot (frame.base + r) = .ok .nil

-- the words after `code` run as `f` says
def Performs (code words : List Word) (low : Nat) (fs : Func) (f : Machine P → Except Vm.Stop (Machine P)) : Prop :=
  ∃ is, words = code ++ is.map .instr ∧ (Extends frame size fs → (∀ i ∈ is, IsLoad frame.constants i) ∧
    ∀ s, Starts frame size code low s → runs frame is s = f s)

-- the words after `code` lead to a state in which `g` is what `f` was before
def Simulates {β : Type} (code words : List Word) (low : Nat) (fs : Func) (f g : Machine P → Except Vm.Stop β) : Prop :=
  ∃ is, words = code ++ is.map .instr ∧ (Extends frame size fs → (∀ i ∈ is, IsLoad frame.constants i) ∧
    ∀ s, Starts frame size code low s → f s = (do
      let s ← runs frame is s
      g s) ∧ ∀ s', runs frame is s = .ok s' → Above frame size low s s')

end

section

variable {P : Platform} {frame : Frame} {size : Nat} {β γ : Type} {code words more : List Word} {fs fs' : Func}
  {f g h : Machine P → Except Vm.Stop β} {s s' : Machine P} {low low' mid : Nat}

theorem Extends.narrow (extends' : Extends frame size fs') (wider : Wider fs fs') : Extends frame size fs :=
  ⟨wider.constants.trans extends'.constants, wider.registers.trans extends'.registers⟩

theorem Starts.mono (starts : Starts frame size code low s) (le : low ≤ low') : Starts frame size code low' s :=
  ⟨starts.room, fun none r above => starts.fresh none r (le.trans above)⟩

-- what is behind the words that have run
theorem Starts.reached {is : List Instruction} (starts : Starts frame size code low s) (is_words : words = code ++ is.map .instr)
    (reached : runs frame is s = .ok s') (above : Above frame size low s s') : Starts frame size words low s' := by
  refine ⟨above.length ▸ starts.room, ?_⟩
  intro none
  rw [is_words] at none
  obtain ⟨rfl, nothing⟩ := List.append_eq_nil_iff.mp none
  obtain rfl := List.map_eq_nil_iff.mp nothing
  cases reached
  exact starts.fresh rfl

namespace Simulates

theorem refl (f : Machine P → Except Vm.Stop β) : Simulates frame size code code low fs f f := by
  refine ⟨[], (List.append_nil code).symm, fun _ => ⟨fun _ member => absurd member List.not_mem_nil, fun s _ => ⟨rfl, ?_⟩⟩⟩
  rintro _ ⟨⟩
  exact .refl s

theorem wider (sim : Simulates frame size code words low fs f g) (wider : Wider fs fs') :
    Simulates frame size code words low fs' f g := by
  obtain ⟨is, same, holds⟩ := sim
  exact ⟨is, same, fun extended => holds (extended.narrow wider)⟩

theorem mono (sim : Simulates frame size code words mid fs f g) (le : low ≤ mid) :
    Simulates frame size code words low fs f g := by
  obtain ⟨is, same, holds⟩ := sim
  refine ⟨is, same, fun extended => ⟨(holds extended).1, fun s starts => ?_⟩⟩
  obtain ⟨equal, above⟩ := (holds extended).2 s (starts.mono le)
  exact ⟨equal, fun s' run => (above s' run).mono le⟩

theorem trans (first : Simulates frame size code words low fs f g) (second : Simulates frame size words more low fs g h) :
    Simulates frame size code more low fs f h := by
  obtain ⟨is, rfl, holds⟩ := first
  obtain ⟨js, rfl, holds'⟩ := second
  refine ⟨is ++ js, by rw [List.map_append, List.append_assoc], fun extended => ⟨?_, fun s starts => ?_⟩⟩
  · intro i member
    rcases List.mem_append.mp member with member | member
    · exact (holds extended).1 i member
    · exact (holds' extended).1 i member
  · obtain ⟨equal, above⟩ := (holds extended).2 s starts
    rw [runs_append]
    cases run : runs frame is s with
    | error e =>
        rw [run] at equal
        exact ⟨equal, fun s' wrong => by cases wrong⟩
    | ok t =>
        obtain ⟨equal', above'⟩ := (holds' extended).2 t (starts.reached rfl run (above t run))
        rw [run] at equal
        simp only [ok_bind] at equal ⊢
        exact ⟨equal.trans equal', fun s' run' => (above t run).trans (above' s' run')⟩

-- the value may be reached differently
theorem congr (sim : Simulates frame size code words low fs f g)
    (same : Extends frame size fs → ∀ s, Starts frame size words low s → g s = h s) :
    Simulates frame size code words low fs f h := by
  refine sim.trans ⟨[], (List.append_nil words).symm, fun extended => ⟨fun _ member => absurd member List.not_mem_nil, fun s starts => ?_⟩⟩
  refine ⟨same extended s starts, ?_⟩
  rintro _ ⟨⟩
  exact .refl s

-- what is done with the value does not depend on the registers that change
theorem bind (sim : Simulates frame size code words low fs f g) (k : β → Machine P → Except Vm.Stop γ)
    (steady : ∀ v s s', Above frame size low s s' → k v s' = k v s) :
    Simulates frame size code words low fs (fun s => do let v ← f s; k v s) (fun s => do let v ← g s; k v s) := by
  obtain ⟨is, same, holds⟩ := sim
  refine ⟨is, same, fun extended => ⟨(holds extended).1, fun s starts => ?_⟩⟩
  obtain ⟨equal, above⟩ := (holds extended).2 s starts
  refine ⟨?_, above⟩
  dsimp only
  rw [equal]
  cases run : runs frame is s with
  | error e => rfl
  | ok t =>
      simp only [ok_bind]
      exact bind_congr fun v => (steady v s t (above t run)).symm

-- a value that is there already stays, while the code for another one runs
theorem beside {w : Machine P → Except Vm.Stop γ} {δ : Type} (sim : Simulates frame size code words low fs f g)
    (there : Extends frame size fs → ∀ s, frame.base + size ≤ s.stack.length → ∃ a, w s = .ok a)
    (steady : ∀ s s', Above frame size low s s' → w s' = w s) (k : γ → β → Machine P → Except Vm.Stop δ)
    (still : ∀ a b s s', Above frame size low s s' → k a b s' = k a b s) :
    Simulates frame size code words low fs (fun s => do let a ← w s; let b ← f s; k a b s)
      (fun s => do let a ← w s; let b ← g s; k a b s) := by
  obtain ⟨is, same, holds⟩ := sim
  refine ⟨is, same, fun extended => ⟨(holds extended).1, fun s starts => ?_⟩⟩
  obtain ⟨equal, above⟩ := (holds extended).2 s starts
  refine ⟨?_, above⟩
  obtain ⟨a, here⟩ := there extended s starts.room
  dsimp only
  rw [here, equal]
  cases run : runs frame is s with
  | error e => rfl
  | ok t =>
      simp only [ok_bind]
      rw [steady s t (above t run), here, ok_bind]
      exact bind_congr fun b => (still a b s t (above t run)).symm

end Simulates

namespace Performs

variable {put : Machine P → Except Vm.Stop (Machine P)}

-- the value is in the register that was set
theorem simulates {r : Nat} {value : Machine P → Except Vm.Stop Value} (le : low ≤ r) (lt : Extends frame size fs → r < size)
    (performs : Performs frame size code words low fs fun s => do
      let v ← value s
      s.setSlot (frame.base + r) v) :
    Simulates frame size code words low fs value (fun s => s.slot (frame.base + r)) := by
  obtain ⟨is, same, holds⟩ := performs
  refine ⟨is, same, fun extended => ⟨(holds extended).1, fun s starts => ?_⟩⟩
  have inside : frame.base + r < s.stack.length := by
    have := lt extended
    have := starts.room
    omega
  have run := (holds extended).2 s starts
  dsimp only at run ⊢
  rw [run]
  cases value s with
  | error e => exact ⟨rfl, fun s' wrong => by cases wrong⟩
  | ok v =>
      simp only [ok_bind, setSlot_inside inside, slot_set inside, true_and]
      rintro _ ⟨⟩
      exact above_set le (lt extended) v

end Performs

end

end Zua.Run
