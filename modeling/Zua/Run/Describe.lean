import Zua.Run.Simulate

/-!
# Descriptions and their values

What a description stands for in a state of the machine, and that loading it into a register puts this value there.
-/

namespace Zua.Run
open Code Object Compile Vm
open Memory (Constant)

/-! ## What a description stands for -/

def Valid (fs : Func) : ExpDesc → Prop
  | .nil | .true | .false | .number _ | .localRegister _ | .nonreloc _ => True
  | .constantIndex k | .global k => IsName fs.constants k
  | .indexed table key => table < fs.maxStackSize.val ∧ Operand fs.maxStackSize.val fs.constants key
  | .relocable index => index + 1 = fs.code.length ∧ ∃ i, fs.code[index]? = some (.instr i) ∧
      IsLoad fs.constants i ∧ i.op ≠ .loadnil ∧ (i.op = .concat → i.c < fs.maxStackSize.val)
  | _ => False

structure Ready (low : Nat) (fs : Func) (e : ExpDesc) : Prop where
  temps : Temps low fs e
  valid : Valid fs e
  locals : fs.numActiveLocalVars ≤ low

-- the target of the last instruction may still be open, and then it does not belong to the code yet
def fixed (fs : Func) : ExpDesc → List Word
  | .relocable index => fs.code.take index
  | _ => fs.code

section

variable {P : Platform} (frame : Frame) (size : Nat)

def denote (fs : Func) (e : ExpDesc) (s : Machine P) : Except Vm.Stop Value :=
  match e with
  | .nil => .ok .nil
  | .true => .ok (.boolean Bool.true)
  | .false => .ok (.boolean Bool.false)
  | .constantIndex k => Machine.constant P frame.constants k
  | .number n => .ok (.number n)
  | .localRegister r | .nonreloc r => s.slot (frame.base + r)
  | .global k => computed frame (.abx .getglobal 0 k) s
  | .indexed table key => computed frame ⟨.gettable, 0, table, key⟩ s
  | .relocable index =>
      match fs.code[index]? with
      | some (.instr i) => computed frame i s
      | _ => .error .panic
  | _ => .error .panic

end

-- what is emitted between two descriptions does not change the value
def Moves (P : Platform) (frame : Frame) (size low : Nat) (fs : Func) (e : ExpDesc) (fs' : Func) (e' : ExpDesc) : Prop :=
  Simulates (P := P) frame size (fixed fs e) (fixed fs' e') low fs' (denote frame fs e) (denote frame fs' e')

variable {P : Platform} {frame : Frame} {size low mid : Nat} {fs fs' : Func} {e e' : ExpDesc} {i : Instruction}

theorem fixed_pending (fs : Func) (i : Instruction) :
    fixed { fs with code := fs.code ++ [.instr i] } (.relocable fs.code.length) = fs.code :=
  List.take_left

theorem denote_pending (fs : Func) (i : Instruction) :
    denote (P := P) frame { fs with code := fs.code ++ [.instr i] } (.relocable fs.code.length) = computed frame i := by
  funext s
  simp only [denote, List.getElem?_concat_length]

theorem ready_pending (load : IsLoad fs.constants i) (starts : i.op = .concat → i.b = low ∧ i.c < fs.maxStackSize.val)
    (plain : i.op ≠ .loadnil) (free : fs.freeRegister = low) (locals : fs.numActiveLocalVars ≤ low) :
    Ready low { fs with code := fs.code ++ [.instr i] } (.relocable fs.code.length) := by
  refine ⟨⟨free, .last ⟨load.sets, fun concat => (starts concat).1⟩⟩, ⟨?_, i, List.getElem?_concat_length, load, plain, ?_⟩, locals⟩
  · show fs.code.length + 1 = (fs.code ++ [Word.instr i]).length
    rw [List.length_append, List.length_singleton]
  · exact fun concat => (starts concat).2

theorem moves_refl (frame : Frame) (size low : Nat) (fs : Func) (e : ExpDesc) : Moves P frame size low fs e fs e := .refl _

theorem Moves.trans {fs'' : Func} {e'' : ExpDesc} (first : Moves P frame size low fs e fs' e') (wider : Wider fs' fs'')
    (second : Moves P frame size low fs' e' fs'' e'') : Moves P frame size low fs e fs'' e'' :=
  (Simulates.wider first wider).trans second

theorem Temps.le (temps : Temps low fs e) (valid : Valid fs e) : low ≤ fs.freeRegister := by
  cases e with
  | nil | «true» | «false» | constantIndex | number | global => exact temps.ge
  | localRegister => exact temps.2.ge
  | nonreloc => exact Slot.le temps
  | indexed =>
      obtain ⟨mid, slot, key⟩ := temps
      exact (Slot.le slot).trans (Key.le key)
  | relocable => exact temps.1.ge
  | _ => exact valid.elim

-- a register that is in use lies inside the stack
theorem Slot.lt {high r : Nat} (slot : Slot fs low high r) (locals : fs.numActiveLocalVars ≤ low)
    (upper : high ≤ fs.maxStackSize.val) : r < fs.maxStackSize.val := by
  rcases slot with ⟨small, same⟩ | ⟨same, next⟩ <;> omega

theorem fits_bx {op : OpCode} {a k : Nat} (register : a < 256) (small : k ≤ Func.maxBx) : (Instruction.abx op a k).Fits := by
  have limit : Func.maxBx = 2 ^ 18 - 1 := rfl
  refine ⟨register, ?_, ?_⟩
  · show k / 512 < 512
    omega
  · exact Nat.mod_lt _ (by decide)

/-! ## Discharging -/

theorem Emits.roomy {α : Type} {x : FuncM α} {Q : α → Func → Prop} (h : Roomy fs → Emits x fs Q) : Emits x fs Q :=
  fun roomy => h roomy roomy

theorem emitPending_emits (fs : Func) (load : IsLoad fs.constants i) (starts : i.op = .concat → i.b = low ∧ i.c < fs.maxStackSize.val)
    (plain : i.op ≠ .loadnil) (free : fs.freeRegister = low) (locals : fs.numActiveLocalVars ≤ low) :
    Emits (do let index ← Func.emitInstruction i; return ExpDesc.relocable index) fs fun d fs' =>
      Ready low fs' d ∧ isDischarged d = true ∧ fixed fs' d = fs.code ∧
        ∀ {P : Platform} (frame : Frame), denote (P := P) frame fs' d = computed frame i := by
  refine .bind (emitInstruction_emits i) ?_
  rintro index fs' - ⟨rfl, rfl⟩
  refine .pure ⟨ready_pending load starts plain free locals, rfl, fixed_pending fs i, ?_⟩
  intro P frame
  exact denote_pending fs i

variable (P frame size) in
theorem dischargevars_emits (ready : Ready low fs e) : Emits (Func.dischargevars e) fs fun d fs' =>
    Ready low fs' d ∧ isDischarged d = true ∧ Moves P frame size low fs e fs' d := by
  obtain ⟨temps, valid, locals⟩ := ready
  cases e with
  | localRegister r => exact .pure ⟨⟨.inl ⟨temps.1, temps.2⟩, trivial, locals⟩, rfl, .refl _⟩
  | global k =>
      refine Emits.roomy fun roomy => ?_
      obtain ⟨name, found⟩ := valid
      have small : k ≤ Func.maxBx := by
        have := (List.getElem?_eq_some_iff.mp found).1
        have := roomy.constants
        omega
      have load : IsLoad fs.constants (.abx .getglobal 0 k) := by
        refine ⟨fits_bx (by decide) small, name, ?_⟩
        rw [Instruction.bx_abx]
        exact found
      refine (emitPending_emits fs load (fun h => OpCode.noConfusion h) (fun h => OpCode.noConfusion h) temps locals).mono ?_
      rintro d fs' - ⟨ready, discharged, code, value⟩
      refine ⟨ready, discharged, ?_⟩
      rw [Moves, code, value]
      exact .refl _
  | indexed table key =>
      obtain ⟨mid, slot, keySlot⟩ := temps
      obtain ⟨register, operand⟩ := valid
      refine .bind (freereg_emits (locals.trans (Slot.le slot)) keySlot) ?_
      rintro _ fs₁ - rfl
      refine .bind (freereg_emits locals (.inr slot)) ?_
      rintro _ fs₂ - rfl
      have limit := fs.maxStackSize.lt
      have small : Code.maxStackSize = 250 := rfl
      have load : IsLoad fs.constants ⟨.gettable, 0, table, key⟩ := by
        refine ⟨⟨Nat.succ_pos 255, ?_, ?_⟩, trivial⟩
        · show table < 512
          omega
        · exact operand.lt (by omega)
      refine (emitPending_emits { fs with freeRegister := low } load (fun h => OpCode.noConfusion h)
        (fun h => OpCode.noConfusion h) rfl locals).mono ?_
      rintro d fs' - ⟨ready, discharged, code, value⟩
      refine ⟨ready, discharged, ?_⟩
      rw [Moves, code, value]
      exact .refl _
  | void | upvalueIndex | jmp | call | vararg => exact valid.elim
  | _ => exact .pure ⟨⟨temps, valid, locals⟩, rfl, .refl _⟩

/-! ## Loading a register -/

theorem Performs.single {code : List Word} {put : Machine P → Except Vm.Stop (Machine P)}
    (load : Extends frame size fs → IsLoad frame.constants i) (same : Extends frame size fs →
      ∀ s, frame.base + size ≤ s.stack.length → (do
        let v ← computed frame i s
        s.setSlot (frame.base + i.a) v) = put s) :
    Performs frame size code (code ++ [.instr i]) low fs put := by
  refine ⟨[i], rfl, fun extended => ⟨?_, fun s starts => ?_⟩⟩
  · intro j member
    obtain rfl := List.mem_singleton.mp member
    exact load extended
  · rw [← same extended s starts.room]
    simp only [runs]
    cases computed frame i s with
    | error e => rfl
    | ok v =>
        simp only [ok_bind]
        cases s.setSlot (frame.base + i.a) v <;> rfl

theorem Performs.idle {code : List Word} {put : Machine P → Except Vm.Stop (Machine P)}
    (same : Extends frame size fs → ∀ s, Starts frame size code low s → put s = .ok s) :
    Performs frame size code code low fs put := by
  refine ⟨[], (List.append_nil code).symm, fun extended => ⟨fun _ member => absurd member List.not_mem_nil, ?_⟩⟩
  intro s starts
  exact (same extended s starts).symm

-- a register that has the value already is not changed
theorem setSlot_same {s : Machine P} {k : Nat} {v : Value} (here : s.slot k = .ok v) : s.setSlot k v = .ok s := by
  unfold Machine.slot at here
  cases found : s.stack[k]? with
  | none =>
      rw [found] at here
      cases here
  | some w =>
      rw [found] at here
      cases here
      obtain ⟨inside, same⟩ := List.getElem?_eq_some_iff.mp found
      rw [setSlot_inside inside, ← same, List.set_getElem_self]

theorem slot_inside {s : Machine P} {k : Nat} (inside : k < s.stack.length) : ∃ v, s.slot k = .ok v := by
  unfold Machine.slot
  rw [List.getElem?_eq_getElem inside]
  exact ⟨_, rfl⟩

-- what is emitted to load a value into `reg`
def Fills (P : Platform) (frame : Frame) (size start : Nat) (fs : Func) (e : ExpDesc) (reg : Nat) (fs' : Func) : Prop :=
  Performs (P := P) frame size (fixed fs e) fs'.code start fs' fun s => do
    let v ← denote frame fs e s
    s.setSlot (frame.base + reg) v

variable (P frame size) in
theorem discharge2reg_emits {reg : Nat} (start : Nat) (valid : Valid fs e) (discharged : isDischarged e = true)
    (source : ∀ r, e = .nonreloc r → r < fs.maxStackSize.val) (inside : reg < fs.maxStackSize.val)
    (fresh : start ≤ reg ∨ reg < fs.numActiveLocalVars) :
    Emits (Func.discharge2reg e reg) fs fun d fs' => d = .nonreloc reg ∧ fs'.freeRegister = fs.freeRegister ∧
      Fills P frame size start fs e reg fs' := by
  have small : reg < 256 := inside.trans (fs.maxStackSize.lt.trans (by decide))
  unfold Func.discharge2reg
  rw [Func.dischargevars_discharged discharged, pure_bind]
  have emit {i : Instruction} (load : IsLoad fs.constants i) (target : i.a = reg) (code : fixed fs e = fs.code)
      (value : Extends frame size fs → ∀ s : Machine P, computed frame i s = denote frame fs e s) :
      Emits (do let _ ← Func.emitInstruction i; return ExpDesc.nonreloc reg) fs fun d fs' =>
        d = .nonreloc reg ∧ fs'.freeRegister = fs.freeRegister ∧ Fills P frame size start fs e reg fs' := by
    refine .bind (emitInstruction_emits i) ?_
    rintro index fs' - ⟨-, rfl⟩
    refine .pure ⟨rfl, rfl, ?_⟩
    rw [Fills, code]
    refine .single (fun extended => load.mono extended.constants) fun extended s _ => ?_
    rw [value ⟨extended.constants, extended.registers⟩, target]
  have flag {b : Nat} (bit : b < 512) : IsLoad fs.constants ⟨.loadbool, reg, b, 0⟩ := ⟨⟨small, bit, Nat.succ_pos 511⟩, rfl⟩
  cases e with
  | nil =>
      refine .bind (Q := fun _ fs' => fs'.freeRegister = fs.freeRegister ∧ Fills P frame size start fs .nil reg fs') ?_ ?_
      · refine Emits.get fun _ => ?_
        rw [if_neg Nat.one_ne_zero]
        split
        · rename_i first
          refine .pure ⟨rfl, .idle fun extended s starts => ?_⟩
          have above : start ≤ reg := fresh.resolve_right (Nat.not_lt.mpr first.2)
          have none : fs.code = [] := List.eq_nil_of_length_eq_zero first.1
          exact setSlot_same (starts.fresh none reg above (inside.trans_le extended.registers))
        · have load : IsLoad fs.constants ⟨.loadnil, reg, reg + 1 - 1, 0⟩ :=
            ⟨⟨small, by show reg + 1 - 1 < 512; omega, Nat.succ_pos 511⟩, rfl⟩
          exact (emit load rfl rfl fun _ _ => rfl).mono fun _ _ _ h => h.2
      · rintro _ fs' - ⟨free, fills⟩
        exact .pure ⟨rfl, free, fills⟩
  | «true» => exact emit (flag (by decide)) rfl rfl fun _ _ => rfl
  | «false» => exact emit (flag (by decide)) rfl rfl fun _ _ => rfl
  | constantIndex k =>
      refine Emits.roomy fun roomy => ?_
      obtain ⟨name, found⟩ := valid
      have bound : k ≤ Func.maxBx := by
        have := (List.getElem?_eq_some_iff.mp found).1
        have := roomy.constants
        omega
      refine emit ⟨fits_bx small bound, trivial⟩ rfl rfl fun _ s => ?_
      simp only [computed, denote, Instruction.abx_op, Instruction.bx_abx]
  | number n =>
      refine .bind (putConstant_emits (.number n)) ?_
      rintro k fs₁ wider ⟨same, found, le⟩
      refine Emits.roomy fun roomy => ?_
      have bound : k ≤ Func.maxBx := by
        have := (List.getElem?_eq_some_iff.mp found).1
        have := roomy.constants
        omega
      refine .bind (emitInstruction_emits (.abx .loadk reg k)) ?_
      rintro index fs₂ - ⟨-, rfl⟩
      refine .pure ⟨rfl, by rw [same], ?_⟩
      have code : fixed fs (.number n) = fs₁.code := by rw [same]; rfl
      rw [Fills, code]
      refine .single (fun extended => ⟨fits_bx small bound, trivial⟩) fun extended s _ => ?_
      have constant : frame.constants[k]? = some (.number n) := getElem?_of_initial found extended.constants
      simp only [computed, denote, Instruction.abx_op, Instruction.bx_abx, Instruction.abx_a, Machine.constant, constant,
        Machine.constantToValue]
  | relocable index =>
      obtain ⟨last, i, found, load, plain, -⟩ := valid
      refine .bind (getcode_emits found) ?_
      rintro _ fs' - ⟨rfl, rfl⟩
      rename_i i
      rw [if_pos load.sets]
      refine .bind (patch_emits found _) ?_
      rintro _ fs₁ - rfl
      refine .pure ⟨rfl, rfl, ?_⟩
      have code : fs'.code.set index (.instr { i with a := reg }) = fs'.code.take index ++ [.instr { i with a := reg }] := by
        rw [List.set_eq_take_append_cons_drop, if_pos (by omega), List.drop_eq_nil_of_le last.ge]
      show Performs frame size (fs'.code.take index) (fs'.code.set index _) start _ _
      rw [code]
      refine .single (fun extended => (load.mono extended.constants).moved plain small) fun extended s _ => ?_
      simp only [denote, found]
      rfl
  | nonreloc r =>
      dsimp only
      split
      · rename_i same
        refine .pure ⟨rfl, rfl, .idle fun extended s starts => ?_⟩
        obtain ⟨v, here⟩ := slot_inside (s := s) (k := frame.base + r) (by
          have := starts.room
          have := extended.registers
          omega)
        simp only [denote, here, ok_bind]
        rw [same]
        exact setSlot_same here
      · have bound : r < 256 := (source r rfl).trans (fs.maxStackSize.lt.trans (by decide))
        exact emit ⟨⟨small, bound.trans (by decide), Nat.succ_pos 511⟩, trivial⟩ rfl rfl fun _ _ => rfl
  | void | jmp => exact valid.elim
  | localRegister | upvalueIndex | global | indexed | call | vararg => cases discharged

variable (P frame size) in
theorem exp2reg_emits {reg : Nat} (start : Nat) (valid : Valid fs e) (discharged : isDischarged e = true)
    (source : ∀ r, e = .nonreloc r → r < fs.maxStackSize.val) (inside : reg < fs.maxStackSize.val)
    (fresh : start ≤ reg ∨ reg < fs.numActiveLocalVars) :
    Emits (Func.exp2reg e reg) fs fun d fs' => d = .nonreloc reg ∧ fs'.freeRegister = fs.freeRegister ∧
      Fills P frame size start fs e reg fs' := by
  refine .bind (discharge2reg_emits P frame size start valid discharged source inside fresh) ?_
  rintro d fs' - ⟨rfl, loaded⟩
  exact .pure ⟨rfl, loaded⟩

theorem Valid.grow (valid : Valid fs e) (code : fs'.code = fs.code) (wider : Wider fs fs') : Valid fs' e := by
  cases e with
  | constantIndex | global => exact IsName.mono valid wider.constants
  | indexed table key => exact ⟨valid.1.trans_le wider.registers, valid.2.mono wider.registers wider.constants⟩
  | relocable index =>
      obtain ⟨last, i, found, load, plain, bound⟩ := valid
      refine ⟨by rw [code]; exact last, i, by rw [code]; exact found, load.mono wider.constants, plain, ?_⟩
      exact fun concat => (bound concat).trans_le wider.registers
  | nil | «true» | «false» | number | localRegister | nonreloc => trivial
  | _ => exact valid.elim

theorem fixed_frame (code : fs'.code = fs.code) (e : ExpDesc) : fixed fs' e = fixed fs e := by
  cases e <;> simp only [fixed, code]

theorem denote_frame (code : fs'.code = fs.code) (e : ExpDesc) : denote (P := P) frame fs' e = denote frame fs e := by
  funext s
  cases e <;> simp only [denote, code]

theorem freeexp_emits (ready : Ready low fs e) (discharged : isDischarged e = true) :
    Emits (Func.freeexp e) fs fun _ fs' => fs' = { fs with freeRegister := low } := by
  have plain : Func.isJump e = false := by
    cases e with
    | jmp => exact ready.valid.elim
    | _ => rfl
  refine (frees_emits (Func.freeexp_works ready.locals ready.temps discharged) (freeexp_frees e)).mono ?_
  rintro _ fs' - ⟨same, -, free⟩
  rw [same, free plain]

theorem ready_nonreloc {r : Nat} (slot : Slot fs low fs.freeRegister r) (locals : fs.numActiveLocalVars ≤ low) :
    Ready low fs (.nonreloc r) := ⟨slot, trivial, locals⟩

variable (P frame size) in
theorem exp2nextreg_emits (ready : Ready low fs e) : Emits (Func.exp2nextreg e) fs fun result fs' =>
    result = (low, .nonreloc low) ∧ fs'.freeRegister = low + 1 ∧ Moves P frame size low fs e fs' (.nonreloc low) := by
  refine .bind (dischargevars_emits P frame size ready) ?_
  rintro d fs₁ wider₁ ⟨ready₁, discharged, moves⟩
  refine .bind (freeexp_emits ready₁ discharged) ?_
  rintro _ fs₂ - rfl
  refine .bind (reserveregs_emits 1) ?_
  rintro _ fs₃ wider₃ ⟨same, room⟩
  refine Emits.get fun _ => ?_
  have free₃ : fs₃.freeRegister = low + 1 := by rw [same]
  have code₃ : fs₃.code = fs₁.code := by rw [same]
  have wider₃' : Wider fs₁ fs₃ := wider₃.freed
  have inside : low < fs₃.maxStackSize.val := room
  have source : ∀ r, d = .nonreloc r → r < fs₃.maxStackSize.val := by
    rintro r rfl
    have := ready₁.locals
    rcases ready₁.temps with ⟨small, -⟩ | ⟨rfl, -⟩ <;> omega
  rw [free₃, Nat.add_sub_cancel]
  refine .bind (exp2reg_emits P frame size low (ready₁.valid.grow code₃ wider₃') discharged source inside
    (.inl le_rfl)) ?_
  rintro _ fs₄ wider₄ ⟨rfl, free, fills⟩
  refine .pure ⟨rfl, free.trans free₃, ?_⟩
  have loaded := Performs.simulates le_rfl
    (fun extended => inside.trans_le (wider₄.registers.trans extended.registers)) fills
  rw [fixed_frame code₃, denote_frame code₃] at loaded
  exact (Simulates.wider moves (wider₃'.trans wider₄)).trans loaded

variable (P frame size) in
theorem exp2anyreg_emits (ready : Ready low fs e) : Emits (Func.exp2anyreg e) fs fun result fs' =>
    result.2 = .nonreloc result.1 ∧ Slot fs' low fs'.freeRegister result.1 ∧
      Moves P frame size low fs e fs' (.nonreloc result.1) := by
  refine .bind (dischargevars_emits P frame size ready) ?_
  rintro d fs₁ wider₁ ⟨ready₁, -, moves⟩
  cases d with
  | nonreloc r => exact .pure ⟨rfl, ready₁.temps, moves⟩
  | _ =>
      refine (exp2nextreg_emits P frame size ready₁).mono ?_
      rintro _ fs₂ wider₂ ⟨rfl, free, loaded⟩
      exact ⟨rfl, .inr ⟨rfl, free⟩, moves.trans wider₂ loaded⟩

end Zua.Run
