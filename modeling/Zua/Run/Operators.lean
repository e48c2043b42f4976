import Zua.Compile.Emitted
import Zua.Run.Describe
import Zua.Run.Evaluate

/-!
# Operands and operators

An operand that waits for the other one keeps its value, and the instruction of an operator computes it from both.
-/

namespace Zua.Run
open Code Object Compile Vm
open Memory (Constant)
open Zua.Lex (Token ch)

variable {P : Platform} {frame : Frame} {size low mid : Nat} {fs fs' : Func} {e e' : ExpDesc} {i : Instruction}

/-! ## Operands -/

-- a register or a constant, from which a description can be read again
structure Fetched (P : Platform) (frame : Frame) (size low : Nat) (fs : Func) (rk : Nat) (e : ExpDesc) : Prop where
  asRK : AsRK fs low fs.freeRegister rk e
  operand : Operand fs.maxStackSize.val fs.constants rk
  valid : Valid fs e
  agrees : Extends frame size fs → ∀ s : Machine P, denote frame fs e s = s.getValueRK frame.base frame.constants rk

theorem fetched_register {r : Nat} (slot : Slot fs low fs.freeRegister r) (locals : fs.numActiveLocalVars ≤ low)
    (upper : fs.freeRegister ≤ fs.maxStackSize.val) : Fetched P frame size low fs r (.nonreloc r) := by
  have inside := Slot.lt slot locals upper
  refine ⟨.inr ⟨rfl, slot⟩, .inl inside, trivial, fun _ s => ?_⟩
  rw [Machine.getValueRK, Func.not_constant fs inside, if_neg Bool.false_ne_true]
  rfl

theorem fetched_constant {k : Nat} {constant : Constant} (plain : isConstant e = true) (valid : Valid fs e)
    (free : fs.freeRegister = low) (small : k ≤ rkMaxConstantIndex) (found : fs.constants[k]? = some constant)
    (value : Extends frame size fs → ∀ s : Machine P, denote frame fs e s = .ok (Machine.constantToValue P constant)) :
    Fetched P frame size low fs (constantIndexToRK k) e := by
  have isConstant := rk_constant small
  refine ⟨.inl ⟨plain, isConstant.1, free⟩, .inr ⟨k, small, (List.getElem?_eq_some_iff.mp found).1, rfl⟩, valid, ?_⟩
  intro extended s
  have known : frame.constants[k]? = some constant := getElem?_of_initial found extended.constants
  rw [value extended s, Machine.getValueRK, if_pos isConstant.1, isConstant.2, Machine.constant, known]

theorem denote_literal {constant : Constant} (literal : Func.literal? e = some constant) (fs : Func) (s : Machine P) :
    denote frame fs e s = .ok (Machine.constantToValue P constant) := by
  cases e with
  | nil | «true» | «false» | number =>
      cases literal
      rfl
  | _ => cases literal

theorem literal_valid {constant : Constant} (literal : Func.literal? e = some constant) (fs : Func) : Valid fs e := by
  cases e with
  | nil | «true» | «false» | number => trivial
  | _ => cases literal

variable (P frame size) in
theorem exp2RK_emits (ready : Ready low fs e) : Emits (Func.exp2RK e) fs fun result fs' =>
    Fetched P frame size low fs' result.1 result.2 ∧ Moves P frame size low fs e fs' result.2 := by
  refine .bind (dischargevars_emits P frame size ready) ?_
  rintro d fs₁ wider₁ ⟨ready₁, -, moves⟩
  have any : Emits (Func.exp2anyreg d) fs₁ fun result fs' =>
      Fetched P frame size low fs' result.1 result.2 ∧ Moves P frame size low fs e fs' result.2 := by
    intro roomy
    refine (exp2anyreg_emits P frame size ready₁ roomy).mono ?_
    rintro ⟨r, d'⟩ fs₂ ⟨roomy₂, wider₂, same, is, slot, loaded⟩
    obtain rfl : d' = .nonreloc r := is
    have locals : fs₂.numActiveLocalVars ≤ low := by rw [wider₂.number]; exact ready₁.locals
    exact ⟨roomy₂, wider₂, same, fetched_register slot locals roomy₂.registers, moves.trans wider₂ loaded⟩
  refine Emits.get fun _ => ?_
  split
  · rename_i constant literal
    split
    · rename_i room
      refine .bind (putConstant_emits constant) ?_
      rintro k fs₂ wider₂ ⟨same, found, le⟩
      have code : fs₂.code = fs₁.code := by rw [same]
      have free : fs₂.freeRegister = low := by
        rw [same]
        exact ready₁.temps.literal literal
      refine .pure ⟨fetched_constant (Func.isConstant_literal literal) (literal_valid literal fs₂) free (le.trans room) found
        fun _ s => denote_literal literal fs₂ s, ?_⟩
      have kept := Simulates.wider moves wider₂
      rw [Moves, fixed_frame code, denote_frame code]
      exact kept
    · exact any
  · rename_i k _
    split
    · rename_i small
      obtain ⟨name, found⟩ := ready₁.valid
      refine .pure ⟨fetched_constant rfl ready₁.valid ready₁.temps small found fun extended s => ?_, moves⟩
      rw [denote, Machine.constant, getElem?_of_initial found extended.constants]
    · exact any
  · exact any

-- what is read from an operand does not change with the registers above it
theorem Fetched.steady {rk : Nat} {s s' : Machine P} (fetched : Fetched P frame size low fs rk e)
    (locals : fs.numActiveLocalVars ≤ low) (above : Above frame size fs.freeRegister s s') :
    s'.getValueRK frame.base frame.constants rk = s.getValueRK frame.base frame.constants rk := by
  unfold Machine.getValueRK
  split
  · rfl
  · rename_i register
    refine above.slot ?_
    rcases fetched.asRK with ⟨-, constant, -⟩ | ⟨-, ⟨small, same⟩ | ⟨same, next⟩⟩
    · exact (register constant).elim
    · omega
    · omega

/-! ## An operand that waits -/

theorem Waits.fixed (waits : Func.Waits fs low mid e) : fixed fs e = fs.code := by
  rcases waits with ⟨constant, -⟩ | ⟨r, rfl, -⟩
  · cases e with
    | relocable => cases constant
    | _ => rfl
  · rfl

theorem Waits.grow (waits : Func.Waits fs low mid e) (valid : Valid fs e) (wider : Wider fs fs') : Valid fs' e := by
  rcases waits with ⟨constant, -⟩ | ⟨r, rfl, -⟩
  · cases e with
    | constantIndex k => exact IsName.mono valid wider.constants
    | nil | «true» | «false» | number => trivial
    | _ => cases constant
  · trivial

theorem Waits.denoted (waits : Func.Waits fs low mid e) (fs₁ fs₂ : Func) :
    denote (P := P) frame fs₁ e = denote frame fs₂ e := by
  funext s
  rcases waits with ⟨constant, -⟩ | ⟨r, rfl, -⟩
  · cases e with
    | nil | «true» | «false» | number | constantIndex => rfl
    | _ => cases constant
  · rfl

-- it can be read at any time
theorem Waits.there (waits : Func.Waits fs low mid e) (valid : Valid fs e) (locals : fs.numActiveLocalVars ≤ low)
    (upper : mid ≤ fs.maxStackSize.val) (extended : Extends frame size fs) (s : Machine P)
    (room : frame.base + size ≤ s.stack.length) : ∃ v, denote frame fs e s = .ok v := by
  rcases waits with ⟨constant, -⟩ | ⟨r, rfl, slot⟩
  · cases e with
    | nil | «true» | «false» | number => exact ⟨_, rfl⟩
    | constantIndex k =>
        obtain ⟨name, found⟩ := valid
        rw [denote, Machine.constant, getElem?_of_initial found extended.constants]
        exact ⟨_, rfl⟩
    | _ => cases constant
  · have := Slot.lt slot locals upper
    have := extended.registers
    exact slot_inside (by omega)

theorem Waits.steady {s s' : Machine P} (waits : Func.Waits fs low mid e) (locals : fs.numActiveLocalVars ≤ low)
    (above : Above frame size mid s s') : denote frame fs e s' = denote frame fs e s := by
  rcases waits with ⟨constant, -⟩ | ⟨r, rfl, slot⟩
  · cases e with
    | nil | «true» | «false» | number | constantIndex => rfl
    | _ => cases constant
  · refine above.slot ?_
    rcases slot with ⟨small, same⟩ | ⟨same, next⟩ <;> omega


/-! ## Accesses -/

theorem operand_there {rk : Nat} (operand : Operand fs.maxStackSize.val fs.constants rk) (extended : Extends frame size fs)
    (s : Machine P) (room : frame.base + size ≤ s.stack.length) :
    ∃ v, s.getValueRK frame.base frame.constants rk = .ok v := by
  unfold Machine.getValueRK
  rcases operand with inside | ⟨k, small, inside, rfl⟩
  · rw [Func.not_constant fs inside, if_neg Bool.false_ne_true]
    have := extended.registers
    exact slot_inside (by omega)
  · have known := inside.trans_le extended.constants.length_le
    rw [(rk_constant small).1, if_pos rfl, (rk_constant small).2, Machine.constant, List.getElem?_eq_getElem known]
    exact ⟨_, rfl⟩

theorem index_steady {s s' : Machine P} (above : Above frame size low s s') (t key : Value) :
    index s' t key = index s t key := by
  unfold index
  simp only [above.tableGet]

variable (P frame size) in
theorem indexed_emits {t : Nat} (slot : Slot fs low mid t) (ready : Ready mid fs e) (locals : fs.numActiveLocalVars ≤ low) :
    Emits (Func.indexed (.nonreloc t) e) fs fun d fs' => Ready low fs' d ∧
      Simulates (P := P) frame size (fixed fs e) (fixed fs' d) low fs' (fun s => do
        let a ← s.slot (frame.base + t)
        let b ← denote frame fs e s
        index s a b) (denote frame fs' d) := by
  refine Emits.roomy fun roomy => ?_
  have upper : mid ≤ fs.maxStackSize.val := (Temps.le ready.temps ready.valid).trans roomy.registers
  have inside := Slot.lt slot locals upper
  have below : t < mid := by rcases slot with ⟨small, same⟩ | ⟨same, next⟩ <;> omega
  refine .bind (exp2RK_emits P frame size ready) ?_
  rintro ⟨rk, e'⟩ fs₁ wider₁ ⟨fetched, moves⟩
  have slot₁ : Slot fs₁ low mid t := by
    unfold Slot
    rw [wider₁.number]
    exact slot
  refine .pure ⟨⟨⟨mid, slot₁, ?_⟩, ⟨inside.trans_le wider₁.registers, fetched.operand⟩, by rw [wider₁.number]; exact locals⟩, ?_⟩
  · rcases fetched.asRK with ⟨-, constant, free⟩ | ⟨-, slot⟩
    · exact .inl ⟨constant, free⟩
    · exact .inr slot
  · have read := Simulates.beside moves (w := fun s => s.slot (frame.base + t)) (fun extended s room => ?_)
      (fun s s' above => above.slot below) (fun a b s => index s a b) fun a b s s' above => index_steady above a b
    · rw [Waits.fixed (Func.AsRK.waits fetched.asRK)] at read
      refine (read.mono (Slot.le slot)).congr fun extended s starts => ?_
      obtain ⟨key, here⟩ := operand_there fetched.operand extended s starts.room
      rw [fetched.agrees extended s]
      simp only [denote, computed, index, here, ok_bind]
    · have := extended.registers
      have := wider₁.registers
      exact slot_inside (by omega)

/-! ## Arithmetic -/

-- two number literals have the value that the instruction would compute
theorem constfolding_run (P : Platform) {op : OpCode} (arithmetic : Func.IsArithmetic op) (e1 e2 : ExpDesc) (fs : Func) :
    Func.constfolding P.toArithmetic op e1 (some e2) fs = .ok (none, fs) ∨ ∃ v1 v2, e1 = .number v1 ∧ e2 = .number v2 ∧
      Func.constfolding P.toArithmetic op e1 (some e2) fs = .ok (some (operator P op v1 v2), fs) := by
  have folds (v1 v2 : F64) : Func.fold P.toArithmetic op v1 v2 fs = .ok (none, fs) ∨
      Func.fold P.toArithmetic op v1 v2 fs = .ok (some (operator P op v1 v2), fs) := by
    rcases arithmetic with rfl | rfl | rfl | rfl | rfl | rfl
    · exact .inr rfl
    · exact .inr rfl
    · exact .inr rfl
    · unfold Func.fold
      cases v2.eq ⟨0⟩ with
      | true => exact .inl rfl
      | false => exact .inr rfl
    · unfold Func.fold
      cases v2.eq ⟨0⟩ with
      | true => exact .inl rfl
      | false => exact .inr rfl
    · exact .inr rfl
  cases e1 with
  | number v1 =>
      cases e2 with
      | number v2 => exact (folds v1 v2).imp_right fun value => ⟨v1, v2, rfl, rfl, value⟩
      | _ => exact .inl rfl
  | _ => exact .inl rfl

theorem Operand.small {rk : Nat} (operand : Operand fs.maxStackSize.val fs.constants rk) : rk < 512 := by
  have limit := fs.maxStackSize.lt
  have : Code.maxStackSize = 250 := rfl
  exact operand.lt (by omega)

abbrev operandOf (P : Platform) (frame : Frame) (rk : Nat) (s : Machine P) : Except Vm.Stop Value :=
  s.getValueRK frame.base frame.constants rk

theorem operandOf_register (fs : Func) {r : Nat} (inside : r < fs.maxStackSize.val) (s : Machine P) :
    operandOf P frame r s = s.slot (frame.base + r) := by
  rw [operandOf, Machine.getValueRK, Func.not_constant fs inside, if_neg Bool.false_ne_true]

theorem exp2RK_nonreloc_emits (r : Nat) : Emits (Func.exp2RK (.nonreloc r)) fs fun result fs' =>
    result = (r, .nonreloc r) ∧ fs' = fs := fun roomy => ⟨roomy, .refl fs, rfl, rfl, rfl⟩

variable {δ : Type}

-- the operand that waited is fetched when the other one has been fetched already
theorem waiting_emits {o2 : Nat} {e1 e2 : ExpDesc} (k : Value → Value → Except Vm.Stop δ) (waits : Func.Waits fs low mid e1)
    (valid : Valid fs e1) (locals : fs.numActiveLocalVars ≤ low) (second : Fetched P frame size mid fs o2 e2) :
    Emits (Func.exp2RK e1) fs fun result fs' =>
      (∃ between, AsRK fs' low between result.1 result.2 ∧ AsRK fs' between fs'.freeRegister o2 e2 ∨
        AsRK fs' low between o2 e2 ∧ AsRK fs' between fs'.freeRegister result.1 result.2) ∧
      Operand fs'.maxStackSize.val fs'.constants result.1 ∧ (∀ r, e1 = .nonreloc r → result.1 = r) ∧
      Simulates frame size fs.code fs'.code low fs' (fun s => do
        let a ← denote frame fs e1 s
        let b ← operandOf P frame o2 s
        k a b) (fun s => do
        let a ← operandOf P frame result.1 s
        let b ← operandOf P frame o2 s
        k a b) := by
  have above : mid ≤ fs.freeRegister := by rcases Func.AsRK.cases second.asRK with same | ⟨-, same⟩ <;> omega
  have le := Func.Waits.le waits
  have code := Waits.fixed waits
  rcases waits with ⟨constant, rfl⟩ | ⟨r, rfl, slot⟩
  · have ready : Ready fs.freeRegister fs e1 := ⟨Func.isConstant_temps constant, valid, locals.trans above⟩
    refine (exp2RK_emits P frame size ready).mono ?_
    rintro ⟨o1, e⟩ fs' wider ⟨first, moves⟩
    refine ⟨⟨fs.freeRegister, .inr ⟨Func.AsRK.frame wider.number second.asRK, first.asRK⟩⟩, first.operand, ?_, ?_⟩
    · rintro r rfl
      cases constant
    · have read := Simulates.congr moves fun extended s _ => first.agrees extended s
      rw [code, Waits.fixed (Func.AsRK.waits first.asRK)] at read
      refine (read.bind (fun a s => do
        let b ← operandOf P frame o2 s
        k a b) fun a s s' same => ?_).mono above
      rw [operandOf, second.steady (locals.trans le) same]
  · refine Emits.roomy fun roomy => ?_
    have inside := Slot.lt slot locals (above.trans roomy.registers)
    refine (exp2RK_nonreloc_emits r).mono ?_
    rintro _ fs' - ⟨rfl, rfl⟩
    refine ⟨⟨mid, .inl ⟨.inr ⟨rfl, slot⟩, second.asRK⟩⟩, .inl inside, ?_, ?_⟩
    · rintro _ ⟨⟩
      rfl
    · refine (Simulates.refl _).congr fun _ s _ => ?_
      rw [operandOf_register fs' inside]
      rfl

variable (P frame size) in
theorem exp2RK_fetches (ready : Ready low fs e) : Emits (Func.exp2RK e) fs fun result fs' =>
    Fetched P frame size low fs' result.1 result.2 ∧ Moves P frame size low fs e fs' result.2 ∧
      ∀ r, e = .nonreloc r → result.1 = r := by
  have fetched (other : ∀ r, e ≠ .nonreloc r) : Emits (Func.exp2RK e) fs fun result fs' =>
      Fetched P frame size low fs' result.1 result.2 ∧ Moves P frame size low fs e fs' result.2 ∧
        ∀ r, e = .nonreloc r → result.1 = r :=
    (exp2RK_emits P frame size ready).mono fun _ _ _ h => ⟨h.1, h.2, fun r is => (other r is).elim⟩
  cases e with
  | nonreloc r =>
      refine Emits.roomy fun roomy => ?_
      refine (exp2RK_nonreloc_emits r).mono ?_
      rintro _ fs' - ⟨rfl, rfl⟩
      refine ⟨fetched_register ready.temps ready.locals roomy.registers, moves_refl _ _ _ _ _, ?_⟩
      rintro _ ⟨⟩
      rfl
  | _ => exact fetched fun _ => ExpDesc.noConfusion

variable (P frame size) in
-- the operands are given back, and the instruction computes what `k` does with their values
theorem codearith_operands {op : OpCode} {e1 e2 : ExpDesc} (k : Value → Value → Except Vm.Stop Value)
    (waits : Func.Waits fs low mid e1) (valid : Valid fs e1) (ready : Ready mid fs e2)
    (locals : fs.numActiveLocalVars ≤ low)
    (unfolded : Func.constfolding P.toArithmetic op e1 (some e2) fs = .ok (none, fs)) (plain : op ≠ .loadnil)
    (chained : op = .concat → e1 = .nonreloc low ∧ ∃ r, e2 = .nonreloc r ∧ low ≤ r ∧ r < fs.maxStackSize.val)
    (load : ∀ (constants : List Constant) o1 o2, o1 < 512 → o2 < 512 → (op = .concat → o1 ≤ o2 ∧ o2 < 256) →
      IsLoad constants ⟨op, 0, o1, o2⟩)
    (value : Extends frame size fs → ∀ o1 o2 (s : Machine P), frame.base + size ≤ s.stack.length →
      (∀ r, e1 = .nonreloc r → o1 = r) → (∀ r, e2 = .nonreloc r → o2 = r) → (do
        let a ← operandOf P frame o1 s
        let b ← operandOf P frame o2 s
        k a b) = computed frame ⟨op, 0, o1, o2⟩ s) :
    Emits (Func.codearith P.toArithmetic op e1 (some e2)) fs fun d fs' => Ready low fs' d ∧
      Simulates (P := P) frame size (fixed fs e2) (fixed fs' d) low fs' (fun s => do
        let a ← denote frame fs e1 s
        let b ← denote frame fs e2 s
        k a b) (denote frame fs' d) := by
  refine Emits.roomy fun roomy => ?_
  refine .bind (.of_run unfolded) ?_
  rintro _ fs' - ⟨rfl, rfl⟩
  have le := Func.Waits.le waits
  have upper : mid ≤ fs'.maxStackSize.val := (Temps.le ready.temps ready.valid).trans roomy.registers
  refine .bind (exp2RK_fetches P frame size ready) ?_
  rintro ⟨o2, e2'⟩ fs₁ wider₁ ⟨second, moves, register2⟩
  have locals₁ : fs₁.numActiveLocalVars ≤ low := by rw [wider₁.number]; exact locals
  have code₁ := Waits.fixed (Func.AsRK.waits second.asRK)
  have valid₁ := Waits.grow waits valid wider₁
  have same₁ : denote (P := P) frame fs₁ e1 = denote frame fs' e1 := Waits.denoted waits fs₁ fs'
  refine .bind (waiting_emits k (Func.Waits.frame wider₁.number waits) valid₁ locals₁ second) ?_
  rintro ⟨o1, e1'⟩ fs₂ wider₂ ⟨⟨between, held⟩, operand1, register1, fetch⟩
  have locals₂ : fs₂.numActiveLocalVars ≤ low := by rw [wider₂.number]; exact locals₁
  have operand2 := second.operand.mono wider₂.registers wider₂.constants
  refine .bind (freeBoth_emits locals₂ held) ?_
  rintro _ fs₃ - rfl
  have starts : op = .concat → o1 = low ∧ low ≤ o2 ∧ o2 < fs₂.maxStackSize.val := by
    intro concat
    obtain ⟨is1, r, is2, above, inside⟩ := chained concat
    obtain rfl := register1 low is1
    obtain rfl := register2 r is2
    exact ⟨rfl, above, inside.trans_le (wider₁.registers.trans wider₂.registers)⟩
  have loads : IsLoad fs₂.constants ⟨op, 0, o1, o2⟩ := by
    refine load _ _ _ (Operand.small operand1) (Operand.small operand2) fun concat => ?_
    obtain ⟨rfl, above, inside⟩ := starts concat
    exact ⟨above, inside.trans (fs₂.maxStackSize.lt.trans (by decide))⟩
  refine (emitPending_emits { fs₂ with freeRegister := low } loads (fun concat => ?_) plain rfl locals₂).mono ?_
  · obtain ⟨is, -, inside⟩ := starts concat
    exact ⟨is, inside⟩
  rintro d fs₄ wider₄ ⟨ready₄, -, code₄, value₄⟩
  refine ⟨ready₄, ?_⟩
  have right : Simulates frame size (fixed fs' e2) fs₁.code low fs₁ (fun s => do
        let a ← denote frame fs' e1 s
        let b ← denote frame fs' e2 s
        k a b) (fun s => do
        let a ← denote frame fs₁ e1 s
        let b ← operandOf P frame o2 s
        k a b) := by
    have read := Simulates.congr moves fun extended s _ => second.agrees extended s
    rw [code₁] at read
    rw [same₁]
    refine (read.beside (w := denote frame fs' e1) (fun extended s room => ?_) (fun s s' above => ?_) (fun a b _ => k a b)
      fun _ _ _ _ _ => rfl).mono le
    · exact Waits.there waits valid locals upper (extended.narrow wider₁) s room
    · exact Waits.steady waits locals above
  rw [code₄, value₄]
  refine ((right.wider (wider₂.trans wider₄.freed)).trans (fetch.wider wider₄.freed)).congr fun extended s starts => ?_
  exact value (extended.narrow (wider₁.trans (wider₂.trans wider₄.freed))) o1 o2 s starts.room register1 register2

variable (P frame size) in
theorem codearith_emits {op : OpCode} {e1 e2 : ExpDesc} (arithmetic : Func.IsArithmetic op)
    (waits : Func.Waits fs low mid e1) (valid : Valid fs e1) (ready : Ready mid fs e2)
    (locals : fs.numActiveLocalVars ≤ low) :
    Emits (Func.codearith P.toArithmetic op e1 (some e2)) fs fun d fs' => Ready low fs' d ∧
      Simulates (P := P) frame size (fixed fs e2) (fixed fs' d) low fs' (fun s => do
        let a ← denote frame fs e1 s
        let b ← denote frame fs e2 s
        arith (operator P op) a b) (denote frame fs' d) := by
  rcases constfolding_run P arithmetic e1 e2 fs with unfolded | ⟨v1, v2, rfl, rfl, folded⟩
  · refine codearith_operands P frame size _ waits valid ready locals unfolded ?_ ?_ ?_ ?_
    · rintro rfl
      rcases arithmetic with h | h | h | h | h | h <;> cases h
    · rintro rfl
      rcases arithmetic with h | h | h | h | h | h <;> cases h
    · intro constants o1 o2 small1 small2 _
      refine ⟨⟨Nat.succ_pos 255, small1, small2⟩, ?_⟩
      rcases arithmetic with rfl | rfl | rfl | rfl | rfl | rfl <;> trivial
    · intro _ o1 o2 s _ _ _
      rcases arithmetic with rfl | rfl | rfl | rfl | rfl | rfl <;> rfl
  · refine .bind (.of_run folded) ?_
    rintro _ fs' - ⟨rfl, rfl⟩
    have same : mid = low := by
      rcases waits with ⟨-, same⟩ | ⟨r, is, -⟩
      · exact same
      · cases is
    exact .pure ⟨⟨ready.temps.trans same, trivial, locals⟩, .refl _⟩

variable (P frame size) in
theorem codearith_unary_emits {op : OpCode} {r : Nat} (unary : op = .unm ∨ op = .len)
    (slot : Slot fs low fs.freeRegister r) (locals : fs.numActiveLocalVars ≤ low) :
    Emits (Func.codearith P.toArithmetic op (.nonreloc r) none) fs fun d fs' => Ready low fs' d ∧
      Simulates frame size fs.code (fixed fs' d) low fs' (computed (P := P) frame ⟨op, 0, r, 0⟩) (denote frame fs' d) := by
  refine Emits.roomy fun roomy => ?_
  have inside := Slot.lt slot locals roomy.registers
  have limit := fs.maxStackSize.lt
  have small : Code.maxStackSize = 250 := rfl
  have load : IsLoad fs.constants ⟨op, 0, r, 0⟩ := by
    refine ⟨⟨Nat.succ_pos 255, ?_, Nat.succ_pos 511⟩, ?_⟩
    · show r < 512
      omega
    · rcases unary with rfl | rfl <;> trivial
  refine .bind (.of_run (a := none) rfl) ?_
  rintro _ fs₁ - ⟨rfl, rfl⟩
  refine .bind (exp2RK_nonreloc_emits r) ?_
  rintro _ fs₂ - ⟨rfl, rfl⟩
  refine .bind (freereg_emits locals (.inr slot)) ?_
  rintro _ fs₃ - rfl
  refine (emitPending_emits { fs₂ with freeRegister := low } load ?_ ?_ rfl locals).mono ?_
  · rcases unary with rfl | rfl <;> exact fun h => OpCode.noConfusion h
  · rcases unary with rfl | rfl <;> exact fun h => OpCode.noConfusion h
  · rintro d fs₄ - ⟨ready, -, code, value⟩
    refine ⟨ready, ?_⟩
    rw [code, value]
    exact .refl _

/-! ## Negation -/

-- `NOT` of a register that is given back
variable (P frame size) in
theorem emitNot_emits {r : Nat} (slot : Slot fs low fs.freeRegister r) (locals : fs.numActiveLocalVars ≤ low) :
    Emits (do Func.freeexp (.nonreloc r); let index ← Func.emitABC .not 0 r 0; return .relocable index) fs fun d fs' =>
      Ready low fs' d ∧ Simulates (P := P) frame size fs.code (fixed fs' d) low fs' (fun s => do
        let v ← s.slot (frame.base + r)
        return negated v) (denote frame fs' d) := by
  refine Emits.roomy fun roomy => ?_
  have inside := Slot.lt slot locals roomy.registers
  have limit := fs.maxStackSize.lt
  have small : Code.maxStackSize = 250 := rfl
  have load : IsLoad fs.constants ⟨.not, 0, r, 0⟩ := by
    refine ⟨⟨Nat.succ_pos 255, ?_, Nat.succ_pos 511⟩, trivial⟩
    show r < 512
    omega
  refine .bind (freereg_emits locals (.inr slot)) ?_
  rintro _ fs₁ - rfl
  refine (emitPending_emits { fs with freeRegister := low } load (fun h => OpCode.noConfusion h)
    (fun h => OpCode.noConfusion h) rfl locals).mono ?_
  rintro d fs₂ - ⟨ready, -, code, value⟩
  refine ⟨ready, ?_⟩
  rw [code, value]
  exact .refl _

variable (P frame size) in
theorem discharge2anyreg_emits {index : Nat} (ready : Ready low fs (.relocable index)) :
    Emits (Func.discharge2anyreg (.relocable index)) fs fun d fs' => d = .nonreloc low ∧ fs'.freeRegister = low + 1 ∧
      Moves P frame size low fs (.relocable index) fs' (.nonreloc low) := by
  refine .bind (reserveregs_emits 1) ?_
  rintro _ fs₁ wider₁ ⟨same, room⟩
  refine Emits.get fun _ => ?_
  have free : fs₁.freeRegister = low + 1 := by
    rw [same]
    exact congrArg (· + 1) ready.temps.1
  have code : fs₁.code = fs.code := by rw [same]
  have inside : low < fs₁.maxStackSize.val := by
    have := ready.temps.1
    omega
  rw [free, Nat.add_sub_cancel]
  refine (discharge2reg_emits P frame size low (ready.valid.grow code wider₁) rfl (fun r is => by cases is) inside
    (.inl le_rfl)).mono ?_
  rintro d fs₂ wider₂ ⟨rfl, free₂, fills⟩
  refine ⟨rfl, free₂.trans free, ?_⟩
  have loaded := Performs.simulates le_rfl
    (fun extended => inside.trans_le (wider₂.registers.trans extended.registers)) fills
  rw [fixed_frame code, denote_frame code] at loaded
  exact loaded

variable (P frame size) in
theorem codenot_emits (ready : Ready low fs e) : Emits (Func.codenot e) fs fun d fs' => Ready low fs' d ∧
    Simulates (P := P) frame size (fixed fs e) (fixed fs' d) low fs' (fun s => do
      let v ← denote frame fs e s
      return negated v) (denote frame fs' d) := by
  refine .bind (dischargevars_emits P frame size ready) ?_
  rintro d fs₁ wider₁ ⟨ready₁, discharged, moves⟩
  have negate := Simulates.bind moves (fun v _ => pure (negated v)) fun _ _ _ _ => rfl
  have known {b : ExpDesc} {v : Value} (temps : Temps low fs₁ b) (valid : Valid fs₁ b)
      (code : fixed fs₁ b = fixed fs₁ d)
      (was : Extends frame size fs₁ → ∀ s : Machine P, denote frame fs₁ d s = .ok v)
      (is : ∀ s : Machine P, denote frame fs₁ b s = .ok (negated v)) :
      Emits (pure b) fs₁ fun d fs' => Ready low fs' d ∧
        Simulates (P := P) frame size (fixed fs e) (fixed fs' d) low fs' (fun s => do
          let v ← denote frame fs e s
          return negated v) (denote frame fs' d) := by
    refine .pure ⟨⟨temps, valid, ready₁.locals⟩, ?_⟩
    rw [code]
    refine negate.congr fun extended s _ => ?_
    rw [was extended s, is s]
    rfl
  have inverted {fs₂ : Func} {r : Nat} (wider₂ : Wider fs₁ fs₂) (slot : Slot fs₂ low fs₂.freeRegister r)
      (loaded : Moves P frame size low fs₁ d fs₂ (.nonreloc r)) :
      Emits (do Func.freeexp (.nonreloc r); let index ← Func.emitABC .not 0 r 0; return .relocable index) fs₂ fun d fs' =>
        Ready low fs' d ∧ Simulates (P := P) frame size (fixed fs e) (fixed fs' d) low fs' (fun s => do
          let v ← denote frame fs e s
          return negated v) (denote frame fs' d) := by
    have locals : fs₂.numActiveLocalVars ≤ low := by rw [wider₂.number]; exact ready₁.locals
    refine (emitNot_emits P frame size slot locals).mono ?_
    rintro d' fs₃ wider₃ ⟨ready₃, value⟩
    have all := Simulates.bind (moves.trans wider₂ loaded) (fun v _ => pure (negated v)) fun _ _ _ _ => rfl
    exact ⟨ready₃, (Simulates.wider all wider₃).trans value⟩
  cases d with
  | nil => exact known ready₁.temps trivial rfl (fun _ _ => rfl) fun _ => rfl
  | «false» => exact known ready₁.temps trivial rfl (fun _ _ => rfl) fun _ => rfl
  | «true» => exact known ready₁.temps trivial rfl (fun _ _ => rfl) fun _ => rfl
  | number n => exact known ready₁.temps trivial rfl (fun _ _ => rfl) fun _ => rfl
  | constantIndex k =>
      obtain ⟨name, found⟩ := ready₁.valid
      refine known (v := .string (P.intern name)) ready₁.temps trivial rfl (fun extended s => ?_) fun _ => rfl
      rw [denote, Machine.constant, getElem?_of_initial found extended.constants]
      rfl
  | nonreloc r => exact inverted (.refl fs₁) ready₁.temps (moves_refl _ _ _ _ _)
  | relocable index =>
      refine .bind (discharge2anyreg_emits P frame size ready₁) ?_
      rintro _ fs₂ wider₂ ⟨rfl, free, loaded⟩
      exact inverted wider₂ (.inr ⟨rfl, free⟩) loaded
  | void | jmp => exact ready₁.valid.elim
  | localRegister | upvalueIndex | global | indexed | call | vararg => cases discharged

/-! ## The operators of the source -/

theorem unaryOperator_emits {op : Token} (known : isUnary op = true) (ready : Ready low fs e) :
    Emits (Func.unaryOperator P.toArithmetic op e) fs fun d fs' => Ready low fs' d ∧
      Simulates (P := P) frame size (fixed fs e) (fixed fs' d) low fs' (fun s => do
        let v ← denote frame fs e s
        unary P op s v) (denote frame fs' d) := by
  have loaded {code : OpCode} (is : code = .unm ∨ code = .len)
      (same : ∀ (r : Nat) (s : Machine P), computed frame ⟨code, 0, r, 0⟩ s = (do
        let v ← s.slot (frame.base + r)
        unary P op s v)) :
      Emits (Func.exp2anyreg e >>= fun d => Func.codearith P.toArithmetic code d.2 none) fs fun d fs' =>
        Ready low fs' d ∧ Simulates (P := P) frame size (fixed fs e) (fixed fs' d) low fs' (fun s => do
          let v ← denote frame fs e s
          unary P op s v) (denote frame fs' d) := by
    refine .bind (exp2anyreg_emits P frame size ready) ?_
    rintro ⟨r, e'⟩ fs₁ wider₁ ⟨is', slot, moves⟩
    obtain rfl : e' = .nonreloc r := is'
    have locals : fs₁.numActiveLocalVars ≤ low := by rw [wider₁.number]; exact ready.locals
    refine (codearith_unary_emits P frame size is slot locals).mono ?_
    rintro d fs₂ wider₂ ⟨ready₂, value⟩
    refine ⟨ready₂, ?_⟩
    have all := Simulates.bind moves (fun v s => unary P op s v) fun v s s' above => by
      dsimp only [unary]
      rw [above.lengthOf]
    refine (Simulates.wider all wider₂).trans (.trans ?_ value)
    exact (Simulates.refl _).congr fun _ s _ => (same r s).symm
  unfold Func.unaryOperator
  split
  · rename_i is
    refine (codenot_emits P frame size ready).mono ?_
    rintro d fs₁ - ⟨ready₁, value⟩
    refine ⟨ready₁, ?_⟩
    simp only [unary, if_pos is]
    exact value
  split
  · rename_i other minus
    split
    · rename_i numeral
      cases e with
      | number n =>
          refine .pure ⟨⟨ready.temps, trivial, ready.locals⟩, (Simulates.refl _).congr fun _ s _ => ?_⟩
          simp only [denote, ok_bind, unary, if_neg other, if_pos minus, unm]
      | _ => cases numeral
    · refine loaded (.inl rfl) fun r s => ?_
      simp only [computed, unary, if_neg other, if_pos minus]
  split
  · rename_i other minus _
    refine loaded (.inr rfl) fun r s => ?_
    simp only [computed, unary, if_neg other, if_neg minus]
  · rename_i other minus length
    simp only [isUnary, Bool.or_eq_true, beq_iff_eq] at known
    rcases known with (is | is) | is
    · exact (other is).elim
    · exact (minus is).elim
    · exact (length is).elim

theorem operation_code {op : Token} {code : OpCode} (found : Func.arithmeticOp op = some code) :
    operation P op = some (operator P code) := by
  obtain ⟨id, start, stop, line, char⟩ := op
  unfold Func.arithmeticOp at found
  split at found
  · rename_i single
    obtain ⟨c, rfl, listed⟩ := Option.bind_eq_some_iff.mp found
    obtain rfl : id = .singleChar := single
    obtain ⟨before, after, split, -⟩ := List.lookup_eq_some_iff.mp listed
    have member : (c, code) ∈ Func.arithmeticOps := by
      rw [split]
      exact List.mem_append_right before List.mem_cons_self
    simp only [Func.arithmeticOps, List.mem_cons, Prod.mk.injEq, List.not_mem_nil, or_false] at member
    rcases member with ⟨rfl, rfl⟩ | ⟨rfl, rfl⟩ | ⟨rfl, rfl⟩ | ⟨rfl, rfl⟩ | ⟨rfl, rfl⟩ | ⟨rfl, rfl⟩ <;> rfl
  · cases found

theorem isBinary_cases {op : Token} (known : isBinary op = true) : op.id = .concat ∨
    ∃ code, Func.arithmeticOp op = some code := by
  simp only [isBinary, Bool.or_eq_true, beq_iff_eq, List.any_eq_true] at known
  refine known.imp_right ?_
  rintro ⟨c, member, is⟩
  obtain ⟨id, start, stop, line, char⟩ := op
  have fields : id = .singleChar ∧ char = some c := by simpa [Token.isChar] using is
  obtain ⟨rfl, rfl⟩ := fields
  simp only [List.mem_cons, List.not_mem_nil, or_false] at member
  rcases member with rfl | rfl | rfl | rfl | rfl | rfl <;> exact ⟨_, rfl⟩

theorem isBinary_computed {op : Token} (known : isBinary op = true) : Func.isComputed op = true := by
  rcases isBinary_cases known with concat | ⟨code, found⟩
  · simp [Func.isComputed, concat]
  · simp [Func.isComputed, found]

variable (P frame size) in
theorem leftOperand_emits {op : Token} (known : isBinary op = true) (ready : Ready low fs e) :
    Emits (Func.leftOperand op e) fs fun d fs' => Func.Waits fs' low fs'.freeRegister d ∧ Valid fs' d ∧
      (op.id = .concat → d = .nonreloc low) ∧ Moves P frame size low fs e fs' d := by
  have operand (other : op.id ≠ .concat) : Emits (Func.exp2RK e >>= fun d => pure d.2) fs fun d fs' =>
      Func.Waits fs' low fs'.freeRegister d ∧ Valid fs' d ∧ (op.id = .concat → d = .nonreloc low) ∧
        Moves P frame size low fs e fs' d := by
    refine .bind (exp2RK_emits P frame size ready) ?_
    rintro ⟨rk, d⟩ fs₁ - ⟨fetched, moves⟩
    exact .pure ⟨Func.AsRK.waits fetched.asRK, fetched.valid, fun concat => (other concat).elim, moves⟩
  unfold Func.leftOperand
  rcases isBinary_cases known with concat | ⟨code, found⟩
  · rw [if_neg (by simp [concat]), Func.arithmeticOp_not_concat concat, Option.isSome_none, if_neg Bool.false_ne_true,
      if_pos concat]
    refine .bind (exp2nextreg_emits P frame size ready) ?_
    rintro _ fs₁ wider₁ ⟨rfl, free, moves⟩
    refine .bind (exp2RK_nonreloc_emits low) ?_
    rintro _ fs₂ - ⟨rfl, rfl⟩
    exact .pure ⟨.inr ⟨low, rfl, .inr ⟨rfl, free⟩⟩, trivial, fun _ => rfl, moves⟩
  · have single := Func.arithmeticOp_char found
    rw [if_neg (by simp [single]), found, Option.isSome_some, if_pos rfl]
    split
    · rename_i numeral
      cases e with
      | number n =>
          refine .pure ⟨.inl ⟨rfl, ready.temps⟩, trivial, fun concat => ?_, moves_refl _ _ _ _ _⟩
          cases single.symm.trans concat
      | _ => cases numeral
    · refine operand fun concat => ?_
      cases single.symm.trans concat

/-! ## Concatenation -/

theorem stringSlots_fails {s : Machine P} {start n : Nat} (inside : start + n ≤ s.stack.length) :
    (∃ data, stringSlots s start n = .ok data) ∨ stringSlots s start n = .error (.error .attemptToConcatenate) := by
  induction n generalizing start with
  | zero => exact .inl ⟨[], rfl⟩
  | succ n ih =>
      obtain ⟨v, here⟩ := slot_inside (s := s) (k := start) (by omega)
      simp only [stringSlots, here, ok_bind]
      cases v with
      | string str =>
          have shorter : start + 1 + n ≤ s.stack.length := by omega
          rcases ih shorter with ⟨data, rest⟩ | rest
          · exact .inl ⟨str.data ++ data, by rw [rest]; rfl⟩
          · exact .inr (by rw [rest]; rfl)
      | _ => exact .inr rfl

-- the operands to the right are one string already
theorem concatenate_slots (interns : Interns P) {s : Machine P} {start n : Nat} (inside : start + (n + 1) ≤ s.stack.length) :
    (do
      let a ← s.slot start
      let data ← stringSlots s (start + 1) n
      concatenate P a (.string (P.intern data))) = (do
      let data ← stringSlots s start (n + 1)
      return .string (P.intern data)) := by
  obtain ⟨v, here⟩ := slot_inside (s := s) (k := start) (by omega)
  simp only [stringSlots, here, ok_bind]
  have shorter : start + 1 + n ≤ s.stack.length := by omega
  rcases stringSlots_fails shorter with ⟨data, rest⟩ | rest
  · rw [rest]
    cases v with
    | string str =>
        simp only [ok_bind, concatenate, interns data]
        rfl
    | _ => rfl
  · rw [rest]
    cases v <;> rfl

theorem concatenate_pair (interns : Interns P) {s : Machine P} {start : Nat} (inside : start + 2 ≤ s.stack.length) : (do
      let a ← s.slot start
      let b ← s.slot (start + 1)
      concatenate P a b) = (do
      let data ← stringSlots s start 2
      return .string (P.intern data)) := by
  rw [← concatenate_slots interns inside]
  refine bind_congr fun a => ?_
  obtain ⟨b, here⟩ := slot_inside (s := s) (k := start + 1) (by omega)
  simp only [stringSlots, here, ok_bind]
  cases b with
  | string str =>
      show concatenate P a (.string str) = concatenate P a (.string (P.intern (str.data ++ [])))
      cases a with
      | string str' => simp only [concatenate, List.append_nil, interns str.data]
      | _ => rfl
  | _ => cases a <;> rfl

theorem concatOperand_emits (valid : Valid fs e) : Emits (Func.concatOperand e) fs fun found fs' => fs' = fs ∧
    ∀ index i, found = some (index, i) → e = .relocable index ∧ fs.code[index]? = some (.instr i) ∧ i.op = .concat := by
  cases e with
  | relocable index =>
      obtain ⟨-, i, found, -⟩ := valid
      refine .bind (getcode_emits found) ?_
      rintro j fs' - ⟨rfl, rfl⟩
      refine .pure ⟨rfl, ?_⟩
      intro k j is
      split at is
      · cases is
        exact ⟨rfl, found, ‹_›⟩
      · cases is
  | _ => exact .pure ⟨rfl, fun _ _ is => by cases is⟩

variable (P frame size) in
theorem codeconcat_emits {e2 : ExpDesc} (interns : Interns P) (ready : Ready (low + 1) fs e2)
    (locals : fs.numActiveLocalVars ≤ low) :
    Emits (Func.codeconcat P.toArithmetic (.nonreloc low) e2) fs fun d fs' => Ready low fs' d ∧
      Simulates (P := P) frame size (fixed fs e2) (fixed fs' d) low fs' (fun s => do
        let a ← s.slot (frame.base + low)
        let b ← denote frame fs e2 s
        concatenate P a b) (denote frame fs' d) := by
  refine Emits.roomy fun roomy => ?_
  have upper : low < fs.maxStackSize.val := (Temps.le ready.temps ready.valid).trans roomy.registers
  have waits {fs : Func} : Func.Waits fs low (low + 1) (.nonreloc low) := .inr ⟨low, rfl, .inr ⟨rfl, rfl⟩⟩
  have beside {fs' : Func} {e' : ExpDesc} (wider : Wider fs fs') (moves : Moves P frame size (low + 1) fs e2 fs' e') :
      Simulates (P := P) frame size (fixed fs e2) (fixed fs' e') low fs' (fun s => do
        let a ← s.slot (frame.base + low)
        let b ← denote frame fs e2 s
        concatenate P a b) (fun s => do
        let a ← s.slot (frame.base + low)
        let b ← denote frame fs' e' s
        concatenate P a b) := by
    refine (Simulates.beside moves (w := fun s => s.slot (frame.base + low)) (fun extended s room => ?_)
      (fun s s' above => above.slot (Nat.lt_succ_self low)) (fun a b _ => concatenate P a b) fun _ _ _ _ _ => rfl).mono
      (Nat.le_succ low)
    have := (extended.narrow wider).registers
    exact slot_inside (by omega)
  refine .bind (dischargevars_emits P frame size ready) ?_
  rintro d fs₁ wider₁ ⟨ready₁, -, moves⟩
  have locals₁ : fs₁.numActiveLocalVars ≤ low := by rw [wider₁.number]; exact locals
  refine .bind (concatOperand_emits ready₁.valid) ?_
  rintro operand fs₂ - ⟨rfl, merges⟩
  cases operand with
  | some operand =>
      obtain ⟨index, i⟩ := operand
      obtain ⟨rfl, found, concat⟩ := merges index i rfl
      obtain ⟨free, j, found', -, starts⟩ := ready₁.temps
      cases found.symm.trans found'
      obtain ⟨last, j, found', load, -, bound⟩ := ready₁.valid
      cases found.symm.trans found'
      have start : i.b = low + 1 := starts concat
      have order : i.b ≤ i.c ∧ i.c < 256 := by
        have kind := load.kind
        rw [concat] at kind
        exact kind
      dsimp only
      rw [if_pos start.symm]
      refine .bind (freereg_emits locals₁ (.inr (.inr ⟨rfl, free⟩))) ?_
      rintro _ fs₃ - rfl
      refine .bind (@patch_emits { fs₂ with freeRegister := low } _ _ found _) ?_
      rintro _ fs₄ wider₄ rfl
      have merged : IsLoad fs₂.constants { i with b := low } := by
        refine ⟨⟨load.fits.a, ?_, load.fits.c⟩, ?_⟩
        · show low < 512
          omega
        · simp only [concat]
          omega
      have inside : index < fs₂.code.length := last ▸ Nat.lt_succ_self index
      refine .pure ⟨⟨⟨rfl, .set found ⟨merged.sets, fun _ => rfl⟩⟩, ⟨?_, { i with b := low }, ?_, merged, ?_, bound⟩, locals₁⟩, ?_⟩
      · show index + 1 = (fs₂.code.set index _).length
        rw [List.length_set, last]
      · exact List.getElem?_set_self inside
      · simp only [concat, ne_eq, reduceCtorEq, not_false_eq_true]
      · have code : (fs₂.code.set index (.instr { i with b := low })).take index = fs₂.code.take index :=
          List.take_set_of_le le_rfl
        have value (s : Machine P) : denote (P := P) frame
            { fs₂ with freeRegister := low, code := fs₂.code.set index (.instr { i with b := low }) }
            (.relocable index) s = (do
              let data ← stringSlots s (frame.base + low) (i.c + 1 - low)
              return .string (P.intern data)) := by
          simp only [denote, List.getElem?_set_self inside, computed, concat]
        show Simulates _ _ _ ((fs₂.code.set index _).take index) _ _ _ _
        rw [code]
        refine ((beside wider₁ moves).wider wider₄.freed).congr fun extended s starts => ?_
        have : i.c < size := (bound concat).trans_le extended.registers
        have room := starts.room
        have count : i.c + 1 - low = i.c + 1 - (low + 1) + 1 := by omega
        rw [value, count, ← concatenate_slots interns (by omega)]
        simp only [denote, found, computed, concat, start, bind_assoc, pure_bind, Nat.add_assoc]
  | none =>
      refine .bind (exp2nextreg_emits P frame size ready₁) ?_
      rintro _ fs₃ wider₃ ⟨rfl, free, loaded⟩
      refine Emits.roomy fun roomy₃ => ?_
      have locals₃ : fs₃.numActiveLocalVars ≤ low := by rw [wider₃.number]; exact locals₁
      have right : Ready (low + 1) fs₃ (.nonreloc (low + 1)) := ready_nonreloc (.inr ⟨rfl, free⟩) (Nat.le_succ_of_le locals₃)
      have inside : low + 1 < fs₃.maxStackSize.val := by
        have := roomy₃.registers
        omega
      refine (codearith_operands P frame size (concatenate P) waits trivial right locals₃ rfl (fun h => OpCode.noConfusion h)
        (fun _ => ⟨rfl, low + 1, rfl, Nat.le_succ low, inside⟩) (fun constants o1 o2 small1 small2 order => ?_) ?_).mono ?_
      · exact ⟨⟨Nat.succ_pos 255, small1, small2⟩, order rfl⟩
      · intro extended o1 o2 s room register1 register2
        obtain rfl := register1 low rfl
        obtain rfl := register2 _ rfl
        have := extended.registers
        rw [operandOf_register fs₃ inside, operandOf_register fs₃ (Nat.lt_of_succ_lt inside)]
        simp only [computed]
        rw [show o1 + 1 + 1 - o1 = 2 by omega, ← concatenate_pair interns (by omega)]
        rfl
      · rintro d' fs₄ wider₄ ⟨ready₄, value⟩
        refine ⟨ready₄, ?_⟩
        exact ((beside (wider₁.trans wider₃) (moves.trans wider₃ loaded)).wider wider₄).trans value

variable (frame size) in
theorem binaryOperator_emits {op : Token} {e1 e2 : ExpDesc} (interns : Interns P) (known : isBinary op = true)
    (waits : Func.Waits fs low mid e1) (valid : Valid fs e1) (left : op.id = .concat → e1 = .nonreloc low)
    (ready : Ready mid fs e2) (locals : fs.numActiveLocalVars ≤ low) :
    Emits (Func.binaryOperator P.toArithmetic op e1 e2) fs fun d fs' => Ready low fs' d ∧
      Simulates (P := P) frame size (fixed fs e2) (fixed fs' d) low fs' (fun s => do
        let a ← denote frame fs e1 s
        let b ← denote frame fs e2 s
        binary P op a b) (denote frame fs' d) := by
  unfold Func.binaryOperator
  rcases isBinary_cases known with concat | ⟨code, found⟩
  · obtain rfl := left concat
    obtain rfl : mid = low + 1 := by
      rcases waits with ⟨wrong, -⟩ | ⟨r, ⟨rfl⟩, ⟨small, -⟩ | ⟨-, same⟩⟩
      · cases wrong
      · omega
      · exact same
    simp only [concat, reduceCtorEq, or_self, if_false, if_true, binary]
    exact codeconcat_emits P frame size interns ready locals
  · have single := Func.arithmeticOp_char found
    simp only [single, found, reduceCtorEq, or_self, if_false, binary, operation_code found]
    exact codearith_emits P frame size (Func.arithmeticOp_isArithmetic found) waits valid ready locals

end Zua.Run
