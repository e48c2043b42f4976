import Zua.Run.NumericFor

/-!
# Assignments to variables

The values are loaded behind the locals and stored from the last variable to the first. With two variables and two
values the first of them is left out.
-/

namespace Zua.Run
open Code Object Compile Vm Syntax
open Memory (Constant)
open Zua.Lex (Token ch)

variable {P : Platform} {frame : Frame} {size low mid : Nat} {fs fs' : Func} {e : ExpDesc} {c c' : Compiler} {env : Env}
  {names : List (List UInt8)} {code words more : List Word}

/-! ## Results that agree -/

theorem agrees_refl (result : Except Vm.Stop (Machine P)) : Agrees frame size low result result := by
  cases result with
  | error e => rfl
  | ok s => exact .refl s

theorem Agrees.trans {first second third : Except Vm.Stop (Machine P)} (agrees : Agrees frame size low first second)
    (agrees' : Agrees frame size low second third) : Agrees frame size low first third := by
  cases first <;> cases second <;> cases third <;> try first | exact agrees.elim | exact agrees'.elim
  · exact Eq.trans agrees agrees'
  · exact Above.trans agrees agrees'

theorem Agrees.mono {first second : Except Vm.Stop (Machine P)} (agrees : Agrees frame size mid first second)
    (le : low ≤ mid) : Agrees frame size low first second := by
  cases first <;> cases second <;> try exact agrees.elim
  · exact agrees
  · exact Above.mono agrees le

theorem Agrees.bind {first second : Except Vm.Stop (Machine P)} {f g : Machine P → Except Vm.Stop (Machine P)}
    (agrees : Agrees frame size mid first second)
    (rest : ∀ s s', Above frame size mid s s' → Agrees frame size low (f s) (g s')) :
    Agrees frame size low (first >>= f) (second >>= g) := by
  cases first <;> cases second <;> try exact agrees.elim
  · exact agrees
  · exact rest _ _ agrees

-- the code does what `f` says, up to the registers from `low` on
def Does (P : Platform) (frame : Frame) (size low : Nat) (code words : List Word) (fs : Func)
    (f : Machine P → Except Vm.Stop (Machine P)) : Prop :=
  Behaves P frame size low code words fs fun s result => Agrees frame size low (f s) result

namespace Does

variable {f g : Machine P → Except Vm.Stop (Machine P)}

theorem wider (does : Does P frame size low code words fs f) (wider : Wider fs fs') : Does P frame size low code words fs' f :=
  Behaves.wider does wider

theorem lower (does : Does P frame size mid code words fs f) (le : low ≤ mid) : Does P frame size low code words fs f :=
  (Behaves.lower does le).mono fun _ _ _ _ agrees => agrees.mono le

theorem congr (does : Does P frame size low code words fs f)
    (same : Extends frame size fs → ∀ s, Starts frame size code low s → Agrees frame size low (g s) (f s)) :
    Does P frame size low code words fs g :=
  does.mono fun extended s _ starts agrees => (same extended s starts).trans agrees

theorem idle : Does P frame size low code code fs fun s => .ok s := idle_behaves fun _ s _ => .refl s

theorem trans (first : Does P frame size mid code words fs f) (le : low ≤ mid)
    (second : Does P frame size low words more fs g)
    (respects : ∀ s s', Above frame size mid s s' → Agrees frame size low (g s) (g s')) :
    Does P frame size low code more fs fun s => f s >>= g := by
  refine ((Behaves.lower first le).trans second).mono fun extended s result starts h => ?_
  show Agrees frame size low (f s >>= g) result
  rcases h with ⟨e, rfl, agrees⟩ | ⟨t, agrees, agrees'⟩
  · cases run : f s with
    | error e' =>
        rw [run] at agrees
        exact agrees
    | ok t =>
        rw [run] at agrees
        exact agrees.elim
  · cases run : f s with
    | error e' =>
        rw [run] at agrees
        exact agrees.elim
    | ok t' =>
        rw [run] at agrees
        exact (respects t' t agrees).trans agrees'

end Does

-- what comes after the code that simulates goes on with its value
theorem Simulates.does {β : Type} {f g : Machine P → Except Vm.Stop β} {k : β → Machine P → Except Vm.Stop (Machine P)}
    (simulates : Simulates frame size code words mid fs f g) (le : low ≤ mid)
    (second : Does P frame size low words more fs fun s => g s >>= fun v => k v s)
    (respects : ∀ v s s', Above frame size mid s s' → Agrees frame size low (k v s) (k v s')) :
    Does P frame size low code more fs fun s => f s >>= fun v => k v s := by
  have first : Behaves P frame size mid code words fs fun s result => (∃ e, result = .error e ∧ f s = .error e) ∨
      ∃ s', result = .ok s' ∧ Above frame size mid s s' ∧ f s = g s' := by
    obtain ⟨is, same, holds⟩ := simulates
    refine ⟨is, same, fun extended host s pc located starts => ?_⟩
    obtain ⟨loads, runs⟩ := holds extended
    obtain ⟨equal, above⟩ := runs s starts
    refine ⟨_, .loads located loads, ⟨fun s' run => (above s' run).length, ?_⟩, ?_⟩
    · rintro rfl
      rfl
    cases run : Vm.runs frame is s with
    | error e =>
        rw [run] at equal
        exact .inl ⟨e, rfl, equal⟩
    | ok s' =>
        rw [run] at equal
        exact .inr ⟨s', rfl, above s' run, equal⟩
  refine ((first.lower le).trans second).mono fun extended s result starts h => ?_
  show Agrees frame size low (f s >>= fun v => k v s) result
  rcases h with ⟨e, rfl, ⟨e', same, fails⟩ | ⟨s', wrong, -⟩⟩ | ⟨s', ⟨e, wrong, -⟩ | ⟨_, ⟨⟩, above, equal⟩, agrees⟩
  · cases same
    rw [fails]
    exact rfl
  · cases wrong
  · cases wrong
  · rw [equal]
    refine Agrees.trans ?_ agrees
    show Agrees frame size low (g s' >>= fun v => k v s) (g s' >>= fun v => k v s')
    cases g s' with
    | error e => exact rfl
    | ok v => exact respects v s s' above

/-! ## Storing into one variable -/

def store (names : List (List UInt8)) (base : Nat) (name : List UInt8) (v : Value) (s : Machine P) :
    Except Vm.Stop (Machine P) :=
  match register names name names.length with
  | some r => s.setSlot (base + r) v
  | none => s.tableSet s.globals (.string (P.intern name)) v

theorem tableSet_stack {s s' : Machine P} {a : Addr} {key v : Value} (run : s.tableSet a key v = .ok s') :
    s' = { s with tables := s'.tables } := by
  unfold Machine.tableSet at run
  cases found : s.tables[a]? with
  | none =>
      rw [found] at run
      cases run
  | some t =>
      rw [found] at run
      cases set : t.set key v with
      | error e =>
          simp only [set] at run
          cases run
      | ok t' =>
          simp only [set] at run
          cases run
          rfl

theorem tableSet_above {s s' : Machine P} (above : Above frame size low s s') (a : Addr) (key v : Value) :
    Agrees frame size low (s.tableSet a key v) (s'.tableSet a key v) := by
  unfold Machine.tableSet
  rw [above.tables]
  cases s.tables[a]? with
  | none => exact rfl
  | some t =>
      dsimp only
      cases t.set key v with
      | error e => exact rfl
      | ok t' =>
          refine ⟨?_, above.length, above.same⟩
          dsimp only
          rw [above.rest]

theorem setSlot_above {s s' : Machine P} (above : Above frame size low s s') (k : Nat) (v : Value) :
    Agrees frame size low (s.setSlot k v) (s'.setSlot k v) := by
  unfold Machine.setSlot
  rw [above.length]
  split
  · refine ⟨?_, by rw [List.length_set, List.length_set, above.length], fun j outside => ?_⟩
    · rw [above.rest]
    · by_cases equal : k = j
      · subst equal
        rename_i inside
        rw [List.getElem?_set_self inside, List.getElem?_set_self (by rw [above.length]; exact inside)]
      · rw [List.getElem?_set_ne equal, List.getElem?_set_ne equal]
        exact above.same j outside
  · exact rfl

theorem store_above {s s' : Machine P} (above : Above frame size low s s') (base : Nat) (name : List UInt8) (v : Value) :
    Agrees frame size low (store names base name v s) (store names base name v s') := by
  unfold store
  split
  · exact setSlot_above above _ v
  · have globals : s'.globals = s.globals := by rw [above.rest]
    rw [globals]
    exact tableSet_above above _ _ v

-- the description of a variable
inductive Names (env : Env) (names : List (List UInt8)) (fs : Func) (token : Token) : ExpDesc → Prop
  | register {r : Nat} (found : register names (token.slice env.source) names.length = some r) :
      Names env names fs token (.localRegister r)
  | global {k : Nat} (missing : register names (token.slice env.source) names.length = none)
      (found : fs.constants[k]? = some (.string (token.slice env.source))) : Names env names fs token (.global k)

theorem Names.wider {token : Token} {d : ExpDesc} (is : Names env names fs token d) (wider : Wider fs fs') :
    Names env names fs' token d := by
  cases is with
  | register found => exact .register found
  | global missing found => exact .global missing (getElem?_of_initial found wider.constants)

variable (P frame size) in
theorem setglobal_does {r k : Nat} {token : Token} (low : Nat) (code : List Word) (inside : r < fs.maxStackSize.val)
    (room : fs.constants.length ≤ Func.maxBx + 1)
    (missing : register names (token.slice env.source) names.length = none)
    (found : fs.constants[k]? = some (.string (token.slice env.source))) :
    Does P frame size low code (code ++ [.instr (.abx .setglobal r k)]) fs fun s =>
      s.slot (frame.base + r) >>= fun v => store names frame.base (token.slice env.source) v s := by
  refine ⟨[_], rfl, fun extended host s pc located starts => ?_⟩
  have limit := fs.maxStackSize.lt
  have small : Code.maxStackSize = 250 := rfl
  have constant : frame.constants[k]? = some (.string (token.slice env.source)) :=
    getElem?_of_initial found extended.constants
  have bound : k ≤ Func.maxBx := by
    have := (List.getElem?_eq_some_iff.mp found).1
    omega
  have fits : (Instruction.abx .setglobal r k).Fits := fits_bx (by omega) bound
  obtain ⟨v, value⟩ := slot_inside (s := s) (k := frame.base + r) (by
    have := extended.registers
    have := starts.room
    omega)
  refine ⟨store names frame.base (token.slice env.source) v s, .exec (located.read fits) fun execute => ?_,
    ⟨fun s' run => ?_, fun wrong => by cases wrong⟩, ?_⟩
  · simp only [exec, Instruction.abx_op, Instruction.bx_abx, Instruction.abx_a, constant, value, ok_bind, store, missing]
    rfl
  · unfold store at run
    rw [missing] at run
    rw [tableSet_stack run]
  · show Agrees frame size low (s.slot (frame.base + r) >>= _) _
    rw [value, ok_bind]
    exact agrees_refl _

theorem runs_length {is : List Instruction} {s s' : Machine P} (run : runs frame is s = .ok s') :
    s'.stack.length = s.stack.length := by
  induction is generalizing s with
  | nil =>
      cases run
      rfl
  | cons i is ih =>
      obtain ⟨v, -, run⟩ := bind_ok.mp run
      obtain ⟨t, set, run⟩ := bind_ok.mp run
      refine (ih run).trans ?_
      unfold Machine.setSlot at set
      split at set
      · cases set
        exact List.length_set
      · cases set

theorem Performs.does {f : Machine P → Except Vm.Stop (Machine P)} (performs : Performs frame size code words low fs f) :
    Does P frame size low code words fs f := by
  obtain ⟨is, same, holds⟩ := performs
  refine ⟨is, same, fun extended host s pc located starts => ?_⟩
  obtain ⟨loads, run⟩ := holds extended
  refine ⟨_, .loads located loads, ⟨fun s' done => runs_length done, ?_⟩, ?_⟩
  · rintro rfl
    rfl
  · rw [run s starts]
    exact agrees_refl _

-- what gives a register back as well
theorem Emits.works {α : Type} {x : FuncM α} {Q R : α → Func → Prop} (emits : Emits x fs Q) (works : Works x fs R) :
    Emits x fs fun a fs' => Q a fs' ∧ R a fs' := by
  intro roomy
  have first := emits roomy
  have second := works roomy.registers
  unfold Sat at first second ⊢
  cases run : x fs with
  | error e =>
      rw [run] at first
      exact first
  | ok result =>
      rw [run] at first second
      exact ⟨first.1, first.2.1, first.2.2.1, first.2.2.2, second.2.2.2⟩

theorem exp2reg_undischarged (waits : isDischarged e = false) (valid : Valid fs e) (reg : Nat) :
    Func.exp2reg e reg = Func.dischargevars e >>= fun d => Func.exp2reg d reg := by
  cases e with
  | localRegister | global | indexed =>
      simp only [Func.exp2reg, Func.discharge2reg, Func.dischargevars, bind_assoc, pure_bind]
  | upvalueIndex | call | vararg => exact valid.elim
  | _ => cases waits

variable (P frame size) in
theorem storeLocal_does {reg : Nat} (ready : Ready low fs e) (register : reg < fs.numActiveLocalVars) :
    Emits (do Func.freeexp e; Func.exp2reg e reg) fs fun _ fs' => Does P frame size low (fixed fs e) fs'.code fs' fun s =>
      denote frame fs e s >>= fun v => s.setSlot (frame.base + reg) v := by
  refine Emits.roomy fun roomy => ?_
  have upper : low ≤ fs.maxStackSize.val := (Temps.le ready.temps ready.valid).trans roomy.registers
  have fits : reg < fs.maxStackSize.val := by
    have := ready.locals
    omega
  by_cases discharged : isDischarged e = true
  · have source : ∀ r, e = .nonreloc r → r < fs.maxStackSize.val := by
      rintro r rfl
      exact Slot.lt ready.temps ready.locals roomy.registers
    refine .bind (freeexp_emits ready discharged) ?_
    rintro _ fs₁ - rfl
    have valid : Valid { fs with freeRegister := low } e := ready.valid.grow rfl ⟨le_rfl, List.prefix_rfl, rfl, rfl, rfl⟩
    refine (exp2reg_emits P frame size low valid discharged source fits (.inr register)).mono ?_
    rintro _ fs' - ⟨-, -, fills⟩
    have does := Performs.does fills
    rw [fixed_frame rfl, denote_frame rfl] at does
    exact does
  · have waits : isDischarged e = false := Bool.not_eq_true _ ▸ discharged
    have nothing : Func.freeexp e = pure () := by
      cases e with
      | nonreloc => cases waits
      | _ => rfl
    rw [nothing, pure_bind, exp2reg_undischarged waits ready.valid]
    refine .bind (dischargevars_emits P frame size ready) ?_
    rintro d fs₁ wider₁ ⟨ready₁, discharged₁, moves⟩
    refine Emits.roomy fun roomy₁ => ?_
    have source : ∀ r, d = .nonreloc r → r < fs₁.maxStackSize.val := by
      rintro r rfl
      exact Slot.lt ready₁.temps ready₁.locals roomy₁.registers
    have fits₁ : reg < fs₁.maxStackSize.val := fits.trans_le wider₁.registers
    refine (exp2reg_emits P frame size low ready₁.valid discharged₁ source fits₁ (.inr (wider₁.number ▸ register))).mono ?_
    rintro _ fs' wider' ⟨-, -, fills⟩
    exact Simulates.does (Simulates.wider moves wider') le_rfl (Performs.does fills) fun v s s' above => setSlot_above above _ v

variable (P frame size) in
theorem storevar_does {token : Token} {target : ExpDesc} (is : Names env names fs token target)
    (count : names.length = fs.numActiveLocalVars) (ready : Ready low fs e) :
    Emits (Func.storevar target e) fs fun _ fs' => fs'.freeRegister = low ∧
      Does P frame size low (fixed fs e) fs'.code fs' fun s =>
        denote frame fs e s >>= fun v => store names frame.base (token.slice env.source) v s := by
  have single : e.hasmultret = false := by
    cases e with
    | call | vararg => exact ready.valid.elim
    | _ => rfl
  have stores : Emits (Func.storevar target e) fs fun _ fs' => Does P frame size low (fixed fs e) fs'.code fs' fun s =>
      denote frame fs e s >>= fun v => store names frame.base (token.slice env.source) v s := by
    cases is with
    | @register r found =>
        have register : r < fs.numActiveLocalVars := count ▸ register_lt found
        refine (storeLocal_does P frame size ready register).mono ?_
        rintro _ fs' - does
        simp only [store, found]
        exact does
    | @global k missing found =>
        refine .bind (exp2anyreg_emits P frame size ready) ?_
        rintro ⟨r, d⟩ fs₁ wider₁ ⟨is, slot, moves⟩
        obtain rfl : d = .nonreloc r := is
        have locals₁ : fs₁.numActiveLocalVars ≤ low := wider₁.number.trans_le ready.locals
        refine Emits.roomy fun roomy₁ => ?_
        have inside : r < fs₁.maxStackSize.val := Slot.lt slot locals₁ roomy₁.registers
        refine .bind (emitInstruction_emits _) ?_
        rintro index fs₂ - ⟨-, rfl⟩
        refine .bind (freeexp_emits (ready_nonreloc slot locals₁) rfl) ?_
        rintro _ fs₃ - rfl
        have stored := setglobal_does P frame size low fs₁.code inside
          roomy₁.constants missing (getElem?_of_initial found wider₁.constants)
        have does := Simulates.does moves le_rfl stored fun v s s' above => store_above above _ _ v
        exact .pure (Behaves.limits does rfl rfl)
  refine (stores.works (Func.storevar_works ?_ ready.locals ready.temps single)).mono fun _ fs' _ both => ⟨both.2, both.1⟩
  cases is with
  | register found => exact lt_of_lt_of_eq (register_lt found) count
  | global => trivial

/-! ## Storing into several variables -/

-- the last variable is stored first, and what has no value becomes nil
def storeAll (env : Env) (names : List (List UInt8)) (base : Nat) : List Token → List Value → Machine P →
    Except Vm.Stop (Machine P)
  | [], _, s => .ok s
  | token :: rest, vs, s => do
      let s ← storeAll env names base rest vs.tail s
      store names base (token.slice env.source) (vs.headD .nil) s

theorem storeAll_above {s s' : Machine P} (above : Above frame size low s s') (base : Nat) (tokens : List Token)
    (vs : List Value) : Agrees frame size low (storeAll env names base tokens vs s) (storeAll env names base tokens vs s') := by
  induction tokens generalizing vs with
  | nil => exact above
  | cons token rest ih => exact (ih vs.tail).bind fun t t' above => store_above above base _ _

theorem storeAll_concat (base : Nat) (tokens : List Token) (token : Token) {vs : List Value} (v : Value)
    (length : vs.length = tokens.length) (s : Machine P) : storeAll env names base (tokens ++ [token]) (vs ++ [v]) s =
      (store names base (token.slice env.source) v s >>= fun s => storeAll env names base tokens vs s) := by
  induction tokens generalizing vs with
  | nil =>
      obtain rfl := List.eq_nil_of_length_eq_zero length
      simp only [List.nil_append, storeAll, ok_bind, List.headD_cons]
      exact (bind_pure _).symm
  | cons first tokens ih =>
      cases vs with
      | nil => cases length
      | cons w vs =>
          simp only [List.cons_append, storeAll, List.tail_cons, List.headD_cons, ih (Nat.succ.inj length), bind_assoc]

theorem storeAll_congr (base : Nat) {tokens : List Token} {vs ws : List Value}
    (same : ∀ i < tokens.length, vs.getD i .nil = ws.getD i .nil) (s : Machine P) :
    storeAll env names base tokens vs s = storeAll env names base tokens ws s := by
  induction tokens generalizing vs ws with
  | nil => rfl
  | cons token tokens ih =>
      have first : vs.headD .nil = ws.headD .nil := by
        have := same 0 (Nat.succ_pos _)
        cases vs <;> cases ws <;> exact this
      have rest : ∀ i < tokens.length, vs.tail.getD i .nil = ws.tail.getD i .nil := fun i inside => by
        have := same (i + 1) (Nat.succ_lt_succ inside)
        cases vs <;> cases ws <;> exact this
      rw [storeAll, storeAll, first, ih rest]

-- the registers behind the locals are not variables
theorem store_slot {s s' : Machine P} {base k : Nat} {name : List UInt8} {v : Value} (run : store names base name v s = .ok s')
    (behind : base + names.length ≤ k) : s'.slot k = s.slot k := by
  unfold store at run
  split at run
  · rename_i r found
    have := register_lt found
    unfold Machine.setSlot at run
    split at run
    · cases run
      unfold Machine.slot
      rw [List.getElem?_set_ne (by omega)]
    · cases run
  · rw [tableSet_stack run]
    rfl

theorem store_slots {s s' : Machine P} {base start n : Nat} {name : List UInt8} {v : Value}
    (run : store names base name v s = .ok s') (behind : base + names.length ≤ start) : slots s' start n = slots s start n := by
  induction n generalizing start with
  | zero => rfl
  | succ n ih => rw [slots, slots, store_slot run behind, ih (Nat.le_succ_of_le behind)]

-- what the descriptions of the variables stand for
def Targets (env : Env) (names : List (List UInt8)) (fs : Func) (tokens : List Token) (targets : List ExpDesc) : Prop :=
  List.Forall₂ (Names env names fs) tokens targets

theorem Targets.wider {tokens : List Token} {targets : List ExpDesc} (are : Targets env names fs tokens targets)
    (wider : Wider fs fs') : Targets env names fs' tokens targets :=
  List.Forall₂.imp (fun _ _ is => is.wider wider) are

theorem Targets.get {tokens : List Token} {targets : List ExpDesc} (are : Targets env names fs tokens targets) {n : Nat}
    (inside : n < tokens.length) :
    ∃ target, targets[n]? = some target ∧ Names env names fs (tokens.get ⟨n, inside⟩) target := by
  have inside' : n < targets.length := are.length_eq ▸ inside
  exact ⟨_, List.getElem?_eq_getElem inside', List.Forall₂.get are inside inside'⟩

theorem storeSlots_above {s s' : Machine P} {n : Nat} (above : Above frame size (low + n) s s') (base : Nat)
    (tokens : List Token) : Agrees frame size low
      (slots s (frame.base + low) n >>= fun vs => storeAll env names base tokens vs s)
      (slots s' (frame.base + low) n >>= fun vs => storeAll env names base tokens vs s') := by
  rw [slots_steady above le_rfl]
  cases slots s (frame.base + low) n with
  | error e => exact rfl
  | ok vs => exact (storeAll_above above _ _ vs).mono (Nat.le_add_right low n)

-- the last value may be stored before the others are looked at
variable (env) in
theorem storeAll_last {s : Machine P} {base start n : Nat} (room : start + n ≤ s.stack.length) {tokens : List Token}
    (length : tokens.length = n) (token : Token) (behind : base + names.length ≤ start) (value : Except Vm.Stop Value) :
    (slots s start n >>= fun vs => value >>= fun v => storeAll env names base (tokens ++ [token]) (vs ++ [v]) s) =
      ((value >>= fun v => store names base (token.slice env.source) v s) >>= fun t =>
        slots t start n >>= fun vs => storeAll env names base tokens vs t) := by
  obtain ⟨vs, held⟩ := slots_inside room
  rw [held, ok_bind]
  cases value with
  | error e => rfl
  | ok v =>
      simp only [ok_bind]
      rw [storeAll_concat _ _ _ v ((slots_length held).trans length.symm)]
      cases stored : store names base (token.slice env.source) v s with
      | error e => rfl
      | ok t => simp only [ok_bind, store_slots stored behind, held]

variable (P frame size) in
theorem storeFrom_does {tokens : List Token} {targets : List ExpDesc} (are : Targets env names c.func tokens targets) {n : Nat}
    (le : n ≤ tokens.length) (count : names.length = c.func.numActiveLocalVars) (locals : c.func.numActiveLocalVars ≤ low)
    (free : c.func.freeRegister = low + n) :
    Makes (storeFrom targets n) c fun _ c' => c'.func.freeRegister = low ∧
      Does P frame size low c.func.code c'.func.code c'.func fun s =>
        slots s (frame.base + low) n >>= fun vs => storeAll env names frame.base (tokens.take n) vs s := by
  induction n generalizing c with
  | zero => exact .pure ⟨free, .idle⟩
  | succ n ih =>
      obtain ⟨target, found, is⟩ := are.get le
      refine Makes.roomy fun roomy => ?_
      rw [storeFrom]
      refine .getFunc ?_
      rw [if_neg (by omega), found]
      dsimp only
      have last : c.func.freeRegister - 1 = low + n := by omega
      rw [last]
      have ready : Ready (low + n) c.func (.nonreloc (low + n)) :=
        ready_nonreloc (.inr ⟨rfl, free⟩) (locals.trans (Nat.le_add_right _ _))
      refine .bind (Makes.onFunc (storevar_does P frame size is count ready)) ?_
      rintro d c₁ wider₁ ⟨-, free₁, first⟩
      refine .bind (Makes.setExp d) ?_
      rintro _ c₂ wider₂ same
      have wider := wider₁.trans wider₂
      have free₂ : c₂.func.freeRegister = low + n := by rw [same, free₁]
      have code₂ : c₂.func.code = c₁.func.code := by rw [same]
      refine (ih (are.wider wider) (Nat.le_of_succ_le le) (count.trans wider.number.symm)
        (wider.number.trans_le locals) free₂).mono ?_
      rintro _ c₃ wider₃ ⟨free₃, others⟩
      refine ⟨free₃, ?_⟩
      rw [code₂] at others
      refine ((first.wider (wider₂.trans wider₃)).trans (Nat.le_add_right low n) others
        fun s s' above => storeSlots_above above _ _).congr fun extended s starts => ?_
      have room : frame.base + low + n ≤ s.stack.length := by
        have := roomy.registers
        have := (wider.trans wider₃).registers
        have := extended.registers
        have := starts.room
        omega
      have taken : tokens.take (n + 1) = tokens.take n ++ [tokens[n]] := List.take_succ_eq_append_getElem le
      have length : (tokens.take n).length = n := List.length_take_of_le (Nat.le_of_succ_le le)
      have same := storeAll_last env room length tokens[n] (show frame.base + names.length ≤ frame.base + low by omega)
        (s.slot (frame.base + (low + n)))
      rw [taken, slots_concat, Nat.add_assoc]
      simp only [bind_assoc, pure_bind] at same ⊢
      rw [same]
      exact agrees_refl _

/-! ## The statement -/

theorem findLocalVar_emits (inScope : Scoped env names fs) (token : Token) :
    Emits (Func.findLocalVarByToken env.source token) fs fun found fs' =>
      found = register names (token.slice env.source) names.length ∧ fs' = fs := by
  refine Emits.of_run ?_
  have found := searchVar_register inScope (token.slice env.source) le_rfl
  rw [inScope.count] at found ⊢
  unfold Func.findLocalVarByToken
  show (StateT.lift (fs.searchVar env.source (token.slice env.source) fs.numActiveLocalVars)) fs = _
  rw [found]
  rfl

theorem genIdentifier_names (token : Token) (c : Compiler) (inScope : Scoped env names c.func) :
    Makes (genIdentifier env token) c fun _ c' => Names env names c'.func token c'.func.curExp ∧
      c'.func.code = c.func.code ∧ c'.func.freeRegister = c.func.freeRegister := by
  refine .bind (.onFunc (findLocalVar_emits inScope token)) ?_
  rintro found c₁ wider₁ ⟨-, rfl, same₁⟩
  refine .bind (x := recordBinding token _) (Q := fun _ c' => c'.func = c₁.func)
    (fun roomy => ⟨⟨roomy.registers, roomy.constants⟩, .refl _, rfl⟩) ?_
  rintro _ c₂ wider₂ same₂
  have same : c₂.func = c.func := same₂.trans same₁
  cases found : register names (token.slice env.source) names.length with
  | some r =>
      refine (Makes.setExp _).mono ?_
      rintro _ c₃ - same₃
      rw [same₃, same]
      exact ⟨.register found, rfl, rfl⟩
  | none =>
      refine .bind (genName_makes token) ?_
      rintro k c₃ - ⟨same₃, located⟩
      refine (Makes.setExp _).mono ?_
      rintro _ c₄ - same₄
      rw [same₄]
      refine ⟨.global found located, ?_, ?_⟩
      · show c₃.func.code = c.func.code
        rw [same₃, same]
      · show c₃.func.freeRegister = c.func.freeRegister
        rw [same₃, same]

theorem genTargets_names (tokens : List Token) (c : Compiler) (inScope : Scoped env names c.func) :
    Makes (genTargets env (tokens.map .identifier)) c fun targets c' => Targets env names c'.func tokens targets ∧
      c'.func.code = c.func.code ∧ c'.func.freeRegister = c.func.freeRegister := by
  induction tokens generalizing c with
  | nil => exact .pure ⟨.nil, rfl, rfl⟩
  | cons token tokens ih =>
      rw [List.map_cons, genTargets, genNode]
      refine .bind (genIdentifier_names token c inScope) ?_
      rintro _ c₁ wider₁ ⟨is, code₁, free₁⟩
      refine .getFunc (.bind (ih c₁ (inScope.wider wider₁)) ?_)
      rintro targets c₂ wider₂ ⟨are, code₂, free₂⟩
      exact .pure ⟨.cons (is.wider wider₂) are, code₂.trans code₁, free₂.trans free₁⟩

theorem dropRegisters_makes {n : Nat} (le : n ≤ c.func.freeRegister) : Makes (dropRegisters n) c fun _ c' =>
    c'.func = { c.func with freeRegister := c.func.freeRegister - n } := by
  refine .getFunc ?_
  rw [if_neg (Nat.not_lt.mpr le)]
  intro roomy
  exact ⟨⟨(Nat.sub_le _ _).trans roomy.registers, roomy.constants⟩, ⟨le_rfl, List.prefix_rfl, rfl, rfl, rfl⟩, rfl⟩

-- the registers of the values, and nil in those of the variables that have none
variable (frame size) in
theorem adjusted_makes (interns : Interns P) (arithmetic : env.toArithmetic = P.toArithmetic) (numVars : Nat) (node : Node)
    (rest : List Node) (all : ∀ e ∈ node :: rest, isExpression env e = true) (c : Compiler)
    (inScope : Scoped env names c.func) (locals : c.func.numActiveLocalVars ≤ c.func.freeRegister) :
    Makes (do
      genExpList1 env (node :: rest)
      onExp (Func.adjustAssign numVars (rest.length + 1))) c fun _ c' =>
        c'.func.freeRegister = c.func.freeRegister + (rest.length + 1) + (numVars - (rest.length + 1)) ∧
          Behaves P frame size c.func.freeRegister c.func.code c'.func.code c'.func (Ends frame size c.func.freeRegister
            (fun s => evaluateAll env names frame.base s (node :: rest)) (Assigned frame c.func.freeRegister numVars)) := by
  refine .bind (genExpList1_computes frame size interns arithmetic node rest all c inScope locals) ?_
  rintro _ c₁ wider₁ ⟨ready, simulates⟩
  refine Makes.roomy fun roomy => ?_
  refine (Makes.onExp (adjustAssign_emits P frame size numVars (rest.length + 1) ready)).mono ?_
  rintro _ c₂ wider₂ ⟨fs, same₂, fs₁, before, after, upper, free, moves, nils⟩
  have total : ∀ s vs, evaluateAll env names frame.base (P := P) s (node :: rest) = .ok vs → vs.length = rest.length + 1 :=
    fun _ _ => evaluateAll_length
  have last := (Simulates.beside (w := fun s : Machine P => slots s (frame.base + c.func.freeRegister) rest.length) moves
    ?_ (fun s s' above => slots_steady above le_rfl) (fun vs v _ => .ok (vs ++ [v])) fun _ _ _ _ _ => rfl).mono
      (Nat.le_add_right _ _)
  · have loaded : Simulates frame size c.func.code fs₁.code c.func.freeRegister fs₁
        (fun s : Machine P => evaluateAll env names frame.base s (node :: rest))
        fun s => slots s (frame.base + c.func.freeRegister) (rest.length + 1) := by
      refine ((simulates.wider before).trans last).congr fun _ s _ => ?_
      rw [slots_concat, Nat.add_assoc]
      rfl
    have behaves := values_assigned total loaded upper after nils
    rw [same₂]
    exact ⟨free, behaves.wider (wider_setExp fs _)⟩
  · intro extended s room
    have := extended.registers
    exact slots_inside (by omega)

theorem slots_all {s : Machine P} {start n : Nat} (all : ∀ i < n, ∃ v, s.slot (start + i) = .ok v) :
    ∃ vs, slots s start n = .ok vs := by
  induction n generalizing start with
  | zero => exact ⟨[], rfl⟩
  | succ n ih =>
      obtain ⟨v, here⟩ := all 0 (Nat.succ_pos n)
      have next : ∀ i < n, ∃ v, s.slot (start + 1 + i) = .ok v := fun i inside => by
        rw [Nat.add_assoc, Nat.add_comm 1 i]
        exact all (i + 1) (Nat.succ_lt_succ inside)
      obtain ⟨vs, above⟩ := ih next
      exact ⟨v :: vs, by rw [slots, show s.slot start = .ok v from here, above]; rfl⟩

-- what the values are stored into afterwards
theorem stores_assigned {fs₁ : Func} {values : Machine P → Except Vm.Stop (List Value)} {tokens : List Token}
    (first : Behaves P frame size low code words fs (Ends frame size low values (Assigned frame low tokens.length)))
    (wider : Wider fs fs₁) (second : Does P frame size low words more fs₁ fun s =>
      slots s (frame.base + low) tokens.length >>= fun vs => storeAll env names frame.base (tokens.take tokens.length) vs s) :
    Does P frame size low code more fs₁ fun s =>
      values s >>= fun vs => storeAll env names frame.base tokens vs s := by
  refine ((first.wider wider).trans second).mono fun extended s result starts h => ?_
  show Agrees frame size low (values s >>= _) result
  unfold Ends at h
  cases value : values s with
  | error e =>
      simp only [value] at h
      rcases h with ⟨e', rfl, equal⟩ | ⟨s', wrong, -⟩
      · cases equal
        exact rfl
      · cases wrong
  | ok vs =>
      simp only [value] at h
      rcases h with ⟨e', -, s', wrong, -⟩ | ⟨s', ⟨_, ⟨⟩, above, assigned⟩, agrees⟩
      · cases wrong
      · obtain ⟨ws, held⟩ := slots_all fun i inside => ⟨_, Nat.add_assoc _ _ _ ▸ assigned i inside⟩
        have same : ∀ i < tokens.length, vs.getD i .nil = ws.getD i .nil := fun i inside => by
          have here := assigned i inside
          rw [← Nat.add_assoc, slots_get held inside] at here
          exact (Except.ok.inj here).symm
        rw [held, ok_bind, List.take_length, ← storeAll_congr _ same] at agrees
        exact (storeAll_above above _ _ vs).trans agrees

-- of two variables with two values the first is left out
def assignAll (env : Env) (names : List (List UInt8)) (base : Nat) (tokens : List Token) (values : List Node) (s : Machine P) :
    Except Vm.Stop (Machine P) := do
  let vs ← evaluateAll env names base s values
  if tokens.length = 2 ∧ values.length = 2 then storeAll env names base tokens.tail vs.tail s
  else storeAll env names base tokens vs s

-- with as many values as variables, the last value goes right into the last variable
variable (frame size) in
theorem lastStore_makes (interns : Interns P) (arithmetic : env.toArithmetic = P.toArithmetic) {tokens : List Token}
    {targets : List ExpDesc} (node : Node) (rest : List Node) (all : ∀ e ∈ node :: rest, isExpression env e = true)
    (length : tokens.length = rest.length + 1) (c : Compiler) (inScope : Scoped env names c.func)
    (are : Targets env names c.func tokens targets) (locals : c.func.numActiveLocalVars ≤ c.func.freeRegister) :
    Makes (do
      genExpList1 env (node :: rest)
      genStores targets (rest.length + 1)) c fun _ c' => c.func.freeRegister ≤ c'.func.freeRegister ∧
        Does P frame size c.func.freeRegister c.func.code c'.func.code c'.func
          (assignAll env names frame.base tokens (node :: rest)) := by
  refine .bind (genExpList1_computes frame size interns arithmetic node rest all c inScope locals) ?_
  rintro _ c₁ wider₁ ⟨ready, simulates⟩
  obtain ⟨target, found, is⟩ := (are.wider wider₁).get (show rest.length < tokens.length by omega)
  have count : targets.length = rest.length + 1 := (List.Forall₂.length_eq are).symm.trans length
  have last : targets.getLast? = some target := by
    rw [List.getLast?_eq_getElem?, count]
    exact found
  have single : Func.setoneret c₁.func.curExp = pure c₁.func.curExp := by
    have valid := ready.valid
    cases exp : c₁.func.curExp with
    | call | vararg =>
        rw [exp] at valid
        exact valid.elim
    | _ => rfl
  unfold genStores
  rw [if_neg (by omega), if_neg (by omega), last]
  dsimp only
  refine .bind (Makes.onExp (Emits.of_run (congrFun single c₁.func))) ?_
  rintro _ c₂ wider₂ ⟨fs₂, same₂, exp₂, rfl⟩
  have same : c₂.func = c₁.func := by rw [same₂, exp₂]
  have names₁ : names.length = c₁.func.numActiveLocalVars := inScope.count.trans wider₁.number.symm
  have stores : Emits (Func.storevar target c₂.func.curExp) c₂.func fun _ fs' =>
      fs'.freeRegister = c.func.freeRegister + rest.length ∧ Does P frame size (c.func.freeRegister + rest.length)
        (fixed c₁.func c₁.func.curExp) fs'.code fs' fun s => denote frame c₁.func c₁.func.curExp s >>= fun v =>
          store names frame.base (tokens[rest.length].slice env.source) v s := by
    rw [same]
    exact storevar_does P frame size is names₁ ready
  refine .bind (Makes.onExp stores) ?_
  rintro _ c₃ wider₃ ⟨fs₃, same₃, free₃, first⟩
  have wider := wider₁.trans (wider₂.trans wider₃)
  have free : c₃.func.freeRegister = c.func.freeRegister + rest.length := by rw [same₃, free₃]
  have code₃ : c₃.func.code = fs₃.code := by rw [same₃]
  have set₃ : Wider fs₃ c₃.func := by rw [same₃]; exact wider_setExp fs₃ _
  have whole : tokens = tokens.take rest.length ++ [tokens[rest.length]] := by
    rw [← List.take_succ_eq_append_getElem, ← length, List.take_length]
  refine Makes.roomy fun roomy₃ => ?_
  have room {fs' : Func} {s : Machine P} (wider' : Wider c₃.func fs') (extended : Extends frame size fs')
      (inside : frame.base + size ≤ s.stack.length) : frame.base + c.func.freeRegister + rest.length ≤ s.stack.length := by
    have := roomy₃.registers
    have := wider'.registers
    have := extended.registers
    omega
  by_cases pair : tokens.length = 2
  · have one : rest.length = 1 := by omega
    rw [count, one, if_pos rfl]
    refine .pure ⟨by omega, ?_⟩
    rw [code₃]
    have second := (first.wider set₃).lower (Nat.le_add_right c.func.freeRegister rest.length)
    refine (Simulates.does (k := fun vs => storeAll env names frame.base tokens.tail vs.tail)
      (Simulates.wider simulates (wider₂.trans wider₃)) le_rfl (second.congr ?_) ?_).congr ?_
    · intro extended s starts
      obtain ⟨vs, held⟩ := slots_inside (room (.refl _) extended starts.room)
      obtain ⟨next, rfl⟩ := List.length_eq_one_iff.mp one
      obtain ⟨left, right, rfl⟩ := List.length_eq_two.mp pair
      obtain ⟨w, rfl⟩ := List.length_eq_one_iff.mp (slots_length held)
      show Agrees frame size _ ((slots s (frame.base + c.func.freeRegister) [next].length >>= _) >>= _) _
      rw [held]
      cases denote frame c₁.func c₁.func.curExp s with
      | error e => exact rfl
      | ok v => exact agrees_refl _
    · exact fun vs s s' above => storeAll_above above _ _ _
    · intro extended s starts
      simp only [assignAll, List.length_cons, pair, one, and_self, if_true]
      exact agrees_refl _
  · have left : (if targets.length = 2 then 0 else targets.length - 1) = rest.length := by
      rw [count, if_neg (by omega), Nat.add_sub_cancel]
    rw [left]
    refine (storeFrom_does P frame size (are.wider wider) (show rest.length ≤ tokens.length by omega)
      (inScope.count.trans wider.number.symm) (wider.number.trans_le locals) free).mono ?_
    rintro _ c₄ wider₄ ⟨free₄, others⟩
    refine ⟨free₄.ge, ?_⟩
    rw [code₃] at others
    have second := (first.wider (set₃.trans wider₄)).trans (Nat.le_add_right _ _) others
      fun s s' above => storeSlots_above above _ _
    refine (Simulates.does (k := fun vs => storeAll env names frame.base tokens vs)
      (Simulates.wider simulates (wider₂.trans (wider₃.trans wider₄))) le_rfl (second.congr ?_) ?_).congr ?_
    · intro extended s starts
      have front : (tokens.take rest.length).length = rest.length := List.length_take_of_le (by omega)
      have known : frame.base + names.length ≤ frame.base + c.func.freeRegister :=
        Nat.add_le_add_left (inScope.count.trans_le locals) _
      have same := storeAll_last env (room wider₄ extended starts.room) front tokens[rest.length] known
        (denote frame c₁.func c₁.func.curExp s)
      rw [← whole] at same
      simp only [bind_assoc, pure_bind] at same ⊢
      rw [same]
      exact agrees_refl _
    · exact fun vs s s' above => storeAll_above above _ _ _
    · intro extended s starts
      simp only [assignAll, pair, false_and, if_false]
      exact agrees_refl _

variable (frame size) in
theorem genAssignment_makes (interns : Interns P) (arithmetic : env.toArithmetic = P.toArithmetic) {tokens : List Token}
    {values : List Node} (some : tokens ≠ []) (given : values ≠ []) (all : ∀ e ∈ values, isExpression env e = true)
    (c : Compiler) (inScope : Scoped env names c.func) (locals : c.func.numActiveLocalVars ≤ c.func.freeRegister) :
    Makes (genNode env (.assignmentStatement (tokens.map .identifier) values false)) c fun _ c' =>
      c.func.freeRegister ≤ c'.func.freeRegister ∧ Does P frame size c.func.freeRegister c.func.code c'.func.code c'.func
        (assignAll env names frame.base tokens values) := by
  cases values with
  | nil => exact (given rfl).elim
  | cons node rest =>
      rw [genNode]
      refine .bind (genTargets_names tokens c inScope) ?_
      rintro targets c₁ wider₁ ⟨are, code₁, free₁⟩
      have inScope₁ := inScope.wider wider₁
      have locals₁ : c₁.func.numActiveLocalVars ≤ c₁.func.freeRegister := by rw [wider₁.number, free₁]; exact locals
      have count : targets.length = tokens.length := (List.Forall₂.length_eq are).symm
      have one : tokens.length ≠ 0 := fun none => some (List.eq_nil_of_length_eq_zero none)
      rw [← free₁, ← code₁]
      by_cases equal : tokens.length = rest.length + 1
      · exact lastStore_makes frame size interns arithmetic node rest all equal c₁ inScope₁ are locals₁
      · have stores : genStores targets (rest.length + 1) = (do
            onExp (Func.adjustAssign tokens.length (rest.length + 1))
            dropRegisters (rest.length + 1 - tokens.length)
            storeFrom targets tokens.length) := by
          unfold genStores
          rw [count, if_neg one, if_pos (Ne.symm equal)]
        have regrouped : (do
            genExpList1 env (node :: rest)
            genStores targets (rest.length + 1)) = (do
              (do
                genExpList1 env (node :: rest)
                onExp (Func.adjustAssign tokens.length (rest.length + 1)))
              dropRegisters (rest.length + 1 - tokens.length)
              storeFrom targets tokens.length) := by
          rw [stores]
          simp only [bind_assoc]
        show Makes (do
          genExpList1 env (node :: rest)
          genStores targets (rest.length + 1)) c₁ _
        rw [regrouped]
        refine .bind (adjusted_makes frame size interns arithmetic tokens.length node rest all c₁ inScope₁ locals₁) ?_
        rintro _ c₂ wider₂ ⟨free₂, assigned⟩
        refine .bind (dropRegisters_makes (by omega)) ?_
        rintro _ c₃ wider₃ same₃
        have wider := wider₂.trans wider₃
        have free₃ : c₃.func.freeRegister = c₁.func.freeRegister + tokens.length := by
          rw [same₃]
          show c₂.func.freeRegister - _ = _
          omega
        have code₃ : c₃.func.code = c₂.func.code := by rw [same₃]
        refine (storeFrom_does P frame size (are.wider wider) le_rfl (inScope₁.count.trans wider.number.symm)
          (wider.number.trans_le locals₁) free₃).mono ?_
        rintro _ c₄ wider₄ ⟨free₄, second⟩
        rw [code₃] at second
        refine ⟨free₄.ge, (stores_assigned assigned (wider₃.trans wider₄) second).congr fun extended s starts => ?_⟩
        have apart : ¬(tokens.length = 2 ∧ (node :: rest).length = 2) := fun both => equal (both.1.trans both.2.symm)
        simp only [assignAll, apart, if_false]
        exact agrees_refl _

-- `a, b, x = not x`
def severalNames : List Token := [⟨.name, 0, 1, 1, none⟩, ⟨.name, 1, 2, 1, none⟩, ⟨.name, 4, 5, 1, none⟩]


end Zua.Run
