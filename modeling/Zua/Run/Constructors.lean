import Zua.Compile.Accepted
import Zua.Object.Border
import Zua.Run.Assignments

/-!
# Table constructors

The fields are worked off from the first to the last. A value without a key waits in the registers behind the table
until fifty of them are stored at once; a value with a key is stored when it is there.
-/

namespace Zua.Run
open Code Object Compile Vm Syntax
open Memory (Constant)
open Zua.Lex (Token ch)

variable {P : Platform} {frame : Frame} {size low mid : Nat} {fs fs' : Func} {e : ExpDesc} {c c' : Compiler} {env : Env}
  {names : List (List UInt8)} {code words more : List Word}

/-! ## What a constructor does -/

-- under the integers behind the first `stored`
def storeValues (a : Addr) : Nat → List Value → Machine P → Except Vm.Stop (Machine P)
  | _, [], s => .ok s
  | stored, v :: vs, s => do
      let s ← s.tableSet a (.number (F64.floatFromInt (stored + 1))) v
      storeValues a (stored + 1) vs s

def tableIn (s : Machine P) (base t : Nat) : Except Vm.Stop Addr := do
  let v ← s.slot (base + t)
  expectTable v

def flushValues (base t stored : Nat) : List Value → Machine P → Except Vm.Stop (Machine P)
  | [], s => .ok s
  | v :: vs, s => do
      let a ← tableIn s base t
      storeValues a stored (v :: vs) s

section

variable (env : Env) (names : List (List UInt8)) (base t : Nat)

-- `vs` are the values that wait
def performField (field : Node) (vs : List Value) (s : Machine P)
    (rest : List Value → Machine P → Except Vm.Stop (Machine P)) : Except Vm.Stop (Machine P) :=
  match field with
  | .tableField none value => do
      let v ← evaluate env names base s value
      rest (vs ++ [v]) s
  | .tableField (some key) value => do
      let k ← evaluate env names base s key
      let v ← evaluate env names base s value
      let a ← tableIn s base t
      let s ← s.tableSet a k v
      rest vs s
  | _ => .error .panic

def performFields : List Node → Nat → List Value → Machine P → Except Vm.Stop (Machine P)
  | [], stored, vs, s => flushValues base t stored vs s
  | field :: fields, stored, vs, s =>
      if 50 ≤ vs.length then do
        let s ← flushValues base t stored vs s
        performField env names base t field [] s (performFields fields (stored + vs.length))
      else performField env names base t field vs s (performFields fields stored)

def newTable (base t : Nat) (s : Machine P) : Except Vm.Stop (Machine P) :=
  ({ s with tables := s.tables ++ [Table.init P.hashMap] } : Machine P).setSlot (base + t) (.table s.tables.length)

def construct (fields : List Node) (s : Machine P) : Except Vm.Stop (Machine P) := do
  let s ← newTable base t s
  performFields env names base t fields 0 [] s

end

def isField (env : Env) : Node → Bool
  | .tableField none value => isExpression env value
  | .tableField (some key) value => isExpression env key && isExpression env value
  | _ => false

def isPositional : Node → Bool
  | .tableField none _ => true
  | _ => false

/-! ## Only the registers of the table and of the locals matter -/

theorem storeValues_append (a : Addr) (stored : Nat) (vs ws : List Value) (s : Machine P) :
    storeValues a stored (vs ++ ws) s = (do
      let s ← storeValues a stored vs s
      storeValues a (stored + vs.length) ws s) := by
  induction vs generalizing stored s with
  | nil => rfl
  | cons v vs ih =>
      simp only [List.cons_append, storeValues, bind_assoc, List.length_cons]
      refine bind_congr fun s' => ?_
      rw [ih, Nat.add_assoc, Nat.add_comm 1]

theorem storeValues_stack {s s' : Machine P} {a stored : Nat} {vs : List Value}
    (run : storeValues a stored vs s = .ok s') : s' = { s with tables := s'.tables } := by
  induction vs generalizing stored s with
  | nil =>
      cases run
      rfl
  | cons v vs ih =>
      obtain ⟨t, set, rest⟩ := bind_ok.mp run
      have first := tableSet_stack set
      have second := ih rest
      rw [second, first]

-- the values are taken from their registers one after the other
theorem setList_values {s : Machine P} {a start src n : Nat} {vs : List Value} (read : slots s src n = .ok vs) :
    setList s a start src n = storeValues a start vs s := by
  induction n generalizing vs with
  | zero =>
      cases read
      rfl
  | succ n ih =>
      rw [slots_concat] at read
      obtain ⟨front, before, rest⟩ := bind_ok.mp read
      obtain ⟨v, last, ⟨⟩⟩ := bind_ok.mp rest
      rw [storeValues_append, setList, ih before, slots_length before]
      cases stored : storeValues a start front s with
      | error e => rfl
      | ok s' =>
          have stack : s'.stack = s.stack := by rw [storeValues_stack stored]
          have here : s'.slot (src + n) = .ok v := by
            unfold Machine.slot at last ⊢
            rw [stack]
            exact last
          simp only [ok_bind, here, storeValues]
          cases s'.tableSet a _ v <;> rfl

theorem tableIn_steady {s s' : Machine P} {t : Nat} (above : Above frame size low s s') (below : t < low) :
    tableIn s' frame.base t = tableIn s frame.base t := by
  unfold tableIn
  rw [above.slot below]

theorem storeValues_above {s s' : Machine P} (above : Above frame size low s s') (a stored : Nat) (vs : List Value) :
    Agrees frame size low (storeValues a stored vs s) (storeValues a stored vs s') := by
  induction vs generalizing stored s s' with
  | nil => exact above
  | cons v vs ih => exact (tableSet_above above a _ v).bind fun t t' above' => ih above' (stored + 1)

theorem flushValues_above {s s' : Machine P} {t : Nat} (above : Above frame size low s s') (below : t < low) (stored : Nat)
    (vs : List Value) :
    Agrees frame size low (flushValues frame.base t stored vs s) (flushValues frame.base t stored vs s') := by
  cases vs with
  | nil => exact above
  | cons v vs =>
      simp only [flushValues, tableIn_steady above below]
      cases tableIn s frame.base t with
      | error e => exact rfl
      | ok a => exact storeValues_above above a stored _

theorem performField_above {s s' : Machine P} {t : Nat} (above : Above frame size mid s s') (known : names.length ≤ mid)
    (below : t < mid) (field : Node) (vs : List Value) {rest : List Value → Machine P → Except Vm.Stop (Machine P)}
    (steady : ∀ vs s s', Above frame size mid s s' → Agrees frame size low (rest vs s) (rest vs s')) :
    Agrees frame size low (performField env names frame.base t field vs s rest)
      (performField env names frame.base t field vs s' rest) := by
  unfold performField
  split
  · rw [evaluate_steady known above]
    cases evaluate env names frame.base s _ with
    | error e => exact rfl
    | ok v => exact steady _ s s' above
  · rw [evaluate_steady known above, evaluate_steady known above, tableIn_steady above below]
    cases evaluate env names frame.base s _ with
    | error e => exact rfl
    | ok k =>
        cases evaluate env names frame.base s _ with
        | error e => exact rfl
        | ok v =>
            cases tableIn s frame.base t with
            | error e => exact rfl
            | ok a => exact (tableSet_above above a k v).bind fun u u' above' => steady vs u u' above'
  · exact rfl

theorem performFields_above {s s' : Machine P} {t : Nat} (above : Above frame size low s s') (known : names.length ≤ low)
    (below : t < low) (fields : List Node) (stored : Nat) (vs : List Value) :
    Agrees frame size low (performFields env names frame.base t fields stored vs s)
      (performFields env names frame.base t fields stored vs s') := by
  induction fields generalizing stored vs s s' with
  | nil => exact flushValues_above above below stored vs
  | cons field fields ih =>
      unfold performFields
      split
      · refine (flushValues_above above below stored vs).bind fun u u' above' => ?_
        exact performField_above above' known below field [] fun ws v v' still => ih still _ ws
      · exact performField_above above known below field vs fun ws v v' still => ih still _ ws

/-! ## Single instructions -/

-- an instruction that the next one follows
theorem single_does {i : Instruction} {f : Machine P → Except Vm.Stop (Machine P)} (low : Nat) (code : List Word)
    (fits : i.Fits)
    (step : Extends frame size fs → ∀ s : Machine P, frame.base + size ≤ s.stack.length → ∀ execute host pc,
      exec execute host frame pc i s = (do
        let s ← f s
        return .next s (pc + 1)))
    (kept : ∀ s s', f s = .ok s' → s'.stack.length = s.stack.length) :
    Does P frame size low code (code ++ [.instr i]) fs f := by
  refine ⟨[i], rfl, fun extended host s pc located starts => ⟨f s, ?_, ⟨kept s, ?_⟩, agrees_refl _⟩⟩
  · exact .exec (located.read fits) fun execute => step extended s starts.room execute host pc
  · intro none
    cases none

theorem newtable_does {t b' c' : Nat} (low : Nat) (code : List Word) (inside : t < fs.maxStackSize.val) (fits : b' < 512)
    (fits' : c' < 512) : Does P frame size low code (code ++ [.instr ⟨.newtable, t, b', c'⟩]) fs (newTable frame.base t) := by
  have limit := fs.maxStackSize.lt
  have small : Code.maxStackSize = 250 := rfl
  refine single_does low code ⟨?_, fits, fits'⟩ (fun _ s _ execute host pc => rfl) ?_
  · show t < 256
    omega
  · intro s s' run
    unfold newTable Machine.setSlot at run
    split at run
    · cases run
      exact List.length_set
    · cases run

theorem settable_does {t k v : Nat} (low : Nat) (code : List Word) (inside : t < fs.maxStackSize.val)
    (key : Operand fs.maxStackSize.val fs.constants k) (value : Operand fs.maxStackSize.val fs.constants v) :
    Does P frame size low code (code ++ [.instr ⟨.settable, t, k, v⟩]) fs (fun s => do
      let key ← operandOf P frame k s
      let value ← operandOf P frame v s
      let a ← tableIn s frame.base t
      s.tableSet a key value) := by
  have limit := fs.maxStackSize.lt
  have small : Code.maxStackSize = 250 := rfl
  refine single_does low code ⟨?_, Operand.small key, Operand.small value⟩ ?_ ?_
  · show t < 256
    omega
  · intro extended s room execute host pc
    obtain ⟨w, here⟩ := slot_inside (s := s) (k := frame.base + t) (by
      have := extended.registers
      omega)
    obtain ⟨key', there⟩ := operand_there key extended s room
    obtain ⟨value', there'⟩ := operand_there value extended s room
    simp only [exec, operandOf, tableIn, here, there, there', ok_bind, bind_assoc]
  · intro s s' run
    obtain ⟨_, -, run⟩ := bind_ok.mp run
    obtain ⟨_, -, run⟩ := bind_ok.mp run
    obtain ⟨_, -, run⟩ := bind_ok.mp run
    rw [tableSet_stack run]

-- `batch` counts from one
theorem setlist_does {t n batch : Nat} (low : Nat) (code : List Word) (some : 0 < n) (values : t + n < fs.maxStackSize.val)
    (first : 0 < batch) (last : batch < 512) :
    Does P frame size low code (code ++ [.instr ⟨.setlist, t, n, batch⟩]) fs (fun s => do
      let vs ← slots s (frame.base + (t + 1)) n
      flushValues frame.base t ((batch - 1) * 50) vs s) := by
  have limit := fs.maxStackSize.lt
  have small : Code.maxStackSize = 250 := rfl
  refine single_does low code ⟨?_, ?_, last⟩ ?_ ?_
  · show t < 256
    omega
  · show n < 512
    omega
  · intro extended s room execute host pc
    have registers := extended.registers
    obtain ⟨vs, read⟩ := slots_inside (show frame.base + (t + 1) + n ≤ s.stack.length by omega)
    have length := slots_length read
    obtain ⟨v, vs, rfl⟩ := List.exists_cons_of_length_pos (length ▸ some)
    rw [read, ok_bind]
    simp only [exec, execSetlist, if_neg first.ne', flushValues, tableIn, bind_assoc]
    refine bind_congr fun table => bind_congr fun a => ?_
    rw [Nat.add_assoc, setList_values read]
  · intro s s' run
    obtain ⟨vs, -, run⟩ := bind_ok.mp run
    cases vs with
    | nil =>
        cases run
        rfl
    | cons v vs =>
        obtain ⟨a, -, run⟩ := bind_ok.mp run
        rw [storeValues_stack run]

/-! ## Fields with keys -/

-- the value is in an operand
structure Loaded (P : Platform) (frame : Frame) (size low : Nat) (code : List Word) (fs : Func) (rk : Nat)
    (value : Machine P → Except Vm.Stop Value) : Prop where
  operand : Operand fs.maxStackSize.val fs.constants rk
  locals : fs.numActiveLocalVars ≤ low
  free : low ≤ fs.freeRegister
  steady : ∀ s s' : Machine P, Above frame size fs.freeRegister s s' → operandOf P frame rk s' = operandOf P frame rk s
  simulates : Simulates frame size code fs.code low fs value (operandOf P frame rk)

theorem exp2RK_computes {value : Machine P → Except Vm.Stop Value} (computes : Computes P frame size low code c value) :
    Makes (onExpReg Func.exp2RK) c fun rk c' => Loaded P frame size low code c'.func rk value := by
  refine (Makes.onExpReg (exp2RK_emits P frame size computes.ready)).mono ?_
  rintro rk c' wider ⟨fs, same, fetched, moves⟩
  have locals : fs.numActiveLocalVars ≤ low := by
    have number := wider.number
    rw [same] at number
    exact number.trans_le computes.ready.locals
  have simulates := (computes.simulates.wider (wider.described same)).trans moves
  rw [Waits.fixed (Func.AsRK.waits fetched.asRK)] at simulates
  rw [same]
  refine ⟨fetched.operand, locals, ?_, fun s s' above => fetched.steady locals above, ?_⟩
  · show low ≤ fs.freeRegister
    rcases Func.AsRK.cases fetched.asRK with free | ⟨-, free⟩ <;> omega
  · refine Simulates.wider ?_ (wider_setExp fs _)
    exact simulates.congr fun extended s _ => fetched.agrees extended s

-- the first operand stays while the second one is loaded
theorem Loaded.both {k v : Nat} {key value : Machine P → Except Vm.Stop Value} (first : Loaded P frame size low code fs k key)
    (steady : ∀ s s', Above frame size low s s' → value s' = value s) (wider : Wider fs fs')
    (second : Loaded P frame size fs.freeRegister fs.code fs' v value) :
    Simulates frame size code fs'.code low fs' (fun s => do
      let a ← key s
      let b ← value s
      return (a, b)) (fun s => do
      let a ← operandOf P frame k s
      let b ← operandOf P frame v s
      return (a, b)) := by
  have start := (first.simulates.bind (fun a s => do
    let b ← value s
    return (a, b)) ?_).wider wider
  · refine start.trans ((second.simulates.beside ?_ first.steady (fun a b _ => .ok (a, b)) fun _ _ _ _ _ => rfl).mono
      first.free)
    exact fun extended s room => operand_there first.operand (extended.narrow wider) s room
  · intro a s s' above
    rw [steady s s' above]

-- the code of a key and a value, and the store into the table below them
theorem stores_field {t k v : Nat} {key value : Machine P → Except Vm.Stop Value} (below : t < low)
    (inside : t < fs'.maxStackSize.val) (first : Loaded P frame size low code fs k key)
    (steady : ∀ s s', Above frame size low s s' → value s' = value s) (wider : Wider fs fs')
    (second : Loaded P frame size fs.freeRegister fs.code fs' v value) :
    Does P frame size low code (fs'.code ++ [.instr ⟨.settable, t, k, v⟩]) fs' (fun s => do
      let a ← key s
      let b ← value s
      let table ← tableIn s frame.base t
      s.tableSet table a b) := by
  have operand := first.operand.mono wider.registers wider.constants
  have stored : Does P frame size low fs'.code _ fs' _ := settable_does low fs'.code inside operand second.operand
  have whole := (first.both steady wider second).does (k := fun both s => do
    let table ← tableIn s frame.base t
    s.tableSet table both.1 both.2) le_rfl (stored.congr ?_) ?_
  · refine whole.congr fun _ s _ => ?_
    simp only [bind_assoc, pure_bind]
    exact agrees_refl _
  · intro _ s _
    simp only [bind_assoc, pure_bind]
    exact agrees_refl _
  · intro both s s' above
    rw [tableIn_steady above below]
    cases tableIn s frame.base t with
    | error e => exact rfl
    | ok a => exact tableSet_above above a _ _

theorem setRegister_makes {n : Nat} (le : n ≤ c.func.maxStackSize.val) :
    Makes (onFunc (modify fun fs => { fs with freeRegister := n })) c fun _ c' =>
      c'.func = { c.func with freeRegister := n } :=
  fun roomy => sat_onFunc (Sat.modify ⟨⟨le, roomy.constants⟩, ⟨le_rfl, List.prefix_rfl, rfl, rfl, rfl⟩, rfl⟩)

theorem storeField_makes {t k n : Nat} {key value : Machine P → Except Vm.Stop Value} (below : t < low)
    (room : n ≤ c.func.maxStackSize.val) (inside : t < c.func.maxStackSize.val)
    (first : Loaded P frame size low code fs k key) (steady : ∀ s s', Above frame size low s s' → value s' = value s)
    (wider : Wider fs c.func) (computes : Computes P frame size fs.freeRegister fs.code c value) :
    Makes (storeField t n k) c fun _ c' => c'.func.freeRegister = n ∧
      Does P frame size low code c'.func.code c'.func (fun s => do
        let a ← key s
        let b ← value s
        let table ← tableIn s frame.base t
        s.tableSet table a b) := by
  refine .bind (exp2RK_computes computes) ?_
  rintro v c₁ wider₁ second
  have does := stores_field below (inside.trans_le wider₁.registers) first steady (wider.trans wider₁) second
  refine .bind (.onFunc (emitInstruction_emits _)) ?_
  rintro index c₂ wider₂ ⟨-, -, same₂⟩
  refine (setRegister_makes (room.trans (wider₁.registers.trans wider₂.registers))).mono ?_
  rintro _ c₃ wider₃ same₃
  have code : c₃.func.code = c₁.func.code ++ [.instr ⟨.settable, t, k, v⟩] := by rw [same₃, same₂]
  refine ⟨by rw [same₃], ?_⟩
  rw [code]
  exact does.wider (wider₂.trans wider₃)

variable (frame size) in
theorem keyField_makes (interns : Interns P) (arithmetic : env.toArithmetic = P.toArithmetic) {key value : Node}
    (isKey : isExpression env key = true) (isValue : isExpression env value = true) {t : Nat} (c : Compiler)
    (inScope : Scoped env names c.func) (locals : c.func.numActiveLocalVars ≤ c.func.freeRegister)
    (table : c.func.curExp = .nonreloc t) (below : t < c.func.freeRegister) :
    Makes (genTableField env (.tableField (some key) value)) c fun positional c' =>
      positional = false ∧ c'.func.freeRegister = c.func.freeRegister ∧
        Does P frame size c.func.freeRegister c.func.code c'.func.code c'.func (fun s => do
          let k ← evaluate env names frame.base s key
          let v ← evaluate env names frame.base s value
          let a ← tableIn s frame.base t
          s.tableSet a k v) := by
  have known : names.length ≤ c.func.freeRegister := inScope.count.trans_le locals
  rw [genTableField]
  refine Makes.roomy fun roomy => .getFunc ?_
  have register : Makes (registerOf c.func.curExp : CompileM Nat) c fun r c' => r = t ∧ c' = c := by
    rw [table]
    exact .pure ⟨rfl, rfl⟩
  refine .bind register ?_
  rintro r c₀ - ⟨found, unchanged⟩
  rw [unchanged, found]
  refine .bind (genNode_computes frame size interns arithmetic key isKey c inScope locals) ?_
  rintro _ c₁ wider₁ computes
  refine .bind (exp2RK_computes computes) ?_
  rintro k c₂ wider₂ first
  have inScope₂ := (inScope.wider wider₁).wider wider₂
  refine .bind (genNode_computes frame size interns arithmetic value isValue c₂ inScope₂ (first.locals.trans first.free)) ?_
  rintro _ c₃ wider₃ computes
  have room := roomy.registers.trans ((wider₁.trans wider₂).trans wider₃).registers
  refine .bind (storeField_makes below room (below.trans_le room) first
    (fun s s' above => evaluate_steady known above value) wider₃ computes) ?_
  rintro _ c₄ - ⟨free, does⟩
  exact .pure ⟨rfl, free, does⟩

/-! ## Values that wait -/

-- the values in the registers behind the table, and the one that is only described
def waiting (frame : Frame) (fs : Func) (t m : Nat) (e : ExpDesc) (s : Machine P) : Except Vm.Stop (List Value) :=
  match e with
  | .void => slots s (frame.base + (t + 1)) m
  | e => do
      let v ← denote frame fs e s
      let vs ← slots s (frame.base + (t + 1)) m
      return vs ++ [v]

-- `stored` values are in the table and `m` are in registers
structure Between (env : Env) (names : List (List UInt8)) (t m stored : Nat) (st : FieldState) (fs : Func) : Prop where
  inScope : Scoped env names fs
  locals : fs.numActiveLocalVars ≤ t
  table : fs.curExp = .nonreloc t
  count : st.numArrayValues = stored + st.unflushed
  batches : ∃ q, stored = q * 50
  few : m < 50
  waits : st.arrayValueExp = .void ∧ st.unflushed = m ∧ fs.freeRegister = t + 1 + m ∨
    Ready (t + 1 + m) fs st.arrayValueExp ∧ st.unflushed = m + 1

theorem waiting_ready {t m : Nat} (ready : Ready low fs e) (s : Machine P) : waiting frame fs t m e s = (do
    let v ← denote frame fs e s
    let vs ← slots s (frame.base + (t + 1)) m
    return vs ++ [v]) := by
  cases e with
  | void => exact ready.valid.elim
  | _ => rfl

-- the registers from `low` on do not matter
def Respects (frame : Frame) (size low : Nat) (g : List Value → Machine P → Except Vm.Stop (Machine P)) : Prop :=
  ∀ vs s s', Above frame size low s s' → Agrees frame size low (g vs s) (g vs s')

theorem Respects.read {g : List Value → Machine P → Except Vm.Stop (Machine P)} {t m : Nat} {s s' : Machine P}
    (steady : Respects frame size (t + 1) g) (above : Above frame size (t + 1 + m) s s') :
    Agrees frame size (t + 1) (slots s (frame.base + (t + 1)) m >>= fun vs => g vs s)
      (slots s' (frame.base + (t + 1)) m >>= fun vs => g vs s') := by
  rw [slots_steady above (Nat.le_refl (t + 1 + m))]
  cases slots s (frame.base + (t + 1)) m with
  | error e => exact rfl
  | ok vs => exact steady vs s s' (above.mono (Nat.le_add_right _ m))

theorem Respects.append {g : List Value → Machine P → Except Vm.Stop (Machine P)} (steady : Respects frame size low g)
    (more : List Value) : Respects frame size low fun vs => g (vs ++ more) := fun vs => steady (vs ++ more)

-- what waits in a description is loaded behind the other values
theorem load_does {t m : Nat} {g : List Value → Machine P → Except Vm.Stop (Machine P)} {fs'' : Func}
    (moves : Moves P frame size (t + 1 + m) fs e fs' (.nonreloc (t + 1 + m))) (upper : t + 1 + m < fs'.maxStackSize.val)
    (wider : Wider fs' fs'')
    (steady : Respects frame size (t + 1) g)
    (rest : Does P frame size (t + 1) fs'.code more fs'' fun s => slots s (frame.base + (t + 1)) (m + 1) >>= fun vs => g vs s) :
    Does P frame size (t + 1) (fixed fs e) more fs'' fun s => denote frame fs e s >>= fun v =>
      slots s (frame.base + (t + 1)) m >>= fun vs => g (vs ++ [v]) s := by
  refine Simulates.does (k := fun v s => slots s (frame.base + (t + 1)) m >>= fun vs => g (vs ++ [v]) s)
    (Simulates.wider moves wider) (Nat.le_add_right _ m) (rest.congr ?_) ?_
  · intro extended s starts
    have registers := (extended.narrow wider).registers
    have room := starts.room
    obtain ⟨vs, read⟩ := slots_inside (show frame.base + (t + 1) + m ≤ s.stack.length by omega)
    obtain ⟨v, here⟩ := slot_inside (s := s) (k := frame.base + (t + 1 + m)) (by omega)
    have last : s.slot (frame.base + (t + 1) + m) = .ok v := by rwa [Nat.add_assoc]
    simp only [denote, here, read, ok_bind, slots_concat, last, pure_bind]
    exact agrees_refl _
  · exact fun v s s' above => (steady.append [v]).read above

variable (P frame size) in
theorem setlist_makes {t n stored total : Nat} (count : total = stored + n) (batches : ∃ q, stored = q * 50) (positive : 0 < n)
    (most : n ≤ 50) (few : total ≤ 511 * 50) (upper : t + n < c.func.maxStackSize.val) :
    Makes (onFunc (Func.setlist t total (some n))) c fun _ c' =>
      c'.func.curExp = c.func.curExp ∧ c'.func.freeRegister = t + 1 ∧
        Does P frame size (t + 1) c.func.code c'.func.code c'.func fun s =>
          slots s (frame.base + (t + 1)) n >>= fun vs => flushValues frame.base t stored vs s := by
  obtain ⟨q, rfl⟩ := batches
  have batch : Func.numValuesToFlushBatchNum total = q + 1 := by
    show (total - 1) / 50 + 1 = q + 1
    omega
  have emits : Emits (Func.setlist t total (some n)) c.func fun _ fs' => fs' = { c.func with
      code := c.func.code ++ [.instr ⟨.setlist, t, n, q + 1⟩]
      freeRegister := t + 1 } := by
    unfold Func.setlist Func.emitSetlist
    rw [batch, if_pos (show q + 1 ≤ 511 by omega)]
    refine .bind (emitInstruction_emits _) ?_
    rintro _ fs' - ⟨-, rfl⟩
    exact fun roomy => Sat.modify ⟨⟨by dsimp only; omega, roomy.constants⟩, ⟨le_rfl, List.prefix_rfl, rfl, rfl, rfl⟩, rfl, rfl⟩
  refine (Makes.onFunc emits).mono ?_
  rintro _ c' wider ⟨exp, same⟩
  refine ⟨exp, by rw [same], ?_⟩
  have does : Does P frame size (t + 1) c.func.code _ c.func _ := setlist_does (t + 1) c.func.code positive upper
    (Nat.succ_pos q) (show q + 1 < 512 by omega)
  rw [Nat.succ_sub_one] at does
  rw [same]
  exact does.wider ⟨le_rfl, List.prefix_rfl, rfl, rfl, rfl⟩

section Flushing

variable {t m stored : Nat} {st : FieldState}

theorem Between.void (between : Between env names t m stored st fs) (void : st.arrayValueExp = .void) :
    st.unflushed = m ∧ fs.freeRegister = t + 1 + m := by
  rcases between.waits with ⟨-, count, free⟩ | ⟨ready, -⟩
  · exact ⟨count, free⟩
  · rw [void] at ready
    exact ready.valid.elim

-- the state behind a load
theorem Between.loaded (between : Between env names t m stored st fs) (pending : st.unflushed = m + 1) (more : m + 1 < 50)
    (wider : Wider fs fs') (exp : fs'.curExp = fs.curExp) (free : fs'.freeRegister = t + 1 + m + 1) :
    Between env names t (m + 1) stored { st with arrayValueExp := .void } fs' where
  inScope := between.inScope.wider wider
  locals := wider.number.trans_le between.locals
  table := exp.trans between.table
  count := between.count
  batches := between.batches
  few := more
  waits := .inl ⟨rfl, pending, by rw [free, Nat.add_assoc]⟩

theorem Between.flushed (between : Between env names t m stored st fs) (pending : st.unflushed = m + 1) (full : m + 1 = 50)
    (wider : Wider fs fs') (exp : fs'.curExp = fs.curExp) (free : fs'.freeRegister = t + 1) :
    Between env names t 0 (stored + (m + 1)) { st with arrayValueExp := .void, unflushed := 0 } fs' where
  inScope := between.inScope.wider wider
  locals := wider.number.trans_le between.locals
  table := exp.trans between.table
  count := by
    have count := between.count
    rw [pending] at count
    exact count
  batches := by
    obtain ⟨q, rfl⟩ := between.batches
    exact ⟨q + 1, by omega⟩
  few := Nat.succ_pos 49
  waits := .inl ⟨rfl, rfl, free⟩

theorem flushField_ready (ready : Ready low fs st.arrayValueExp) : flushField t st = (do
    let _ ← onFunc (Func.exp2nextreg st.arrayValueExp)
    if Func.fieldsPerFlush ≤ st.unflushed then
      onFunc (Func.setlist t st.numArrayValues (some st.unflushed))
      return { st with arrayValueExp := .void, unflushed := 0 }
    else return { st with arrayValueExp := .void }) := by
  unfold flushField
  cases is : st.arrayValueExp with
  | void =>
      rw [is] at ready
      exact ready.valid.elim
  | _ => rfl

-- a batch is stored before more is done
def flushing (base t stored : Nat) (h : Nat → List Value → Machine P → Except Vm.Stop (Machine P)) (vs : List Value)
    (s : Machine P) : Except Vm.Stop (Machine P) :=
  if 50 ≤ vs.length then do
    let s ← flushValues base t stored vs s
    h (stored + vs.length) [] s
  else h stored vs s

variable {h : Nat → List Value → Machine P → Except Vm.Stop (Machine P)}

theorem flushing_above
    (steady : ∀ stored, Respects frame size (t + 1) (h stored)) : Respects frame size (t + 1) (flushing frame.base t stored h) := by
  intro vs s s' above
  unfold flushing
  split
  · exact (flushValues_above above (Nat.lt_succ_self t) stored vs).bind fun u u' above' => steady _ [] u u' above'
  · exact steady _ vs s s' above

-- in front of a field nothing is left in a description, and less than a batch in the registers
variable (P frame size) in
theorem flushField_makes (between : Between env names t m stored st c.func) (limit : st.numArrayValues ≤ 511 * 50) :
    Makes (flushField t st) c fun st' c' => st'.numArrayValues = st.numArrayValues ∧ st'.arrayValueExp = .void ∧
      ∃ m' stored', Between env names t m' stored' st' c'.func ∧
        ∀ (h : Nat → List Value → Machine P → Except Vm.Stop (Machine P)) (more : List Word) (fs'' : Func),
          (∀ stored, Respects frame size (t + 1) (h stored)) → Wider c'.func fs'' →
          Does P frame size (t + 1) c'.func.code more fs'' (fun s =>
            slots s (frame.base + (t + 1)) m' >>= fun vs => h stored' vs s) →
          Does P frame size (t + 1) (fixed c.func st.arrayValueExp) more fs'' fun s =>
            waiting frame c.func t m st.arrayValueExp s >>= fun vs => flushing frame.base t stored h vs s := by
  have few := between.few
  rcases between.waits with ⟨void, -, free⟩ | ⟨ready, pending⟩
  · unfold flushField
    rw [void]
    refine .pure ⟨rfl, void, m, stored, between, fun h more fs'' steady wider does => does.congr fun extended s starts => ?_⟩
    simp only [waiting]
    cases read : slots s (frame.base + (t + 1)) m with
    | error e => exact rfl
    | ok vs =>
        rw [ok_bind, ok_bind, flushing, if_neg (by rw [slots_length read]; omega)]
        exact agrees_refl _
  · rw [flushField_ready ready]
    refine .bind (.onFunc (exp2nextreg_emits P frame size ready)) ?_
    rintro _ c₁ wider₁ ⟨exp₁, -, free₁, moves⟩
    refine Makes.roomy fun roomy => ?_
    have upper : t + 1 + m < c₁.func.maxStackSize.val := by
      have := roomy.registers
      omega
    have loaded (h : Nat → List Value → Machine P → Except Vm.Stop (Machine P)) (more : List Word) (fs'' : Func)
        (steady : ∀ stored, Respects frame size (t + 1) (h stored))
        (wider : Wider c₁.func fs'') (does : Does P frame size (t + 1) c₁.func.code more fs'' fun s =>
          slots s (frame.base + (t + 1)) (m + 1) >>= fun vs => flushing frame.base t stored h vs s) :
        Does P frame size (t + 1) (fixed c.func st.arrayValueExp) more fs'' fun s =>
          waiting frame c.func t m st.arrayValueExp s >>= fun vs => flushing frame.base t stored h vs s := by
      refine (load_does moves upper wider (flushing_above steady) does).congr fun _ s _ => ?_
      simp only [waiting_ready ready, bind_assoc, pure_bind]
      exact agrees_refl _
    split
    · rename_i full
      have fifty : m + 1 = 50 := by
        have : 50 ≤ st.unflushed := full
        omega
      rw [pending]
      refine .bind (setlist_makes P frame size (pending ▸ between.count) between.batches (Nat.succ_pos m)
        fifty.le limit (by omega)) ?_
      rintro _ c₂ wider₂ ⟨exp₂, free₂, stores⟩
      refine .pure ⟨rfl, rfl, 0, stored + (m + 1),
        between.flushed pending fifty (wider₁.trans wider₂) (exp₂.trans exp₁) free₂, fun h more fs'' steady wider does => ?_⟩
      refine loaded h more fs'' steady (wider₂.trans wider) ?_
      refine ((stores.wider wider).trans le_rfl does fun s s' above => ?_).congr fun _ s _ => ?_
      · exact steady _ [] s s' above
      · cases read : slots s (frame.base + (t + 1)) (m + 1) with
        | error e => exact rfl
        | ok vs =>
            have length := slots_length read
            simp only [ok_bind, flushing, slots, length]
            rw [if_pos (show 50 ≤ m + 1 by omega)]
            exact agrees_refl _
    · rename_i room
      have more : m + 1 < 50 := by
        have : ¬50 ≤ st.unflushed := room
        omega
      refine .pure ⟨rfl, rfl, m + 1, stored, between.loaded pending more wider₁ exp₁ free₁, fun h more fs'' steady wider does => ?_⟩
      refine loaded h more fs'' steady wider (does.congr fun _ s _ => ?_)
      cases read : slots s (frame.base + (t + 1)) (m + 1) with
      | error e => exact rfl
      | ok vs =>
          rw [ok_bind, ok_bind, flushing, if_neg (by rw [slots_length read]; omega)]
          exact agrees_refl _

theorem ready_single (ready : Ready low fs e) : e.hasmultret = false := by
  cases e with
  | call | vararg => exact ready.valid.elim
  | _ => rfl

variable (P frame size) in
theorem exp2nextregUnlessVoid_emits (ready : Ready low fs e) : Emits (Func.exp2nextregUnlessVoid e) fs fun _ fs' =>
    fs'.freeRegister = low + 1 ∧ Moves P frame size low fs e fs' (.nonreloc low) := by
  have loads : Emits (Func.exp2nextreg e >>= fun result => Pure.pure result.2) fs fun _ fs' =>
      fs'.freeRegister = low + 1 ∧ Moves P frame size low fs e fs' (.nonreloc low) :=
    .bind (exp2nextreg_emits P frame size ready) fun _ _ _ loaded => .pure loaded.2
  cases e with
  | void => exact ready.valid.elim
  | _ => exact loads

variable (P frame size) in
theorem flushLast_makes (between : Between env names t m stored st c.func) (limit : st.numArrayValues ≤ 511 * 50) :
    Makes (flushLast t st) c fun _ c' => c'.func.curExp = .nonreloc t ∧ c'.func.freeRegister = t + 1 ∧
      Does P frame size (t + 1) (fixed c.func st.arrayValueExp) c'.func.code c'.func fun s =>
        waiting frame c.func t m st.arrayValueExp s >>= fun vs => flushValues frame.base t stored vs s := by
  have few := between.few
  unfold flushLast
  rcases between.waits with ⟨void, pending, free⟩ | ⟨ready, pending⟩
  · rw [pending, void]
    split
    · rename_i none
      subst none
      exact .pure ⟨between.table, free, Does.idle⟩
    · rename_i positive
      rw [if_neg (by decide)]
      refine Makes.roomy fun roomy => ?_
      have upper : t + m < c.func.maxStackSize.val := by
        have := roomy.registers
        omega
      refine .bind (.onFunc (Emits.pure (Q := fun _ fs' => fs' = c.func) rfl)) ?_
      rintro _ c₁ - ⟨-, same⟩
      rw [← same] at upper ⊢
      refine .bind (setlist_makes P frame size (pending ▸ between.count) between.batches (Nat.pos_of_ne_zero positive) few.le
        limit upper) ?_
      rintro _ c₂ - ⟨exp, free, stores⟩
      refine .pure ⟨?_, free, stores⟩
      rw [exp, same]
      exact between.table
  · rw [if_neg (by omega), if_neg (by rw [ready_single ready]; decide)]
    simp only [pending]
    refine .bind (.onFunc (exp2nextregUnlessVoid_emits P frame size ready)) ?_
    rintro _ c₁ wider₁ ⟨exp₁, free₁, moves⟩
    refine Makes.roomy fun roomy => ?_
    have upper : t + 1 + m < c₁.func.maxStackSize.val := by
      have := roomy.registers
      omega
    refine .bind (setlist_makes P frame size (pending ▸ between.count) between.batches (Nat.succ_pos m) few limit
      (by omega)) ?_
    rintro _ c₂ wider₂ ⟨exp₂, free₂, stores⟩
    refine .pure ⟨(exp₂.trans exp₁).trans between.table, free₂, ?_⟩
    refine (load_does moves upper wider₂ ?_ stores).congr fun _ s _ => ?_
    · exact fun vs s s' above => flushValues_above above (Nat.lt_succ_self t) stored vs
    · simp only [waiting_ready ready, bind_assoc, pure_bind]
      exact agrees_refl _

/-! ## The fields of a constructor -/

theorem waiting_frame (code : fs'.code = fs.code) (e : ExpDesc) (s : Machine P) :
    waiting frame fs' t m e s = waiting frame fs t m e s := by
  cases e with
  | void => rfl
  | _ => simp only [waiting, denote_frame code]

-- the state behind a field
theorem Between.positional (between : Between env names t m stored st c.func) (void : st.arrayValueExp = .void)
    (wider : Wider c.func c'.func) (ready : Ready (t + 1 + m) c'.func c'.func.curExp) :
    Between env names t m stored
      { st with numArrayValues := st.numArrayValues + 1, unflushed := st.unflushed + 1, arrayValueExp := c'.func.curExp }
      { c'.func with curExp := .nonreloc t } where
  inScope := (between.inScope.wider wider).wider (wider_setExp _ _)
  locals := wider.number.trans_le between.locals
  table := rfl
  count := by
    have count := between.count
    dsimp only
    omega
  batches := between.batches
  few := between.few
  waits := .inr ⟨ready.setExp _, congrArg (· + 1) (between.void void).1⟩

theorem Between.keyed (between : Between env names t m stored st c.func) (void : st.arrayValueExp = .void)
    (wider : Wider c.func c'.func) (free : c'.func.freeRegister = c.func.freeRegister) :
    Between env names t m stored { st with numKeyedValues := st.numKeyedValues + 1 }
      { c'.func with curExp := .nonreloc t } where
  inScope := (between.inScope.wider wider).wider (wider_setExp _ _)
  locals := wider.number.trans_le between.locals
  table := rfl
  count := between.count
  batches := between.batches
  few := between.few
  waits := .inl ⟨void, (between.void void).1, free.trans (between.void void).2⟩

-- a field, after what was left is flushed
def enterField (env : Env) (previous : ExpDesc) (field : Node) (st : FieldState) : CompileM FieldState := do
  let positional ← genTableField env field
  let fs ← getFunc
  setExp previous
  return if positional then { st with
      numArrayValues := st.numArrayValues + 1
      unflushed := st.unflushed + 1
      arrayValueExp := fs.curExp }
    else { st with numKeyedValues := st.numKeyedValues + 1 }

theorem genFields_cons (field : Node) (fields : List Node) (st : FieldState) : genFields env t (field :: fields) st = (do
    let previous ← getFunc
    let st ← flushField t st
    let st ← enterField env previous.curExp field st
    genFields env t fields st) := by
  rw [genFields]
  simp only [enterField, bind_assoc, pure_bind]

theorem tableSet_slots {s s' : Machine P} {a : Addr} {k v : Value} (set : s.tableSet a k v = .ok s') (start n : Nat) :
    slots s' start n = slots s start n := by
  induction n generalizing start with
  | zero => rfl
  | succ n ih =>
      have here : s'.slot start = s.slot start := by rw [tableSet_stack set]; rfl
      simp only [slots, here, ih]

variable (frame size) in
theorem enterField_makes (interns : Interns P) (arithmetic : env.toArithmetic = P.toArithmetic) (field : Node)
    (is : isField env field = true) (c : Compiler) (between : Between env names t m stored st c.func)
    (void : st.arrayValueExp = .void) :
    Makes (enterField env (.nonreloc t) field st) c fun st' c' => Between env names t m stored st' c'.func ∧
      st'.numArrayValues = st.numArrayValues + (if isPositional field then 1 else 0) ∧
      ∀ (h : List Value → Machine P → Except Vm.Stop (Machine P)) (more : List Word) (fs'' : Func),
        Respects frame size (t + 1) h → Wider c'.func fs'' →
        Does P frame size (t + 1) (fixed c'.func st'.arrayValueExp) more fs'' (fun s =>
          waiting frame c'.func t m st'.arrayValueExp s >>= fun vs => h vs s) →
        Does P frame size (t + 1) c.func.code more fs'' fun s =>
          slots s (frame.base + (t + 1)) m >>= fun vs => performField env names frame.base t field vs s h := by
  have free := (between.void void).2
  have locals : c.func.numActiveLocalVars ≤ c.func.freeRegister := by
    have := between.locals
    omega
  refine Makes.roomy fun roomy => ?_
  have there {fs'' : Func} (wider : Wider c.func fs'') (extended : Extends frame size fs'') {s : Machine P}
      (room : frame.base + size ≤ s.stack.length) : ∃ vs, slots s (frame.base + (t + 1)) m = .ok vs := by
    have registers := (extended.narrow wider).registers
    have := roomy.registers
    exact slots_inside (by omega)
  unfold isField at is
  split at is
  · rename_i value
    unfold enterField
    rw [genTableField]
    simp only [bind_assoc, pure_bind]
    refine .bind (genNode_computes frame size interns arithmetic value is c between.inScope locals) ?_
    rintro _ c₁ wider₁ computes
    refine .getFunc (.bind (Makes.setExp (.nonreloc t)) ?_)
    rintro _ c₂ wider₂ same
    rw [free] at computes
    refine .pure ⟨?_, rfl, fun h more fs'' steady wider does => ?_⟩
    · rw [same]
      exact between.positional void wider₁ computes.ready
    have code : c₂.func.code = c₁.func.code := by rw [same]
    simp only [if_true] at does
    rw [fixed_frame code] at does
    have sum := (computes.simulates.wider (wider₂.trans wider)).does (k := fun v s =>
      slots s (frame.base + (t + 1)) m >>= fun vs => h (vs ++ [v]) s) (Nat.le_add_right _ m) (does.congr ?_) ?_
    · refine sum.congr fun extended s starts => ?_
      obtain ⟨vs, read⟩ := there ((wider₁.trans wider₂).trans wider) extended starts.room
      simp only [read, ok_bind, performField]
      exact agrees_refl _
    · intro _ s _
      simp only [waiting_frame code, waiting_ready computes.ready, bind_assoc, pure_bind]
      exact agrees_refl _
    · exact fun v s s' above => (steady.append [v]).read above
  · rename_i key value
    rw [Bool.and_eq_true] at is
    unfold enterField
    refine .bind (keyField_makes frame size interns arithmetic is.1 is.2 c between.inScope locals between.table (by omega)) ?_
    rintro positional c₁ wider₁ ⟨rfl, free₁, stores⟩
    refine .getFunc (.bind (Makes.setExp (.nonreloc t)) ?_)
    rintro _ c₂ wider₂ same
    rw [free] at stores
    refine .pure ⟨?_, rfl, fun h more fs'' steady wider does => ?_⟩
    · rw [same]
      exact between.keyed void wider₁ free₁
    have code : c₂.func.code = c₁.func.code := by rw [same]
    simp only [Bool.false_eq_true, if_false, void] at does
    rw [fixed_frame code] at does
    have sum := (stores.wider (wider₂.trans wider)).trans (Nat.le_add_right _ m) does ?_
    · refine sum.congr fun extended s starts => ?_
      obtain ⟨vs, read⟩ := there ((wider₁.trans wider₂).trans wider) extended starts.room
      simp only [read, ok_bind, performField, bind_assoc]
      cases evaluate env names frame.base s key with
      | error e => exact rfl
      | ok k =>
          cases evaluate env names frame.base s value with
          | error e => exact rfl
          | ok v =>
              cases tableIn s frame.base t with
              | error e => exact rfl
              | ok a =>
                  simp only [ok_bind]
                  cases set : s.tableSet a k v with
                  | error e => exact rfl
                  | ok s' =>
                      simp only [ok_bind, waiting, tableSet_slots set, read]
                      exact agrees_refl _
    · exact fun s s' above => steady.read above
  · cases is

variable (frame size) in
theorem genFields_makes (interns : Interns P) (arithmetic : env.toArithmetic = P.toArithmetic) (fields : List Node)
    (are : fields.all (isField env) = true) (c : Compiler) (between : Between env names t m stored st c.func)
    (limit : st.numArrayValues + fields.countP isPositional ≤ 511 * 50) :
    Makes (genFields env t fields st >>= flushLast t) c fun _ c' =>
      c'.func.curExp = .nonreloc t ∧ c'.func.freeRegister = t + 1 ∧
        Does P frame size (t + 1) (fixed c.func st.arrayValueExp) c'.func.code c'.func fun s =>
          waiting frame c.func t m st.arrayValueExp s >>= fun vs => performFields env names frame.base t fields stored vs s := by
  induction fields generalizing m stored st c with
  | nil =>
      rw [genFields]
      exact flushLast_makes P frame size between limit
  | cons field fields ih =>
      rw [List.all_cons, Bool.and_eq_true] at are
      rw [List.countP_cons] at limit
      rw [genFields_cons]
      simp only [bind_assoc]
      refine .getFunc (.bind (flushField_makes P frame size between (by omega)) ?_)
      rintro st₁ c₁ wider₁ ⟨count, void, m', stored', between₁, before⟩
      rw [between.table]
      refine .bind (enterField_makes frame size interns arithmetic field are.1 c₁ between₁ void) ?_
      rintro st₂ c₂ wider₂ ⟨between₂, count₂, enter⟩
      refine (ih are.2 c₂ between₂ (by rw [count₂, count]; omega)).mono ?_
      rintro _ c₃ wider₃ ⟨exp, free, does⟩
      have known : names.length ≤ t + 1 := (between.inScope.count.trans_le between.locals).trans (Nat.le_succ t)
      have rest (stored : Nat) : Respects (P := P) frame size (t + 1) (performFields env names frame.base t fields stored) :=
        fun vs s s' above => performFields_above above known (Nat.lt_succ_self t) fields stored vs
      have first (stored : Nat) : Respects (P := P) frame size (t + 1) fun vs s =>
          performField env names frame.base t field vs s (performFields env names frame.base t fields stored) :=
        fun vs s s' above => performField_above above known (Nat.lt_succ_self t) field vs (rest stored)
      exact ⟨exp, free, before _ c₃.func.code c₃.func first (wider₂.trans wider₃)
        (enter _ c₃.func.code c₃.func (rest stored') wider₃ does)⟩

end Flushing

/-! ## The constructor -/

theorem openTable_emits {code : List Word} (last : fs.code = code ++ [.instr ⟨.newtable, 0, 0, 0⟩]) :
    Emits (Func.exp2nextreg (.relocable code.length)) fs fun r fs' => r = (fs.freeRegister, .nonreloc fs.freeRegister) ∧
      fs'.freeRegister = fs.freeRegister + 1 ∧ fs.freeRegister < fs'.maxStackSize.val ∧
      fs'.code = code ++ [.instr ⟨.newtable, fs.freeRegister, 0, 0⟩] := by
  unfold Func.exp2nextreg
  rw [Func.dischargevars_discharged rfl, pure_bind]
  refine .bind (Emits.pure (Q := fun _ fs' => fs' = fs) rfl) ?_
  rintro _ fs₁ - same₁
  refine .bind (reserveregs_emits 1) ?_
  rintro _ fs₂ - ⟨same₂, inside⟩
  refine Emits.get fun _ => ?_
  rw [same₁] at same₂ inside
  have free : fs₂.freeRegister = fs.freeRegister + 1 := by rw [same₂]
  have code₂ : fs₂.code = code ++ [.instr ⟨.newtable, 0, 0, 0⟩] := by rw [same₂, last]
  have located : fs₂.code[code.length]? = some (.instr ⟨.newtable, 0, 0, 0⟩) := by
    rw [code₂]
    exact List.getElem?_concat_length
  rw [free, Nat.add_sub_cancel]
  unfold Func.exp2reg Func.discharge2reg
  rw [Func.dischargevars_discharged rfl]
  simp only [bind_assoc, pure_bind]
  refine .bind (getcode_emits located) ?_
  rintro _ fs₃ - ⟨rfl, rfl⟩
  rw [if_pos (by rfl)]
  simp only [bind_assoc, pure_bind]
  refine .bind (patch_emits located _) ?_
  rintro _ fs₄ - rfl
  refine .pure ⟨rfl, free, inside, ?_⟩
  rw [code₂, List.set_append_right _ _ le_rfl, Nat.sub_self]
  rfl

-- apart from the first word, what is in front of the code does not matter
theorem Behaves.behind {Q : Machine P → Except Vm.Stop (Machine P) → Prop} (behaves : Behaves P frame size low code words fs Q)
    (some : code ≠ []) (front : List Word) :
    ∃ is : List Word, words = code ++ is ∧ Behaves P frame size low front (front ++ is) fs Q := by
  obtain ⟨is, same, holds⟩ := behaves
  refine ⟨is.map .instr, same, is, rfl, fun extended host s pc located starts => ?_⟩
  exact holds extended host s pc located ⟨starts.room, fun none => absurd none some⟩

-- the sizes do not matter
theorem opened_does {t b' c' : Nat} {f : Machine P → Except Vm.Stop (Machine P)} (inside : t < fs.maxStackSize.val) (i : Instruction)
    (fits : b' < 512) (fits' : c' < 512) (does : Does P frame size (t + 1) (code ++ [.instr i]) words fs f)
    (respects : ∀ s s', Above frame size (t + 1) s s' → Agrees frame size (t + 1) (f s) (f s')) :
    words[code.length]? = some (.instr i) ∧
      Does P frame size (t + 1) code (words.set code.length (.instr ⟨.newtable, t, b', c'⟩)) fs fun s =>
        newTable frame.base t s >>= f := by
  obtain ⟨is, rfl, behaves⟩ := Behaves.behind does (List.append_ne_nil_of_right_ne_nil _ (List.cons_ne_nil _ _)) (code ++ [.instr ⟨.newtable, t, b', c'⟩])
  have opened : Does P frame size (t + 1) code _ fs _ := newtable_does (t + 1) code inside fits fits'
  refine ⟨?_, ?_⟩
  · rw [List.append_assoc, List.getElem?_append_right le_rfl, Nat.sub_self]
    rfl
  · rw [List.append_assoc, List.set_append_right _ _ le_rfl, Nat.sub_self]
    show Does P frame size (t + 1) code (code ++ ([.instr ⟨.newtable, t, b', c'⟩] ++ is)) fs _
    rw [← List.append_assoc]
    exact opened.trans le_rfl behaves respects

variable (frame size) in
theorem tableConstructor_makes (interns : Interns P) (arithmetic : env.toArithmetic = P.toArithmetic) (fields : List Node)
    (are : fields.all (isField env) = true) (few : fields.countP isPositional ≤ 511 * 50) (openToken closeToken : Token)
    (c : Compiler) (inScope : Scoped env names c.func) (locals : c.func.numActiveLocalVars ≤ c.func.freeRegister) :
    Makes (genNode env (.tableConstructor fields openToken closeToken)) c fun _ c' =>
      c'.func.curExp = .nonreloc c.func.freeRegister ∧ c'.func.freeRegister = c.func.freeRegister + 1 ∧
        Does P frame size (c.func.freeRegister + 1) c.func.code c'.func.code c'.func
          (construct env names frame.base c.func.freeRegister fields) := by
  rw [genNode]
  refine .bind (.onFunc (emitInstruction_emits _)) ?_
  rintro index c₁ wider₁ ⟨-, rfl, same₁⟩
  refine .bind (Makes.setExp (.relocable _)) ?_
  rintro _ c₂ wider₂ same₂
  have code₂ : c₂.func.code = c.func.code ++ [.instr ⟨.newtable, 0, 0, 0⟩] := by rw [same₂, same₁]
  have exp₂ : c₂.func.curExp = .relocable c.func.code.length := by rw [same₂]
  have free₂ : c₂.func.freeRegister = c.func.freeRegister := by rw [same₂, same₁]
  refine .bind (Makes.onExpReg (exp₂ ▸ openTable_emits code₂)) ?_
  rintro r c₃ wider₃ ⟨fs, same, opened, free, inside, code⟩
  rw [free₂] at opened free inside code
  obtain rfl : r = c.func.freeRegister := congrArg Prod.fst opened
  have exp₃ : c₃.func.curExp = .nonreloc c.func.freeRegister := congrArg Prod.snd opened
  have code₃ : c₃.func.code = c.func.code ++ [.instr ⟨.newtable, c.func.freeRegister, 0, 0⟩] := by rw [same, ← code]
  have free₃ : c₃.func.freeRegister = c.func.freeRegister + 1 := by rw [same, ← free]
  have inside₃ : c.func.freeRegister < c₃.func.maxStackSize.val := by
    rw [same]
    exact inside
  have between : Between env names c.func.freeRegister 0 0 {} c₃.func := {
    inScope := ((inScope.wider wider₁).wider wider₂).wider wider₃
    locals := ((wider₁.trans wider₂).trans wider₃).number.trans_le locals
    table := exp₃
    count := rfl
    batches := ⟨0, rfl⟩
    few := Nat.succ_pos 49
    waits := .inl ⟨rfl, rfl, free₃⟩ }
  have filled := genFields_makes frame size interns arithmetic fields are c₃ between (by
    rw [Nat.zero_add]
    exact few)
  rw [← bind_assoc]
  refine .bind filled ?_
  rintro st c₄ wider₄ ⟨exp₄, free₄, does⟩
  replace does : Does P frame size (c.func.freeRegister + 1) (c.func.code ++ [.instr ⟨.newtable, c.func.freeRegister, 0, 0⟩]) c₄.func.code c₄.func
      (performFields env names frame.base c.func.freeRegister fields 0 []) := by
    rw [← code₃]
    exact does
  have known : names.length ≤ c.func.freeRegister + 1 := (inScope.count.trans_le locals).trans (Nat.le_succ _)
  have sized {b' c' : Nat} (fits : b' < 512) (fits' : c' < 512) := opened_does (inside₃.trans_le wider₄.registers) _ fits fits'
    does fun s s' above => performFields_above above known (Nat.lt_succ_self _) fields 0 []
  split
  · obtain ⟨located, opened⟩ := sized (Nat.succ_pos 511) (Nat.succ_pos 511)
    obtain ⟨inside, last⟩ := List.getElem?_eq_some_iff.mp located
    rw [← last, List.set_getElem_self] at opened
    exact .pure ⟨exp₄, free₄, opened⟩
  · obtain ⟨located, opened⟩ := sized (intToFloatingPointByte_lt st.numArrayValues) (intToFloatingPointByte_lt st.numKeyedValues)
    refine (Makes.onFunc (patch_emits located _)).mono ?_
    rintro _ c₅ wider₅ ⟨exp₅, same₅⟩
    refine ⟨exp₅.trans exp₄, by rw [same₅]; exact free₄, ?_⟩
    have code₅ : c₅.func.code = c₄.func.code.set c.func.code.length _ := congrArg Func.code same₅
    rw [code₅]
    exact opened.wider wider₅

/-! ## What is in the table -/

theorem setAll_concat {H : HashMap Value Value Value.keyContext} (table : Table H) (sets more : List (Value × Value)) :
    table.setAll (sets ++ more) = match table.setAll sets with
      | .ok table => table.setAll more
      | .error fault => .error fault := by
  induction sets generalizing table with
  | nil => rfl
  | cons entry sets ih =>
      obtain ⟨k, v⟩ := entry
      simp only [List.cons_append, Table.setAll]
      cases table.set k v with
      | error fault => rfl
      | ok table' => exact ih table'

-- the values under the integers behind the first `stored`
def numbered : Nat → List Value → List (Value × Value)
  | _, [] => []
  | stored, v :: vs => (key (stored + 1), v) :: numbered (stored + 1) vs

theorem numbered_append (stored : Nat) (vs ws : List Value) :
    numbered stored (vs ++ ws) = numbered stored vs ++ numbered (stored + vs.length) ws := by
  induction vs generalizing stored with
  | nil => rfl
  | cons v vs ih => rw [List.cons_append, numbered, ih, numbered, List.length_cons, Nat.add_assoc, Nat.add_comm 1, List.cons_append]

-- the values of the fields without keys, and the keys and values of the others
inductive Gives (value : Node → Value → Prop) : List Node → List Value → List (Value × Value) → Prop
  | nil : Gives value [] [] []
  | positional {e : Node} {v : Value} {fields : List Node} {vs : List Value} {ks : List (Value × Value)} (is : value e v)
      (rest : Gives value fields vs ks) : Gives value (.tableField none e :: fields) (v :: vs) ks
  | keyed {k e : Node} {a v : Value} {fields : List Node} {vs : List Value} {ks : List (Value × Value)} (isKey : value k a)
      (is : value e v) (rest : Gives value fields vs ks) : Gives value (.tableField (some k) e :: fields) vs ((a, v) :: ks)

theorem Gives.length {value : Node → Value → Prop} {fields : List Node} {vs : List Value} {ks : List (Value × Value)}
    (gives : Gives value fields vs ks) : vs.length = fields.countP isPositional := by
  induction gives with
  | nil => rfl
  | positional is rest ih => rw [List.length_cons, List.countP_cons_of_pos rfl, ih]
  | keyed isKey is rest ih => rw [List.countP_cons_of_neg Bool.false_ne_true, ih]

section Contents

variable {H : HashMap Value Value Value.keyContext} {value : Node → Value → Prop} {fields : List Node} {stored : Nat}
  {vs : List Value} {table table₁ table' : Table H}

-- the sets that lead from `table` to `table'`, each with the mark whether its field had no key
def Filled (value : Node → Value → Prop) (fields : List Node) (stored : Nat) (vs : List Value) (table table' : Table H) : Prop :=
  ∃ (marked : List (Bool × Value × Value)) (positional : List Value),
    Gives value fields positional ((marked.filter fun set => !set.1).map Prod.snd) ∧
      (marked.filter fun set => set.1).map Prod.snd = numbered stored (vs ++ positional) ∧
      table.setAll (marked.map Prod.snd) = .ok table'

theorem Filled.flush (batch : table.setAll (numbered stored vs) = .ok table₁)
    (rest : Filled value fields (stored + vs.length) [] table₁ table') : Filled value fields stored vs table table' := by
  obtain ⟨marked, positional, gives, numbers, run⟩ := rest
  refine ⟨(numbered stored vs).map (fun set => (true, set)) ++ marked, positional, ?_, ?_, ?_⟩
  · rw [List.filter_append, List.filter_eq_nil_iff.mpr, List.nil_append]
    · exact gives
    · intro set member
      obtain ⟨set, -, rfl⟩ := List.mem_map.mp member
      exact Bool.false_ne_true
  · rw [List.filter_append, List.filter_eq_self.mpr, List.map_append, List.map_map, numbers, List.nil_append,
      numbered_append]
    · congr 1
      exact List.map_id _
    · intro set member
      obtain ⟨set, -, rfl⟩ := List.mem_map.mp member
      rfl
  · rw [List.map_append, List.map_map, setAll_concat]
    have same : (numbered stored vs).map (Prod.snd ∘ fun set => (true, set)) = numbered stored vs := List.map_id _
    rw [same, batch]
    exact run

theorem Filled.positional {e : Node} {v : Value} (is : value e v) (rest : Filled value fields stored (vs ++ [v]) table table') :
    Filled value (.tableField none e :: fields) stored vs table table' := by
  obtain ⟨marked, positional, gives, numbers, run⟩ := rest
  rw [List.append_assoc] at numbers
  exact ⟨marked, v :: positional, .positional is gives, numbers, run⟩

theorem Filled.keyed {k e : Node} {a v : Value} (isKey : value k a) (is : value e v) (set : table.set a v = .ok table₁)
    (rest : Filled value fields stored vs table₁ table') :
    Filled value (.tableField (some k) e :: fields) stored vs table table' := by
  obtain ⟨marked, positional, gives, numbers, run⟩ := rest
  refine ⟨(false, a, v) :: marked, positional, .keyed isKey is gives, numbers, ?_⟩
  rw [List.map_cons, Table.setAll, set]
  exact run

-- only the sets with one of the two marks matter for `q`
theorem lastSet_marked {marked : List (Bool × Value × Value)} {p : Bool → Bool} {q : Value}
    (others : ∀ set ∈ marked, p set.1 = false → set.2.1.eql q = false) :
    Table.lastSet (marked.map Prod.snd) q = Table.lastSet ((marked.filter fun set => p set.1).map Prod.snd) q := by
  induction marked using List.reverseRecOn with
  | nil => rfl
  | append_singleton marked set ih =>
      obtain ⟨mark, k, v⟩ := set
      have before := ih fun other member => others other (List.mem_append_left _ member)
      rw [List.map_append, List.filter_append, List.map_append, List.map_singleton, Table.lastSet_append, before]
      cases marks : p mark with
      | true => rw [List.filter_singleton, marks, cond_true, List.map_singleton, Table.lastSet_append]
      | false =>
          have different : k.eql q = false := others (mark, k, v) (List.mem_append_right _ (List.mem_singleton_self _)) marks
          rw [List.filter_singleton, marks, different, cond_false, List.map_nil, List.append_nil]
          rfl

theorem lastSet_numbered {i : Nat} (inside : i < vs.length) (small : stored + vs.length < 2 ^ 53) :
    Table.lastSet (numbered stored vs) (key (stored + i + 1)) = vs[i] := by
  induction vs using List.reverseRecOn with
  | nil => cases inside
  | append_singleton vs v ih =>
      rw [List.length_append, List.length_singleton] at inside small
      rw [numbered_append]
      show Table.lastSet (numbered stored vs ++ [(key (stored + vs.length + 1), v)]) _ = _
      have same := Table.key_eql (Nat.succ_pos (stored + vs.length)) small (Nat.succ_pos (stored + i)) (by omega)
      rw [Table.lastSet_append]
      by_cases last : i = vs.length
      · subst last
        rw [if_pos (same.mpr rfl), List.getElem_concat_length rfl]
      · have before : i < vs.length := by omega
        rw [if_neg fun equal => last (by have := same.mp equal; omega), ih before (by omega), List.getElem_append_left before]

theorem numbered_key {set : Value × Value} (member : set ∈ numbered stored vs) :
    ∃ i < vs.length, set.1 = key (stored + i + 1) := by
  induction vs generalizing stored with
  | nil => cases member
  | cons v vs ih =>
      rcases List.mem_cons.mp member with rfl | member
      · exact ⟨0, Nat.succ_pos _, rfl⟩
      · obtain ⟨i, inside, same⟩ := ih member
        exact ⟨i + 1, Nat.succ_lt_succ inside, same.trans (by rw [Nat.add_assoc stored 1 i, Nat.add_comm 1 i])⟩

-- a value without a key is under its number, and another key has what was last stored under it
structure Contents (value : Node → Value → Prop) (fields : List Node) (table : Table H) (positional : List Value)
    (keyed : List (Value × Value)) : Prop where
  gives : Gives value fields positional keyed
  numbers : ∀ i (inside : i < positional.length), (∀ set ∈ keyed, set.1.eql (key (i + 1)) = false) →
    table.get (key (i + 1)) = .ok positional[i]
  others : ∀ q, q.Usable → (∀ i < positional.length, (key (i + 1)).eql q = false) →
    table.get q = .ok (Table.lastSet keyed q)

theorem Filled.contents (few : fields.countP isPositional < 2 ^ 53) (filled : Filled value fields 0 [] (Table.init H) table) :
    ∃ positional keyed, Gives value fields positional keyed ∧
      ((∀ set ∈ keyed, set.1.Usable) → Contents value fields table positional keyed) := by
  obtain ⟨marked, positional, gives, numbers, run⟩ := filled
  rw [List.nil_append] at numbers
  refine ⟨positional, _, gives, fun usable => ?_⟩
  have length := gives.length
  have known (set : Bool × Value × Value) (member : set ∈ marked) :
      (set.1 = true → ∃ i < positional.length, set.2.1 = key (i + 1)) ∧
      (set.1 = false → set.2 ∈ (marked.filter fun set => !set.1).map Prod.snd) := by
    constructor
    · intro mark
      have listed : set.2 ∈ numbered 0 positional := numbers ▸ List.mem_map_of_mem (List.mem_filter.mpr ⟨member, mark⟩)
      obtain ⟨i, inside, same⟩ := numbered_key listed
      exact ⟨i, inside, same.trans (by rw [Nat.zero_add])⟩
    · intro mark
      exact List.mem_map_of_mem (List.mem_filter.mpr ⟨member, by rw [mark]; rfl⟩)
  have every : ∀ set ∈ marked.map Prod.snd, set.1.Usable := by
    rintro _ listed
    obtain ⟨set, member, rfl⟩ := List.mem_map.mp listed
    cases mark : set.1 with
    | true =>
        obtain ⟨i, inside, same⟩ := (known set member).1 mark
        rw [same]
        exact Table.key_usable (Nat.succ_pos i) (by omega)
    | false => exact usable _ ((known set member).2 mark)
  obtain ⟨table', run', inv, found⟩ := Table.setAll_lookup (H := H) (marked.map Prod.snd) every
  obtain rfl : table' = table := Except.ok.inj (run'.symm.trans run)
  have get {q : Value} (usable : q.Usable) : table'.get q = .ok (Table.lastSet (marked.map Prod.snd) q) := by
    rw [Table.get_eq inv usable, found q usable]
  refine ⟨gives, fun i inside apart => ?_, fun q usable apart => ?_⟩
  · rw [get (Table.key_usable (Nat.succ_pos i) (by omega)), lastSet_marked (p := fun mark => mark), numbers]
    · have last : Table.lastSet (numbered 0 positional) (key (0 + i + 1)) = positional[i] :=
        lastSet_numbered inside (by omega)
      rw [Nat.zero_add] at last
      rw [last]
    · exact fun set member mark => apart _ ((known set member).2 mark)
  · rw [get usable, lastSet_marked (p := fun mark => !mark)]
    intro set member mark
    obtain ⟨i, inside, same⟩ := (known set member).1 (by simpa using mark)
    rw [same]
    exact apart i inside

end Contents

/-! ## The constructor and the table -/

def withTable (s : Machine P) (table : Table P.hashMap) : Machine P := { s with tables := s.tables ++ [table] }

-- the value while the table is being filled
def Evaluates (env : Env) (names : List (List UInt8)) (base : Nat) (s : Machine P) (e : Node) (v : Value) : Prop :=
  ∃ table, evaluate env names base (withTable s table) e = .ok v

section Filling

variable {s s' : Machine P} {table : Table P.hashMap} {base t stored : Nat} {vs : List Value}

theorem tableSet_withTable {k v : Value} (run : (withTable s table).tableSet s.tables.length k v = .ok s') :
    ∃ table', s' = withTable s table' ∧ table.set k v = .ok table' := by
  unfold Machine.tableSet withTable at run
  rw [List.getElem?_concat_length] at run
  dsimp only at run
  cases set : table.set k v with
  | error fault =>
      rw [set] at run
      cases run
  | ok table' =>
      rw [set] at run
      cases run
      refine ⟨table', ?_, rfl⟩
      rw [withTable, List.set_append_right _ _ le_rfl, Nat.sub_self]
      rfl

theorem storeValues_withTable (run : storeValues s.tables.length stored vs (withTable s table) = .ok s') :
    ∃ table', s' = withTable s table' ∧ table.setAll (numbered stored vs) = .ok table' := by
  induction vs generalizing stored table with
  | nil =>
      cases run
      exact ⟨table, rfl, rfl⟩
  | cons v vs ih =>
      obtain ⟨_, first, rest⟩ := bind_ok.mp run
      obtain ⟨table₁, rfl, set⟩ := tableSet_withTable first
      obtain ⟨table', same, more⟩ := ih rest
      refine ⟨table', same, ?_⟩
      rw [numbered, Table.setAll, show key (stored + 1) = .number (F64.floatFromInt (stored + 1)) from rfl, set]
      exact more

variable (here : s.slot (base + t) = .ok (.table s.tables.length))
include here

theorem tableIn_withTable (table : Table P.hashMap) : tableIn (withTable s table) base t = .ok s.tables.length := by
  have same : (withTable s table).slot (base + t) = s.slot (base + t) := rfl
  rw [tableIn, same, here]
  rfl

theorem flushValues_withTable (run : flushValues base t stored vs (withTable s table) = .ok s') :
    ∃ table', s' = withTable s table' ∧ table.setAll (numbered stored vs) = .ok table' := by
  cases vs with
  | nil =>
      cases run
      exact ⟨table, rfl, rfl⟩
  | cons v vs =>
      simp only [flushValues, tableIn_withTable here, ok_bind] at run
      exact storeValues_withTable run

theorem performFields_fills (fields : List Node)
    (run : performFields env names base t fields stored vs (withTable s table) = .ok s') :
    ∃ table', s' = withTable s table' ∧ Filled (Evaluates env names base s) fields stored vs table table' := by
  induction fields generalizing stored vs table with
  | nil =>
      obtain ⟨table', same, batch⟩ := flushValues_withTable here run
      exact ⟨table', same, .flush batch ⟨[], [], .nil, rfl, rfl⟩⟩
  | cons field fields ih =>
      have each (stored : Nat) (vs : List Value) (table : Table P.hashMap)
          (run : performField env names base t field vs (withTable s table) (performFields env names base t fields stored) = .ok s') :
          ∃ table', s' = withTable s table' ∧
            Filled (Evaluates env names base s) (field :: fields) stored vs table table' := by
        unfold performField at run
        split at run
        · obtain ⟨v, is, rest⟩ := bind_ok.mp run
          obtain ⟨table', same, filled⟩ := ih rest
          exact ⟨table', same, .positional ⟨table, is⟩ filled⟩
        · obtain ⟨k, isKey, run⟩ := bind_ok.mp run
          obtain ⟨v, is, run⟩ := bind_ok.mp run
          rw [tableIn_withTable here, ok_bind] at run
          obtain ⟨_, write, rest⟩ := bind_ok.mp run
          obtain ⟨table₁, rfl, set⟩ := tableSet_withTable write
          obtain ⟨table', same, filled⟩ := ih rest
          exact ⟨table', same, .keyed ⟨table, isKey⟩ ⟨table, is⟩ set filled⟩
        · cases run
      unfold performFields at run
      split at run
      · obtain ⟨_, write, rest⟩ := bind_ok.mp run
        obtain ⟨table₁, rfl, batch⟩ := flushValues_withTable here write
        obtain ⟨table', same, filled⟩ := each _ [] table₁ rest
        exact ⟨table', same, .flush batch filled⟩
      · exact each stored vs table run

end Filling

-- the register of the new table
def opened (base t : Nat) (s : Machine P) : Machine P := { s with stack := s.stack.set (base + t) (.table s.tables.length) }

theorem construct_contents {s s' : Machine P} {base t : Nat} {fields : List Node} (few : fields.countP isPositional ≤ 511 * 50)
    (run : construct env names base t fields s = .ok s') :
    ∃ table positional keyed, s' = withTable (opened base t s) table ∧
      Gives (Evaluates env names base (opened base t s)) fields positional keyed ∧ ((∀ set ∈ keyed, set.1.Usable) →
        Contents (Evaluates env names base (opened base t s)) fields table positional keyed) := by
  obtain ⟨s₁, first, rest⟩ := bind_ok.mp run
  unfold newTable Machine.setSlot at first
  split at first
  · rename_i inside
    cases first
    have here : (opened base t s).slot (base + t) = .ok (.table (opened base t s).tables.length) := by
      unfold opened Machine.slot
      rw [List.getElem?_set_self inside]
    have filling : performFields env names base t fields 0 [] (withTable (opened base t s) (Table.init P.hashMap)) = .ok s' := rest
    obtain ⟨table, same, filled⟩ := performFields_fills here fields filling
    obtain ⟨positional, keyed, gives, contents⟩ := filled.contents (few.trans_lt (by decide))
    exact ⟨table, positional, keyed, same, gives, contents⟩
  · cases first

-- `{not x, [not x] = not x}`
def negatedFields : List Node := [.tableField none negatedName, .tableField (some negatedName) negatedName]

end Zua.Run
