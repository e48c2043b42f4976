import Zua.Base.Except
import Zua.Code.Check
import Zua.Vm.Execute

/-!
# Verified code

What `executeLua` reaches in code that the verifier has accepted. The verifier reads the code from front to
back; the loop also skips words, and only reaches words that were read as instructions.
-/

namespace Zua.Code.Function

variable {f : Function} {pc : Nat} {i : Instruction}

/-! ## The positions of instructions -/

def width (i : Instruction) : Nat := if takesBatch i then 2 else 1

-- the words that are read as instructions
inductive Position (f : Function) : Nat → Prop
  | first : Position f 0
  | after {pc : Nat} {w : UInt32} {i : Instruction} :
      Position f pc → f.code[pc]? = some w → Instruction.ofWord w = some i → Position f (pc + width i)

theorem width_pos (i : Instruction) : 0 < width i := by
  unfold width
  split <;> norm_num

-- an earlier instruction ends before a later one begins
theorem Position.disjoint {j k : Nat} (atJ : Position f j) (atK : Position f k) {w : UInt32} (lt : k < j)
    (word : f.code[k]? = some w) (decoded : Instruction.ofWord w = some i) : k + width i ≤ j := by
  induction total : j + k using Nat.strong_induction_on generalizing j k w i with
  | _ total ih =>
      cases atJ with
      | first => omega
      | @after j' w' i' atJ' word' decoded' =>
          have positive := width_pos i'
          rcases Nat.lt_trichotomy k j' with before | same | between
          · have ends := ih (j' + k) (by omega) atJ' atK before word decoded rfl
            omega
          · subst same
            rw [word'] at word
            cases word
            rw [decoded'] at decoded
            cases decoded
            exact le_rfl
          · have ends := ih (k + j') (by omega) atK atJ' between word' decoded' rfl
            omega

/-! ## What is accepted -/

theorem ensure_ok {condition : Prop} [Decidable condition] {e : CheckError} :
    ensure condition e = .ok () ↔ condition := by
  unfold ensure
  split <;> simp_all

-- the verifier read the word at every position as an instruction and went on behind it
theorem Position.accepted (accepted : f.symbexecFrom 0 0 f.code = .ok ()) (position : Position f pc) :
    f.symbexecFrom pc 0 (f.code.drop pc) = .ok () := by
  induction position with
  | first => exact accepted
  | @after pc w i position word decoded ih =>
      obtain ⟨inside, rfl⟩ := List.getElem?_eq_some_iff.mp word
      rw [List.drop_eq_getElem_cons inside, symbexecFrom, if_neg (lt_irrefl 0)] at ih
      simp only [decoded, seq_ok] at ih
      obtain ⟨-, rest⟩ := ih
      unfold width
      split <;> rename_i batch <;> simp only [batch] at rest
      · rcases more : f.code.drop (pc + 1) with _ | ⟨skipped, words⟩
        · have ended : f.code.drop (pc + 2) = [] := by
            rw [List.drop_eq_nil_iff] at more ⊢
            omega
          rw [ended, symbexecFrom]
        · rw [more, symbexecFrom, if_pos (by simp)] at rest
          have tail : f.code.drop (pc + 2) = words := by
            rw [show pc + 2 = pc + 1 + 1 from rfl, ← List.drop_drop, more]
            rfl
          simpa [tail] using rest
      · exact rest

theorem Position.checked (accepted : f.checkcode = .ok ()) (position : Position f pc) {w : UInt32}
    (word : f.code[pc]? = some w) : ∃ i, Instruction.ofWord w = some i ∧ f.check pc i = .ok () := by
  simp only [checkcode, seq_ok] at accepted
  have here := position.accepted accepted.2.2
  obtain ⟨inside, rfl⟩ := List.getElem?_eq_some_iff.mp word
  rw [List.drop_eq_getElem_cons inside, symbexecFrom, if_neg (lt_irrefl 0)] at here
  rcases decoded : Instruction.ofWord f.code[pc] with _ | i
  · simp [decoded] at here
  · simp only [decoded, seq_ok] at here
    exact ⟨i, rfl, here.1⟩

end Zua.Code.Function

namespace Zua.Vm
open Code Object

variable {P : Platform} {execute : Machine P → Except Stop (Machine P)}
  {host : Addr → Machine P → Except Stop (Machine P × Int)} {frame : Frame} {s s' : Machine P} {pc pc' : Nat}
  {i : Instruction}

/-! ## Where the loop goes -/

def StraightLine : OpCode → Prop
  | .move | .loadk | .loadbool | .loadnil | .getglobal | .setglobal | .gettable | .settable | .newtable
  | .self | .add | .sub | .mul | .div | .mod | .pow | .unm | .not | .len | .concat | .call | .tailcall
  | .return | .setlist | .vararg => True
  | _ => False

-- the next instruction is the one that follows, if there is one
def Advances (x : Except Stop (Flow P)) (pc : Nat) : Prop := ∀ s pc', x = .ok (.next s pc') → pc' = pc + 1

namespace Advances

theorem bind {α : Type} {first : Except Stop α} {rest : α → Except Stop (Flow P)}
    (each : ∀ a, Advances (rest a) pc) : Advances (first >>= rest) pc := by
  intro s pc' h
  obtain ⟨a, -, more⟩ := bind_ok.mp h
  exact each a s pc' more

theorem next (s : Machine P) : Advances (.ok (.next s (pc + 1))) pc := by
  intro s pc' h
  simp only [Except.ok.injEq, Flow.next.injEq] at h
  exact h.2.symm

theorem done (s : Machine P) : Advances (.ok (.done s)) pc := by
  intro s pc' h
  simp at h

theorem error (e : Stop) : Advances (.error e : Except Stop (Flow P)) pc := by
  intro s pc' h
  simp at h

theorem put (a : Nat) (v : Value) : Advances (Flow.put s frame pc a v) pc := bind fun s => next s

end Advances

theorem exec_advances (straight : StraightLine i.op) (loads : ¬ (i.op = .loadbool ∧ i.c ≠ 0))
    (batch : Function.takesBatch i = false) : Advances (exec execute host frame pc i s) pc := by
  rcases i with ⟨op, a, b, c⟩
  cases op
  all_goals try exact straight.elim
  all_goals simp only [exec, execArith]
  case loadbool =>
      rw [if_neg fun skips => loads ⟨rfl, skips⟩]
      exact .bind fun s => .next s
  case setlist =>
      have counted : c ≠ 0 := by simpa [Function.takesBatch] using batch
      simp only [execSetlist, if_neg counted]
      exact .bind fun _ => .bind fun _ => .bind fun s => .next s
  case loadnil =>
      split
      · exact .error _
      · exact .bind fun s => .next s
  case getglobal =>
      split
      · exact .bind fun _ => .put _ _
      · exact .next s
      · exact .error _
  case setglobal =>
      split
      · exact .bind fun _ => .bind fun s => .next s
      · exact .next s
      · exact .error _
  case settable => exact .bind fun _ => .bind fun _ => .bind fun _ => .bind fun _ => .bind fun s => .next s
  case concat =>
      split
      · exact .error _
      · exact .bind fun _ => .put _ _
  case vararg =>
      split
      · exact .next s
      · exact .bind fun s => .next s
  case call => exact .bind fun _ => .bind fun _ => .bind fun s => .next _
  case tailcall => exact .bind fun _ => .bind fun _ => .bind fun _ => .bind fun s => .done s
  case «return» => exact .bind fun s => .done s
  case newtable => exact .put _ _
  case move | loadk | not => exact .bind fun _ => .put _ _
  case unm | len => exact .bind fun _ => .bind fun _ => .put _ _
  case self => exact .bind fun _ => .bind fun _ => .bind fun _ => .bind fun _ => .bind fun _ => .put _ _
  case gettable => exact .bind fun _ => .bind fun _ => .bind fun _ => .bind fun _ => .put _ _
  all_goals exact .bind fun _ => .bind fun _ => .bind fun _ => .put _ _

theorem exec_next (straight : StraightLine i.op) (h : exec execute host frame pc i s = .ok (.next s' pc')) :
    (Function.takesBatch i = false ∧ pc' = pc + 1) ∨ (i.op = .loadbool ∧ i.c ≠ 0 ∧ pc' = pc + 2) ∨
      (Function.takesBatch i = true ∧ pc' = pc + 2) := by
  by_cases loads : i.op = .loadbool ∧ i.c ≠ 0
  · simp only [exec, loads.1, bind_ok, pure_ok, Flow.next.injEq, if_pos loads.2] at h
    obtain ⟨_, -, -, rfl⟩ := h
    exact .inr (.inl ⟨loads.1, loads.2, rfl⟩)
  · cases batch : Function.takesBatch i with
    | false => exact .inl ⟨rfl, exec_advances straight loads batch s' pc' h⟩
    | true =>
        have fields : i.op = .setlist ∧ i.c = 0 := by simpa [Function.takesBatch] using batch
        simp only [exec, fields.1, execSetlist, if_pos fields.2, bind_ok] at h
        obtain ⟨_, -, _, -, rest⟩ := h
        split at rest
        · simp only [bind_ok, pure_ok, Flow.next.injEq] at rest
          obtain ⟨_, -, -, rfl⟩ := rest
          exact .inr (.inr ⟨rfl, rfl⟩)
        · simp at rest

/-! ## The registers and constants of an instruction -/

def rkRegister (rk : Nat) : List Nat := if rkIsConstant rk then [] else [rk]
def rkConstant (rk : Nat) : List Nat := if rkIsConstant rk then [rkGetConstantIndex rk] else []

-- the registers that the operands name; an open list of arguments or results has no end
def registers (i : Instruction) : List Nat :=
  i.a :: match i.op with
    | .move | .unm | .not | .len => [i.b]
    | .loadnil => i.b :: List.range' i.a (i.b + 1 - i.a)
    | .gettable => i.b :: rkRegister i.c
    | .settable | .add | .sub | .mul | .div | .mod | .pow => rkRegister i.b ++ rkRegister i.c
    | .self => [i.a + 1, i.b] ++ rkRegister i.c
    | .concat => List.range' i.b (i.c + 1 - i.b)
    | .call | .tailcall => List.range' (i.a + 1) (i.b - 1) ++ List.range' i.a (i.c - 1)
    | .return | .vararg => List.range' i.a (i.b - 1)
    | .setlist => List.range' (i.a + 1) i.b
    | _ => []

def constantIndices (i : Instruction) : List Nat :=
  match i.op with
  | .loadk | .getglobal | .setglobal => [i.bx]
  | .gettable | .self => rkConstant i.c
  | .settable | .add | .sub | .mul | .div | .mod | .pow => rkConstant i.b ++ rkConstant i.c
  | _ => []

/-! ## What the verifier says of one instruction -/

variable {f : Code.Function}

theorem rk_checked {rk : Nat} (h : f.checkArgMode rk .constantOrRegisterConstant = .ok ()) :
    (∀ r ∈ rkRegister rk, r < f.maxStack) ∧ ∀ k ∈ rkConstant rk, k < f.constants.length := by
  simp only [Function.checkArgMode, Function.checkreg] at h
  unfold rkRegister rkConstant
  by_cases constant : rkIsConstant rk <;> simp_all [Function.ensure_ok]

theorem reg_checked {reg : Nat} (h : f.checkreg reg = .ok ()) : reg < f.maxStack := Function.ensure_ok.mp h

theorem sum9_ok {x y z : Nat} (h : Function.sum9 x y = .ok z) : z = x + y := by
  unfold Function.sum9 at h
  split at h <;> simp_all

-- the registers of a list that ends at a checked one
theorem range_checked {start n r last : Nat} (h : f.checkreg last = .ok ()) (ends : start + n ≤ last + 1)
    (member : r ∈ List.range' start n) : r < f.maxStack := by
  have bound := reg_checked h
  rw [List.mem_range'_1] at member
  omega

theorem call_checked {n : Nat} (arguments : f.checkArguments i = .ok ()) (results : f.checkResults pc i = .ok ())
    (member : n ∈ List.range' (i.a + 1) (i.b - 1) ++ List.range' i.a (i.c - 1)) : n < f.maxStack := by
  rw [List.mem_append] at member
  rcases member with argument | result
  · have some : i.b ≠ 0 := by
      rintro none
      simp [none] at argument
    rw [Function.checkArguments, if_pos some, bind_ok] at arguments
    obtain ⟨last, sum, checked⟩ := arguments
    exact range_checked checked (by rw [sum9_ok sum]; omega) argument
  · have some : i.c ≠ 0 ∧ i.c - 1 ≠ 0 := by
      rw [List.mem_range'_1] at result
      omega
    rw [Function.checkResults, if_neg some.1, if_pos some.2, bind_ok] at results
    obtain ⟨past, sum, checked⟩ := results
    exact range_checked checked (by rw [sum9_ok sum]; omega) result

theorem returned_checked {n : Nat} (h : f.checkReturn i = .ok ()) (member : n ∈ List.range' i.a (i.b - 1)) :
    n < f.maxStack := by
  have some : 1 < i.b := by
    rw [List.mem_range'_1] at member
    omega
  rw [Function.checkReturn, if_pos some, bind_ok] at h
  obtain ⟨past, sum, checked⟩ := h
  exact range_checked checked (by rw [sum9_ok sum]; omega) member

theorem vararg_checked {n : Nat} (h : f.checkVararg pc i = .ok ()) (member : n ∈ List.range' i.a (i.b - 1)) :
    n < f.maxStack := by
  have some : 1 < i.b := by
    rw [List.mem_range'_1] at member
    omega
  rw [Function.checkVararg, if_neg (by omega), bind_ok] at h
  obtain ⟨past, sum, checked⟩ := h
  exact range_checked (seq_ok.mp checked).2 (by rw [sum9_ok sum]; omega) member

theorem check_registers (straight : StraightLine i.op) (h : f.check pc i = .ok ()) :
    ∀ r ∈ registers i, r < f.maxStack := by
  rcases i with ⟨op, a, b, c⟩
  simp only [Function.check, seq_ok] at h
  obtain ⟨regA, operands, -, rest⟩ := h
  intro r member
  rw [registers, List.mem_cons] at member
  rcases member with rfl | member
  · exact reg_checked regA
  cases op
  all_goals try exact straight.elim
  all_goals simp only at member
  all_goals
    simp only [Function.checkOperands, OpCode.getOpMode, OpCode.getBMode, OpCode.getCMode, OpCode.opMeta,
      seq_ok] at operands
  all_goals simp only [Function.checkOp, seq_ok] at rest
  case move | unm | not | len =>
      rw [List.mem_singleton.mp member]
      exact reg_checked operands.1
  case loadnil =>
      rcases List.mem_cons.mp member with rfl | inside
      · exact reg_checked operands.1
      · rw [List.mem_range'_1] at inside
        have bound := reg_checked operands.1
        omega
  case gettable =>
      rcases List.mem_cons.mp member with rfl | key
      · exact reg_checked operands.1
      · exact (rk_checked operands.2).1 r key
  case settable | add | sub | mul | div | mod | pow =>
      rcases List.mem_append.mp member with left | right
      · exact (rk_checked operands.1).1 r left
      · exact (rk_checked operands.2).1 r right
  case self =>
      rcases List.mem_append.mp member with direct | key
      · simp only [List.mem_cons, List.not_mem_nil, or_false] at direct
        rcases direct with rfl | rfl
        · exact reg_checked rest
        · exact reg_checked operands.1
      · exact (rk_checked operands.2).1 r key
  case concat =>
      have bound := reg_checked operands.2
      rw [List.mem_range'_1] at member
      omega
  case call | tailcall => exact call_checked (i := ⟨_, a, b, c⟩) rest.1 rest.2 member
  case «return» => exact returned_checked (i := ⟨_, a, b, c⟩) rest member
  case vararg => exact vararg_checked (i := ⟨_, a, b, c⟩) rest member
  case setlist =>
      have some : 0 < b := by
        rw [List.mem_range'_1] at member
        omega
      have values := rest.1
      rw [Function.checkValues, if_pos some] at values
      exact range_checked values (Nat.le_of_eq (by simp only; omega)) member
  all_goals simp at member

theorem check_constants (straight : StraightLine i.op) (h : f.check pc i = .ok ()) :
    ∀ k ∈ constantIndices i, k < f.constants.length := by
  rcases i with ⟨op, a, b, c⟩
  simp only [Function.check, seq_ok] at h
  obtain ⟨-, operands, -, -⟩ := h
  intro k member
  cases op
  all_goals try exact straight.elim
  all_goals
    simp only [Function.checkOperands, OpCode.getOpMode, OpCode.getBMode, OpCode.getCMode, OpCode.opMeta,
      seq_ok, if_true, Function.ensure_ok] at operands
  case loadk | getglobal | setglobal =>
      rw [List.mem_singleton.mp member]
      exact operands
  case gettable | self => exact (rk_checked operands.2).2 k member
  case settable | add | sub | mul | div | mod | pow =>
      rcases List.mem_append.mp member with left | right
      · exact (rk_checked operands.1).2 k left
      · exact (rk_checked operands.2).2 k right
  all_goals simp [constantIndices] at member

/-! ## Whole runs -/

-- the states and positions that the loop comes to, whatever the functions that it calls do
inductive Visits (frame : Frame) (initial : Machine P) : Machine P → Nat → Prop
  | start : Visits frame initial initial 0
  | step {execute : Machine P → Except Stop (Machine P)}
      {host : Addr → Machine P → Except Stop (Machine P × Int)} {s s' : Machine P} {pc pc' : Nat}
      {w : UInt32} {i : Instruction} : Visits frame initial s pc → frame.code[pc]? = some w →
      Instruction.ofWord w = some i → exec execute host frame pc i s = .ok (.next s' pc') →
      Visits frame initial s' pc'

-- the loop returns from one of them: behind the code, or at an instruction that ends the function
theorem loop_visits {initial left : Machine P} {fuel : Nat} (visits : Visits frame initial s pc)
    (h : loop host fuel frame s pc = .ok left) : ∃ s pc, Visits frame initial s pc ∧
      (frame.code[pc]? = none ∧ left = s ∨ ∃ execute w i, frame.code[pc]? = some w ∧
        Instruction.ofWord w = some i ∧ exec execute host frame pc i s = .ok (.done left)) := by
  induction fuel generalizing s pc with
  | zero => simp [loop] at h
  | succ fuel ih =>
      unfold loop at h
      split at h
      · rename_i ended
        exact ⟨s, pc, visits, .inl ⟨ended, (Except.ok.inj h).symm⟩⟩
      · rename_i w word
        split at h
        · simp at h
        · rename_i i decoded
          obtain ⟨flow, executed, rest⟩ := bind_ok.mp h
          cases flow with
          | next s' pc' => exact ih (visits.step word decoded executed) rest
          | done s' =>
              cases rest
              exact ⟨s, pc, visits, .inr ⟨_, w, i, word, decoded, executed⟩⟩

-- the instructions of the code, batch numbers aside, only go forward
def OnlyStraightLine (f : Code.Function) : Prop :=
  ∀ pc w i, Function.Position f pc → f.code[pc]? = some w → Instruction.ofWord w = some i → StraightLine i.op

-- a `LOADBOOL` that skips an instruction skips one of a single word
theorem position_skip (accepted : f.checkcode = .ok ()) (position : Function.Position f pc) {w : UInt32}
    (word : f.code[pc]? = some w) (decoded : Instruction.ofWord w = some i) (loads : i.op = .loadbool)
    (skips : i.c ≠ 0) : Function.Position f (pc + 2) := by
  obtain ⟨j, same, checked⟩ := position.checked accepted word
  rw [decoded] at same
  obtain rfl := Option.some.inj same
  have next : Function.Position f (pc + 1) := by
    have after := position.after word decoded
    rwa [Function.width, if_neg (by simp [Function.takesBatch, loads])] at after
  simp only [Function.check, seq_ok] at checked
  obtain ⟨-, -, -, rest⟩ := checked
  simp only [Function.checkOp, loads, if_pos skips, seq_ok] at rest
  obtain ⟨skipped, found, single⟩ := bind_ok.mp rest.2
  rw [Function.ensure_ok] at single
  unfold Function.instruction at found
  split at found
  · rename_i instruction located
    obtain ⟨word', word, decoded⟩ := Option.bind_eq_some_iff.mp located
    cases found
    have after := next.after word decoded
    have narrow : Function.takesBatch skipped = false := by
      simp only [Function.takesBatch, decide_eq_false_iff_not, not_and]
      rintro list
      exact single.resolve_left (not_not.mpr list)
    rwa [Function.width, if_neg (by simp [narrow])] at after
  · simp at found

theorem visits_position (accepted : frame.closure.proto.checkcode = .ok ())
    (straight : OnlyStraightLine frame.closure.proto) {initial : Machine P}
    (visits : Visits frame initial s pc) : Function.Position frame.closure.proto pc := by
  induction visits with
  | start => exact .first
  | @step execute host s s' pc pc' w i _ word decoded step position =>
      have after := position.after word decoded
      rcases exec_next (straight pc w i position word decoded) step with
        ⟨single, rfl⟩ | ⟨loads, skips, rfl⟩ | ⟨batch, rfl⟩
      · rwa [Function.width, if_neg (by simp [single])] at after
      · exact position_skip accepted position word decoded loads skips
      · rwa [Function.width, if_pos batch] at after

theorem verified_run (frame : Frame) (accepted : frame.closure.proto.checkcode = .ok ())
    (straight : OnlyStraightLine frame.closure.proto) (initial s : Machine P) (pc : Nat)
    (visits : Visits frame initial s pc) :
    (∀ w, frame.code[pc]? = some w → ∃ i, Instruction.ofWord w = some i ∧
      (∀ r ∈ registers i, r < frame.closure.proto.maxStack) ∧
      ∀ k ∈ constantIndices i, k < frame.constants.length) ∧
    ∀ j w i, Function.Position frame.closure.proto j → frame.code[j]? = some w →
      Instruction.ofWord w = some i → Function.takesBatch i = true → pc ≠ j + 1 := by
  have position := visits_position accepted straight visits
  constructor
  · intro w word
    obtain ⟨i, decoded, checked⟩ := position.checked accepted word
    have line := straight pc w i position word decoded
    exact ⟨i, decoded, check_registers line checked, check_constants line checked⟩
  · rintro j w i list word decoded batch rfl
    have disjoint := position.disjoint list (Nat.lt_succ_self j) word decoded
    rw [Function.width, if_pos batch] at disjoint
    omega

-- `LOADBOOL` skips the first of two returns
def skippingFrame : Frame where
  closure := { proto := {
    code := [Instruction.word ⟨.loadbool, 0, 1, 1⟩, Instruction.word ⟨.return, 0, 1, 0⟩,
      Instruction.word ⟨.return, 0, 1, 0⟩]
    maxStackSize := 2 } }
  base := 0

def skippingMachine : Machine Platform.plain where
  stack := [.nil, .nil, .nil]
  globals := 0
  tables := [Table.init _]
  closures := [skippingFrame.closure]

theorem verified_run_skipping : ∃ s, Visits skippingFrame skippingMachine s 2 ∧
    ∃ i, Instruction.ofWord (Instruction.word ⟨.return, 0, 1, 0⟩) = some i ∧
      ∀ r ∈ registers i, r < skippingFrame.closure.proto.maxStack := by
  have loads : Instruction.ofWord (Instruction.word ⟨.loadbool, 0, 1, 1⟩) = some ⟨.loadbool, 0, 1, 1⟩ := by
    decide
  have returns : Instruction.ofWord (Instruction.word ⟨.return, 0, 1, 0⟩) = some ⟨.return, 0, 1, 0⟩ := by
    decide
  have straight : OnlyStraightLine skippingFrame.closure.proto := by
    intro pc w i _ word decoded
    rcases pc with _ | _ | _ | pc <;> simp [skippingFrame] at word <;> subst word
    · obtain rfl := Option.some.inj (loads.symm.trans decoded)
      trivial
    all_goals
      obtain rfl := Option.some.inj (returns.symm.trans decoded)
      trivial
  have visits : Visits skippingFrame skippingMachine
      { skippingMachine with stack := [.boolean true, .nil, .nil] } 2 :=
    @Visits.step _ _ _ .ok (fun _ s => .ok (s, 0)) _ _ 0 2 _ _ .start rfl loads rfl
  obtain ⟨i, decoded, below, -⟩ :=
    (verified_run skippingFrame (by decide) straight skippingMachine _ 2 visits).1 _ rfl
  exact ⟨_, visits, i, decoded, below⟩

end Zua.Vm
