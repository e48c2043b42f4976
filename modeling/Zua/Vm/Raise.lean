import Zua.Vm.Calls

/-!
# Errors and the call info

The machine once more, with the call info that an error leaves behind. `try` passes an error on past the
statements that put the call info back, so it is the one of the frame that failed.
-/

namespace Zua.Vm
open Code Object
open Memory (CallInfo)

variable {P : Platform}

abbrev Raised (α : Type) := Except (Stop × CallInfo) α

-- code that does not write the call info
def leaving {α : Type} (ci : CallInfo) (x : Except Stop α) : Raised α := x.mapError fun e => (e, ci)

def forget {α : Type} (x : Raised α) : Except Stop α := x.mapError Prod.fst

namespace Raising

section Calls

variable (execute : Machine P → Raised (Machine P)) (host : Addr → Machine P → Except Stop (Machine P × Int))

-- the stack is checked before the call info is set
def callLua (closure : Addr) (numArgs : Nat) (numResults : Int) (s : Machine P) : Raised (Machine P) := do
  let entered ← leaving s.ci (enterLua closure numArgs numResults s)
  let left ← execute entered
  return { left with ci := s.ci }

-- a function written in C returns no error
def callValue (func : Value) (numArgs : Nat) (numResults : Int) (s : Machine P) : Raised (Machine P) :=
  match func with
  | .closure a => callLua execute a numArgs numResults s
  | .cClosure a => leaving s.ci (callC host a numArgs s)
  | _ => .error (.error .attemptToCallNonFunction, s.ci)

-- `LuaState.call`
def call (numArgs : Nat) (numResults : Int) (s : Machine P) : Raised (Machine P) :=
  if s.top < numArgs + 1 then .error (.panic, s.ci)
  else do
    let func ← leaving s.ci (s.slot (s.top - (numArgs + 1)))
    callValue execute host func numArgs numResults s

def execCall (frame : Frame) (pc : Nat) (i : Instruction) (s : Machine P) : Raised (Flow P) := do
  let func ← leaving s.ci (s.slot (frame.base + i.a))
  let args ← leaving s.ci (numArgs s frame.base i.a i.b)
  let numResults : Int := if 0 < i.c then (i.c - 1 : Nat) else -1
  let s ← callValue execute host func args numResults { s with ci := { s.ci with base := frame.base + i.a } }
  return .next { s with ci := { s.ci with base := frame.base } } (pc + 1)

def execTailcall (frame : Frame) (i : Instruction) (s : Machine P) : Raised (Flow P) := do
  let func ← leaving s.ci (s.slot (frame.base + i.a))
  let args ← leaving s.ci (numArgs s frame.base i.a i.b)
  let moved ← leaving s.ci (copySlots s frame.base (frame.base + i.a) (args + 1))
  let left ← callValue execute host func args moved.ci.numResults moved
  return .done left

def execTforloop (frame : Frame) (pc : Nat) (i : Instruction) (s : Machine P) : Raised (Flow P) := do
  let func ← leaving s.ci (s.slot (frame.base + i.a))
  if func = .nil then return .next s (pc + 2)
  else
    let state ← leaving s.ci (s.slot (frame.base + i.a + 1))
    let control ← leaving s.ci (s.slot (frame.base + i.a + 2))
    let s ← leaving s.ci (s.push func)
    let s ← leaving s.ci (s.push state)
    let s ← leaving s.ci (s.push control)
    let s ← call execute host 2 3 s
    let value ← leaving s.ci (s.slot (frame.base + i.a + 3))
    return .next s (if value = .nil then pc + 2 else pc + 1)

-- the other instructions run no other code and do not write the call info
def exec (frame : Frame) (pc : Nat) (i : Instruction) (s : Machine P) : Raised (Flow P) :=
  match i.op with
  | .call => execCall execute host frame pc i s
  | .tailcall => execTailcall execute host frame i s
  | .tforloop => execTforloop execute host frame pc i s
  | _ => leaving s.ci (Vm.exec (fun _ => .error .panic) host frame pc i s)

end Calls

section Run

variable (host : Addr → Machine P → Except Stop (Machine P × Int))

def loop : Nat → Frame → Machine P → Nat → Raised (Machine P)
  | 0, _, s, _ => .error (.timeout, s.ci)
  | fuel + 1, frame, s, pc =>
      match frame.code[pc]? with
      | none => .ok s
      | some word =>
          match Instruction.ofWord word with
          | none => .error (.panic, s.ci)
          | some i => do
              let flow ← exec (fun s => match frameOf s with
                | some frame => loop fuel frame s 0
                | none => .error (.panic, s.ci)) host frame pc i s
              match flow with
              | .next s pc => loop fuel frame s pc
              | .done s => .ok s

def executeLua (fuel : Nat) (s : Machine P) : Raised (Machine P) :=
  match frameOf s with
  | some frame => loop host fuel frame s 0
  | none => .error (.panic, s.ci)

end Run

end Raising

/-! ## The same machine -/

section Forget

variable {α β : Type} {execute : Machine P → Raised (Machine P)}
  {host : Addr → Machine P → Except Stop (Machine P × Int)} {frame : Frame} {s : Machine P} {pc : Nat}
  {i : Instruction}

@[simp]
theorem forget_leaving (ci : CallInfo) (x : Except Stop α) : forget (leaving ci x) = x := by
  cases x <;> rfl

@[simp]
theorem forget_error (e : Stop) (ci : CallInfo) : forget (.error (e, ci) : Raised α) = .error e := rfl

@[simp]
theorem forget_ok (a : α) : forget (.ok a : Raised α) = .ok a := rfl

@[simp]
theorem forget_pure (a : α) : forget (pure a : Raised α) = pure a := rfl

@[simp]
theorem forget_bind (x : Raised α) (f : α → Raised β) : forget (x >>= f) = forget x >>= fun a => forget (f a) := by
  cases x <;> rfl

@[simp]
theorem forget_map (f : α → β) (x : Raised α) : forget (f <$> x) = f <$> forget x := by
  cases x <;> rfl

theorem forget_callLua (closure : Addr) (numArgs : Nat) (numResults : Int) (s : Machine P) :
    forget (Raising.callLua execute closure numArgs numResults s) =
      callLua (fun s => forget (execute s)) closure numArgs numResults s := by
  simp [Raising.callLua, callLua]

theorem forget_callValue (func : Value) (numArgs : Nat) (numResults : Int) (s : Machine P) :
    forget (Raising.callValue execute host func numArgs numResults s) =
      callValue (fun s => forget (execute s)) host func numArgs numResults s := by
  cases func with
  | closure a => exact forget_callLua a numArgs numResults s
  | cClosure a => exact forget_leaving _ _
  | _ => rfl

theorem forget_call (numArgs : Nat) (numResults : Int) (s : Machine P) :
    forget (Raising.call execute host numArgs numResults s) =
      call (fun s => forget (execute s)) host numArgs numResults s := by
  unfold Raising.call call
  split
  · rfl
  · simp [forget_callValue]

theorem forget_exec : forget (Raising.exec execute host frame pc i s) =
    exec (fun s => forget (execute s)) host frame pc i s := by
  rcases i with ⟨op, a, b, c⟩
  cases op
  case call => simp [Raising.exec, exec, Raising.execCall, execCall, forget_callValue]
  case tailcall => simp [Raising.exec, exec, Raising.execTailcall, execTailcall, forget_callValue]
  case tforloop =>
      simp only [Raising.exec, exec, Raising.execTforloop, execTforloop, forget_bind, forget_leaving]
      congr 1
      funext func
      split
      · rfl
      · simp [forget_call]
  all_goals exact forget_leaving _ _

theorem forget_loop (fuel : Nat) : forget (Raising.loop host fuel frame s pc) = loop host fuel frame s pc := by
  induction fuel generalizing frame s pc with
  | zero => rfl
  | succ fuel ih =>
      unfold Raising.loop loop
      cases frame.code[pc]? with
      | none => rfl
      | some word =>
          dsimp only
          cases Instruction.ofWord word with
          | none => rfl
          | some i =>
              dsimp only
              rw [forget_bind, forget_exec]
              have same : (fun s : Machine P => forget (match frameOf s with
                  | some frame => Raising.loop host fuel frame s 0
                  | none => .error (.panic, s.ci))) = fun s => match frameOf s with
                  | some frame => loop host fuel frame s 0
                  | none => .error .panic := by
                funext s
                cases frameOf s with
                | none => rfl
                | some frame => exact ih
              rw [same]
              congr 1
              funext flow
              cases flow with
              | next s pc => exact ih
              | done s => rfl

theorem forget_executeLua (fuel : Nat) (s : Machine P) :
    forget (Raising.executeLua host fuel s) = executeLua host fuel s := by
  unfold Raising.executeLua executeLua
  cases frameOf s with
  | none => rfl
  | some frame => exact forget_loop fuel

end Forget

/-! ## What an error leaves -/

-- an error leaves the call info as it was in `s`
def Intact {α : Type} (s : Machine P) (x : Raised α) : Prop := ∀ e ci, x = .error (.error e, ci) → ci = s.ci

-- a Lua function is entered, and its code fails
def Fails (execute : Machine P → Raised (Machine P)) (func : Value) (numArgs : Nat) (numResults : Int)
    (s : Machine P) : Prop :=
  ∃ closure entered e ci, func = .closure closure ∧ enterLua closure numArgs numResults s = .ok entered ∧
    execute entered = .error (.error e, ci)

-- an error before any code of the machine runs
def Rejected (host : Addr → Machine P → Except Stop (Machine P × Int)) (func : Value) (numArgs : Nat)
    (numResults : Int) (s : Machine P) : Prop :=
  match func with
  | .closure a => ∃ e, enterLua a numArgs numResults s = .error (.error e)
  | .cClosure a => ∃ e, callC host a numArgs s = .error (.error e)
  | _ => True

def InLua (s : Machine P) : Prop := ∃ a, s.ci.func = .closure a

-- a function written in C that is called from Lua code leaves the call info of a Lua function: it
-- writes the call info only in the calls that it makes
def HostInLua (host : Addr → Machine P → Except Stop (Machine P × Int)) : Prop :=
  ∀ a s s' n, InLua s → host a s = .ok (s', n) → InLua s'

section Errors

variable {α : Type} {execute : Machine P → Raised (Machine P)}
  {host : Addr → Machine P → Except Stop (Machine P × Int)} {frame : Frame} {s s' : Machine P} {pc : Nat}
  {i : Instruction} {func : Value} {args : Nat} {numResults : Int} {e : VmError} {ci : CallInfo}

theorem leaving_ok {x : Except Stop α} {a : α} : leaving ci x = .ok a ↔ x = .ok a := by
  cases x <;> simp [leaving, Except.mapError]

theorem leaving_error {x : Except Stop α} {ci' : CallInfo} :
    leaving ci x = .error (.error e, ci') ↔ x = .error (.error e) ∧ ci' = ci := by
  cases x <;> simp [leaving, Except.mapError, eq_comm]

theorem callValue_rejected (execute : Machine P → Raised (Machine P)) (rejected : Rejected host func args numResults s) :
    ∃ e, Raising.callValue execute host func args numResults s = .error (.error e, s.ci) := by
  cases func with
  | closure a =>
      obtain ⟨e, refused⟩ := rejected
      refine ⟨e, ?_⟩
      rw [Raising.callValue, Raising.callLua, refused]
      rfl
  | cClosure a =>
      obtain ⟨e, refused⟩ := rejected
      refine ⟨e, ?_⟩
      rw [Raising.callValue, refused]
      rfl
  | _ => exact ⟨_, rfl⟩

theorem callLua_fails {closure : Addr} {entered : Machine P}
    (entering : enterLua closure args numResults s = .ok entered) (fails : execute entered = .error (.error e, ci)) :
    Raising.callValue execute host (.closure closure) args numResults s = .error (.error e, ci) := by
  rw [Raising.callValue, Raising.callLua, entering]
  show (do
    let left ← execute entered
    return { left with ci := s.ci }) = _
  rw [fails]
  rfl

theorem callValue_error (h : Raising.callValue execute host func args numResults s = .error (.error e, ci)) :
    Rejected host func args numResults s ∧ ci = s.ci ∨ Fails execute func args numResults s ∧
      ∃ entered, execute entered = .error (.error e, ci) := by
  cases func with
  | closure a =>
      rcases bind_error.mp h with refused | ⟨entered, entering, rest⟩
      · obtain ⟨refused, same⟩ := leaving_error.mp refused
        exact .inl ⟨⟨e, refused⟩, same⟩
      · rcases bind_error.mp rest with failed | ⟨left, -, ended⟩
        · exact .inr ⟨⟨a, entered, e, ci, rfl, leaving_ok.mp entering, failed⟩, entered, failed⟩
        · cases ended
  | cClosure a =>
      obtain ⟨refused, same⟩ := leaving_error.mp h
      exact .inl ⟨⟨e, refused⟩, same⟩
  | _ =>
      cases h
      exact .inl ⟨trivial, rfl⟩

/-! ## The code of a Lua function -/

theorem enterLua_inLua {closure : Addr} {entered : Machine P}
    (h : enterLua closure args numResults s = .ok entered) : InLua entered := by
  unfold enterLua at h
  split at h
  · cases h
  · split at h
    · cases h
    · split at h
      · cases h
      · obtain ⟨filled, nils, rest⟩ := bind_ok.mp h
        cases pure_ok.mp rest
        obtain ⟨same, -⟩ := setNils_ok nils
        rw [same]
        exact ⟨closure, rfl⟩

theorem shift_info {start n : Nat} (h : shift s start n = .ok s') : s'.ci = s.ci := by
  induction n generalizing s' with
  | zero =>
      cases h
      rfl
  | succ n ih =>
      obtain ⟨t, first, rest⟩ := bind_ok.mp h
      obtain ⟨v, -, set⟩ := bind_ok.mp rest
      obtain ⟨-, rfl⟩ := setSlot_ok set
      have info : t.ci = s.ci := ih first
      exact info

theorem push_info {v : Value} (h : s.push v = .ok s') : s'.ci = s.ci := by
  unfold Machine.push at h
  split at h
  · cases h
  · cases h
    rfl

theorem callValue_inLua (keeps : HostInLua host) (inside : InLua s)
    (h : Raising.callValue execute host func args numResults s = .ok s') : InLua s' := by
  cases func with
  | closure a =>
      obtain ⟨entered, -, rest⟩ := bind_ok.mp h
      obtain ⟨left, -, ended⟩ := bind_ok.mp rest
      cases pure_ok.mp ended
      exact inside
  | cClosure a =>
      obtain ⟨shifted, moved, rest⟩ := bind_ok.mp (leaving_ok.mp h)
      obtain ⟨⟨left, n⟩, called, ended⟩ := bind_ok.mp rest
      cases pure_ok.mp ended
      refine keeps a _ left n ?_ called
      unfold InLua
      rwa [shift_info moved]
  | _ => cases h

theorem call_inLua (keeps : HostInLua host) (inside : InLua s)
    (h : Raising.call execute host args numResults s = .ok s') : InLua s' := by
  unfold Raising.call at h
  split at h
  · cases h
  · obtain ⟨func, -, called⟩ := bind_ok.mp h
    exact callValue_inLua keeps inside called

-- the instructions that call no function
def Plain : OpCode → Prop
  | .call | .tailcall | .tforloop => False
  | _ => True

theorem exec_plain (plain : Plain i.op) : Raising.exec execute host frame pc i s =
    leaving s.ci (exec (fun _ => .error .panic) host frame pc i s) := by
  rcases i with ⟨op, a, b, c⟩
  cases op
  all_goals first
    | exact plain.elim
    | rfl

theorem info_writable (low : Nat) (ci : CallInfo) : Writable low fun t : Machine P => t.ci = ci where
  setSlot here _ h := by
    obtain ⟨-, rfl⟩ := setSlot_ok h
    exact here
  objects _ _ here := here

theorem plain_next {execute : Machine P → Except Stop (Machine P)} {pc' : Nat} (plain : Plain i.op)
    (h : exec execute host frame pc i s = .ok (.next s' pc')) : s'.ci = s.ci := by
  by_cases own : Local i.op
  · obtain ⟨t, pc', same, here⟩ := exec_touches (info_writable frame.base s.ci) own rfl le_rfl _ h
    cases same
    exact here
  · rcases i with ⟨op, a, b, c⟩
    cases op
    all_goals first
      | exact plain.elim
      | exact absurd trivial own
      | skip
    case setupval =>
        simp only [exec] at h
        split at h
        · obtain ⟨v, -, rest⟩ := bind_ok.mp h
          obtain ⟨t, set, ended⟩ := bind_ok.mp rest
          cases pure_ok.mp ended
          unfold setUpvalue at set
          split at set
          · obtain ⟨-, rfl⟩ := setSlot_ok set
            rfl
          · cases set
            rfl
          · cases set
        · cases h
          rfl
    case «return» =>
        obtain ⟨t, -, ended⟩ := bind_ok.mp h
        cases ended

theorem exec_inLua {pc' : Nat} (keeps : HostInLua host) (inside : InLua s)
    (h : Raising.exec execute host frame pc i s = .ok (.next s' pc')) : InLua s' := by
  by_cases plain : Plain i.op
  · rw [exec_plain plain] at h
    unfold InLua
    rwa [plain_next plain (leaving_ok.mp h)]
  · rcases i with ⟨op, a, b, c⟩
    cases op
    all_goals first
      | exact absurd trivial plain
      | skip
    case call =>
        obtain ⟨func, -, rest⟩ := bind_ok.mp h
        obtain ⟨args, -, rest⟩ := bind_ok.mp rest
        obtain ⟨left, called, ended⟩ := bind_ok.mp rest
        cases pure_ok.mp ended
        have called : Raising.callValue execute host func args (callResults ⟨.call, a, b, c⟩)
            (calling frame ⟨.call, a, b, c⟩ s) = .ok left := called
        have moved : InLua (calling frame ⟨.call, a, b, c⟩ s) := inside
        have result := callValue_inLua keeps moved called
        exact result
    case tailcall =>
        obtain ⟨func, -, rest⟩ := bind_ok.mp h
        obtain ⟨args, -, rest⟩ := bind_ok.mp rest
        obtain ⟨moved, -, rest⟩ := bind_ok.mp rest
        obtain ⟨left, -, ended⟩ := bind_ok.mp rest
        cases ended
    case tforloop =>
        obtain ⟨func, -, rest⟩ := bind_ok.mp h
        dsimp only at rest
        split at rest
        · cases rest
          exact inside
        · obtain ⟨state, -, rest⟩ := bind_ok.mp rest
          obtain ⟨control, -, rest⟩ := bind_ok.mp rest
          obtain ⟨s₁, first, rest⟩ := bind_ok.mp rest
          obtain ⟨s₂, second, rest⟩ := bind_ok.mp rest
          obtain ⟨s₃, third, rest⟩ := bind_ok.mp rest
          obtain ⟨left, called, rest⟩ := bind_ok.mp rest
          obtain ⟨value, -, ended⟩ := bind_ok.mp rest
          cases pure_ok.mp ended
          refine call_inLua keeps ?_ called
          unfold InLua
          rwa [push_info (leaving_ok.mp third), push_info (leaving_ok.mp second), push_info (leaving_ok.mp first)]

-- the call info of an error is that of a Lua function
def RaisesInLua (execute : Machine P → Raised (Machine P)) : Prop :=
  ∀ t e ci, execute t = .error (.error e, ci) → ∃ a, ci.func = .closure a

theorem callValue_raises (raises : RaisesInLua execute) (inside : InLua s)
    (h : Raising.callValue execute host func args numResults s = .error (.error e, ci)) :
    ∃ a, ci.func = .closure a := by
  rcases callValue_error h with ⟨-, rfl⟩ | ⟨-, entered, failed⟩
  · exact inside
  · exact raises entered e ci failed

theorem call_raises (raises : RaisesInLua execute) (inside : InLua s)
    (h : Raising.call execute host args numResults s = .error (.error e, ci)) : ∃ a, ci.func = .closure a := by
  unfold Raising.call at h
  split at h
  · cases h
  · rcases bind_error.mp h with failed | ⟨func, -, failed⟩
    · rw [(leaving_error.mp failed).2]
      exact inside
    · exact callValue_raises raises inside failed

theorem exec_raises (raises : RaisesInLua execute) (inside : InLua s)
    (h : Raising.exec execute host frame pc i s = .error (.error e, ci)) : ∃ a, ci.func = .closure a := by
  have own {α : Type} {x : Except Stop α} (failed : leaving s.ci x = .error (.error e, ci)) :
      ∃ a, ci.func = .closure a := by
    rw [(leaving_error.mp failed).2]
    exact inside
  by_cases plain : Plain i.op
  · rw [exec_plain plain] at h
    exact own h
  · rcases i with ⟨op, a, b, c⟩
    cases op
    all_goals first
      | exact absurd trivial plain
      | skip
    case call =>
        rcases bind_error.mp h with failed | ⟨func, -, rest⟩
        · exact own failed
        rcases bind_error.mp rest with failed | ⟨args, -, rest⟩
        · exact own failed
        rcases bind_error.mp rest with failed | ⟨left, -, ended⟩
        · have failed : Raising.callValue execute host func args (callResults ⟨.call, a, b, c⟩)
              (calling frame ⟨.call, a, b, c⟩ s) = .error (.error e, ci) := failed
          have moved : InLua (calling frame ⟨.call, a, b, c⟩ s) := inside
          exact callValue_raises raises moved failed
        · cases ended
    case tailcall =>
        rcases bind_error.mp h with failed | ⟨func, -, rest⟩
        · exact own failed
        rcases bind_error.mp rest with failed | ⟨args, -, rest⟩
        · exact own failed
        rcases bind_error.mp rest with failed | ⟨moved, copied, rest⟩
        · exact own failed
        rcases bind_error.mp rest with failed | ⟨left, -, ended⟩
        · refine callValue_raises raises ?_ failed
          rw [copySlots_same (leaving_ok.mp copied)]
          exact inside
        · cases ended
    case tforloop =>
        rcases bind_error.mp h with failed | ⟨func, -, rest⟩
        · exact own failed
        dsimp only at rest
        split at rest
        · cases rest
        rcases bind_error.mp rest with failed | ⟨state, -, rest⟩
        · exact own failed
        rcases bind_error.mp rest with failed | ⟨control, -, rest⟩
        · exact own failed
        rcases bind_error.mp rest with failed | ⟨s₁, first, rest⟩
        · exact own failed
        have info₁ := push_info (leaving_ok.mp first)
        rw [info₁] at rest
        rcases bind_error.mp rest with failed | ⟨s₂, second, rest⟩
        · exact own failed
        have info₂ := (push_info (leaving_ok.mp second)).trans info₁
        rw [info₂] at rest
        rcases bind_error.mp rest with failed | ⟨s₃, third, rest⟩
        · exact own failed
        have info₃ := (push_info (leaving_ok.mp third)).trans info₂
        rcases bind_error.mp rest with failed | ⟨left, -, rest⟩
        · refine call_raises raises ?_ failed
          unfold InLua
          rwa [info₃]
        rcases bind_error.mp rest with failed | ⟨value, -, ended⟩
        · -- reading a slot is a panic or succeeds
          obtain ⟨failed, -⟩ := leaving_error.mp failed
          unfold Machine.slot at failed
          split at failed
          · cases failed
          · cases failed
        · cases ended

theorem frameOf_inLua (h : frameOf s = some frame) : InLua s := by
  unfold frameOf at h
  split at h
  · rename_i a func
    exact ⟨a, func⟩
  · cases h

-- by induction on the fuel: every frame that runs is that of a Lua function
theorem loop_raises (keeps : HostInLua host) (fuel : Nat) (inside : InLua s)
    (h : Raising.loop host fuel frame s pc = .error (.error e, ci)) : ∃ a, ci.func = .closure a := by
  induction fuel generalizing frame s pc e ci with
  | zero => cases h
  | succ fuel ih =>
      have raises : RaisesInLua fun s : Machine P => match frameOf s with
          | some frame => Raising.loop host fuel frame s 0
          | none => .error (.panic, s.ci) := by
        intro t e ci failed
        cases framed : frameOf t with
        | none =>
            simp only [framed] at failed
            cases failed
        | some frame =>
            simp only [framed] at failed
            exact ih (frameOf_inLua framed) failed
      unfold Raising.loop at h
      split at h
      · cases h
      · split at h
        · cases h
        · rcases bind_error.mp h with failed | ⟨flow, executed, rest⟩
          · exact exec_raises raises inside failed
          · cases flow with
            | next t pc' => exact ih (exec_inLua keeps inside executed) rest
            | done t => cases rest

theorem executeLua_raises (keeps : HostInLua host) (fuel : Nat) : RaisesInLua (Raising.executeLua (P := P) host fuel) := by
  intro t e ci h
  unfold Raising.executeLua at h
  cases framed : frameOf t with
  | none =>
      rw [framed] at h
      cases h
  | some frame =>
      rw [framed] at h
      exact loop_raises keeps fuel (frameOf_inLua framed) h

/-! ## Failed calls -/

-- `LuaState.call` finds a Lua function, and its code fails
def CallFails (execute : Machine P → Raised (Machine P)) (numArgs : Nat) (numResults : Int) (s : Machine P) : Prop :=
  numArgs + 1 ≤ s.top ∧ ∃ func, s.slot (s.top - (numArgs + 1)) = .ok func ∧ Fails execute func numArgs numResults s

-- what a CALL instruction calls, and with how many arguments
def Calls (frame : Frame) (i : Instruction) (s : Machine P) (func : Value) (args : Nat) : Prop :=
  s.slot (frame.base + i.a) = .ok func ∧ numArgs s frame.base i.a i.b = .ok args

theorem call_error (h : Raising.call execute host args numResults s = .error (.error e, ci)) :
    ci = s.ci ∨ CallFails execute args numResults s := by
  unfold Raising.call at h
  split at h
  · cases h
  · rename_i enough
    rcases bind_error.mp h with failed | ⟨func, found, failed⟩
    · exact .inl (leaving_error.mp failed).2
    · rcases callValue_error failed with ⟨-, same⟩ | ⟨fails, -⟩
      · exact .inl same
      · exact .inr ⟨Nat.not_lt.mp enough, func, leaving_ok.mp found, fails⟩

theorem call_fails (host : Addr → Machine P → Except Stop (Machine P × Int))
    (fails : CallFails execute args numResults s) : ∃ entered e ci,
    execute entered = .error (.error e, ci) ∧
      Raising.call execute host args numResults s = .error (.error e, ci) := by
  obtain ⟨enough, func, found, closure, entered, e, ci, rfl, entering, failed⟩ := fails
  refine ⟨entered, e, ci, failed, ?_⟩
  rw [Raising.call, if_neg (Nat.not_lt.mpr enough), found]
  show Raising.callValue execute host (.closure closure) args numResults s = _
  exact callLua_fails entering failed

theorem execCall_error (calls : Calls frame i s func args)
    (h : Raising.execCall execute host frame pc i s = .error (.error e, ci)) :
    Rejected host func args (callResults i) (calling frame i s) ∧ ci = (calling frame i s).ci ∨
      Fails execute func args (callResults i) (calling frame i s) := by
  obtain ⟨found, count⟩ := calls
  rw [Raising.execCall, found, count] at h
  rcases bind_error.mp (show (Raising.callValue execute host func args (callResults i) (calling frame i s) >>=
    _) = _ from h) with failed | ⟨left, -, ended⟩
  · rcases callValue_error failed with rejected | ⟨fails, -⟩
    · exact .inl rejected
    · exact .inr fails
  · cases ended

theorem execCall_rejected (execute : Machine P → Raised (Machine P)) (pc : Nat) (calls : Calls frame i s func args)
    (rejected : Rejected host func args (callResults i) (calling frame i s)) :
    ∃ e, Raising.execCall execute host frame pc i s = .error (.error e, (calling frame i s).ci) := by
  obtain ⟨found, count⟩ := calls
  obtain ⟨e, failed⟩ := callValue_rejected execute rejected
  refine ⟨e, ?_⟩
  rw [Raising.execCall, found, count]
  show (Raising.callValue execute host func args (callResults i) (calling frame i s) >>= _) = _
  rw [failed]
  rfl

end Errors

-- A call that fails before its function runs leaves the call info, and CALL leaves it up to the base. When the
-- code of the function fails it is not put back: outside of Lua code it never is.
theorem call_intact (host : Addr → Machine P → Except Stop (Machine P × Int)) (keeps : HostInLua host) (fuel : Nat)
    (s : Machine P) :
    (∀ numArgs numResults,
      (¬CallFails (Raising.executeLua host fuel) numArgs numResults s →
        Intact s (Raising.call (Raising.executeLua host fuel) host numArgs numResults s)) ∧
      (¬InLua s → (Intact s (Raising.call (Raising.executeLua host fuel) host numArgs numResults s) ↔
        ¬CallFails (Raising.executeLua host fuel) numArgs numResults s))) ∧
    ∀ frame pc i func args, i.op = .call → Calls frame i s func args →
      ¬Fails (Raising.executeLua host fuel) func args (callResults i) (calling frame i s) →
      (Intact s (Raising.exec (Raising.executeLua host fuel) host frame pc i s) ↔
        (Rejected host func args (callResults i) (calling frame i s) → frame.base + i.a = s.ci.base)) := by
  refine ⟨?_, ?_⟩
  · intro numArgs numResults
    have enough (none : ¬CallFails (Raising.executeLua host fuel) numArgs numResults s) :
        Intact s (Raising.call (Raising.executeLua host fuel) host numArgs numResults s) := by
      intro e ci failed
      exact (call_error failed).resolve_right none
    refine ⟨enough, fun outside => ⟨?_, enough⟩⟩
    intro intact fails
    obtain ⟨entered, e, ci, failed, called⟩ := call_fails host fails
    obtain ⟨a, func⟩ := executeLua_raises keeps fuel entered e ci failed
    rw [intact e ci called] at func
    exact outside ⟨a, func⟩
  · intro frame pc i func args op calls none
    have same : Raising.exec (Raising.executeLua host fuel) host frame pc i s =
        Raising.execCall (Raising.executeLua host fuel) host frame pc i s := by
      simp only [Raising.exec, op]
    rw [same]
    constructor
    · intro intact rejected
      obtain ⟨e, failed⟩ := execCall_rejected (Raising.executeLua host fuel) pc calls rejected
      exact congrArg CallInfo.base (intact e _ failed)
    · intro base e ci failed
      obtain ⟨rejected, rfl⟩ := (execCall_error calls failed).resolve_right none
      show { s.ci with base := frame.base + i.a } = s.ci
      rw [base rejected]

-- `local a` and then `-a`
def negating : Function := { code := [Instruction.word ⟨.unm, 1, 1, 0⟩], maxStackSize := 2 }

-- a value that is called from outside with no arguments
def calledMachine (func : Value) : Machine Platform.plain where
  stack := [func, .nil, .nil, .nil]
  top := 1
  globals := 0
  tables := [Table.init _]
  closures := [{ proto := negating }]

theorem call_intact_nil : Intact (calledMachine .nil)
    (Raising.call (Raising.executeLua noHost 1) noHost 0 0 (calledMachine .nil)) := by
  have keeps : HostInLua noHost := by
    intro a s s' n _ h
    cases h
  refine ((call_intact noHost keeps 1 (calledMachine .nil)).1 0 0).1 ?_
  rintro ⟨-, func, found, closure, entered, e, ci, rfl, -⟩
  cases found

-- the call info of the failed function stays, and so does the base that CALL has set
theorem call_not_intact :
    ¬Intact (calledMachine (.closure 0))
      (Raising.call (Raising.executeLua noHost 1) noHost 0 0 (calledMachine (.closure 0))) ∧
    ¬Intact (calledMachine (.closure 0))
      (Raising.exec (Raising.executeLua noHost 1) noHost ⟨{ proto := negating }, 0⟩ 0 ⟨.call, 1, 1, 1⟩
        (calledMachine (.closure 0))) := by
  refine ⟨?_, ?_⟩
  · intro intact
    have left := intact .attemptToPerformArithmetic { func := .closure 0 } rfl
    cases left
  · intro intact
    have left := intact .attemptToCallNonFunction { base := 1 } rfl
    cases left

end Zua.Vm
