import Zua.Base.Except
import Zua.Compile.Nested
import Zua.Vm.Execute

/-!
# Entering a function

The registers of a compiled chunk when `executeLua` starts. The base of the frame is the slot of the function
itself, and only the slots from the top on are cleared.
-/

namespace Zua.Vm
open Code Object Compile

variable {P : Platform} {s s' e : Machine P}

theorem setSlot_ok {i : Nat} {v : Value} (h : s.setSlot i v = .ok s') :
    i < s.stack.length ∧ s' = { s with stack := s.stack.set i v } := by
  unfold Machine.setSlot at h
  split at h
  · exact ⟨by assumption, (Except.ok.inj h).symm⟩
  · cases h

-- the slots from `start` on are nil, and nothing else is changed
theorem setNils_ok {start n : Nat} (h : s.setNils start n = .ok s') :
    s' = { s with stack := s'.stack } ∧
      ∀ i, s'.stack[i]? = if start ≤ i ∧ i < start + n then some .nil else s.stack[i]? := by
  induction n generalizing s start with
  | zero =>
      cases h
      refine ⟨rfl, ?_⟩
      intro i
      rw [if_neg (by omega)]
  | succ n ih =>
      obtain ⟨set, first, rest⟩ := bind_ok.mp h
      obtain ⟨inside, rfl⟩ := setSlot_ok first
      obtain ⟨same, slots⟩ := ih rest
      refine ⟨same, ?_⟩
      intro i
      rw [slots i, List.getElem?_set]
      by_cases above : start + 1 ≤ i ∧ i < start + 1 + n
      · rw [if_pos above, if_pos (by omega)]
      · rw [if_neg above]
        by_cases here : start = i
        · subst here
          simp [inside]
        · rw [if_neg here, if_neg (by omega)]

-- the ways into `executeLua`
inductive Entry
  | run
  | callLua (numArgs : Nat) (numResults : Int)

-- the state in which `executeLua` is entered with the closure
def Entry.enter (entry : Entry) (closure : Addr) (s : Machine P) : Except Stop (Machine P) :=
  match entry with
  | .run =>
      if s.top ≠ 0 ∧ s.stack[s.top - 1]? = some (.closure closure) then .ok (enterRun (.closure closure) s)
      else .error .panic
  | .callLua numArgs numResults => enterLua closure numArgs numResults s

-- the registers above the parameters are nil
def Clean (f : Code.Function) (e : Machine P) : Prop :=
  ∀ r, f.numParams.toNat ≤ r → r < f.maxStack → e.stack[e.ci.base + r]? = some .nil

-- the slots below the top that the frame will cover are nil already
def Entry.CleanBefore (entry : Entry) (f : Code.Function) (s : Machine P) : Prop :=
  match entry with
  | .run => False
  | .callLua numArgs _ =>
      ∀ r ≤ numArgs, r < f.maxStack → s.stack[s.top - (numArgs + 1) + r]? = some .nil

variable {env : Env} {breakList : Option (List Nat)} {tree : Syntax.Node} {f : Code.Function} {closure : Addr}

theorem compileTree_frame (h : compileTree env breakList tree = .ok f) :
    f.numParams = 0 ∧ 2 ≤ f.maxStack := by
  obtain ⟨⟨_, c⟩, -, rest⟩ := bind_ok.mp h
  rw [← pure_ok.mp rest]
  have below : c.func.maxStackSize.val < 250 := c.func.maxStackSize.lt
  refine ⟨rfl, ?_⟩
  simp only [Function.maxStack, UInt8.toNat_ofNat']
  rw [Nat.mod_eq_of_lt (by omega)]
  exact c.func.maxStackSize.two_le

theorem enterLua_ok {c : Closure} {numArgs : Nat} {numResults : Int} (found : s.closures[closure]? = some c)
    (h : enterLua closure numArgs numResults s = .ok e) : numArgs + 1 ≤ s.top ∧
      e.ci.base = s.top - (numArgs + 1) ∧ ∀ i, e.stack[i]? =
        if s.top ≤ i ∧ i < s.top - (numArgs + 1) + c.proto.maxStackSize.toNat then some .nil
        else s.stack[i]? := by
  simp only [enterLua, found] at h
  split at h
  · cases h
  · split at h
    · cases h
    · obtain ⟨entered, filled, rest⟩ := bind_ok.mp h
      obtain ⟨same, slots⟩ := setNils_ok filled
      rw [← pure_ok.mp rest]
      refine ⟨by omega, ?_, ?_⟩
      · rw [same]
        rfl
      · intro i
        rw [slots i]
        exact if_congr (by omega) rfl rfl

-- register 0 is the function that runs
theorem run_unclean (h : Entry.run.enter closure s = .ok e) (params : f.numParams = 0)
    (stack : 0 < f.maxStack) : ¬ Clean f e := by
  intro clean
  simp only [Entry.enter] at h
  split at h
  · rename_i here
    cases h
    have first := clean 0 (by simp [params]) stack
    simp [enterRun, here.2] at first
  · cases h

theorem callLua_clean_iff {c : Closure} {numArgs : Nat} {numResults : Int}
    (found : s.closures[closure]? = some c) (proto : c.proto = f) (params : f.numParams = 0)
    (h : enterLua closure numArgs numResults s = .ok e) :
    Clean f e ↔ (Entry.callLua numArgs numResults).CleanBefore f s := by
  obtain ⟨room, base, slots⟩ := enterLua_ok found h
  subst proto
  simp only [Clean, Entry.CleanBefore, params, base]
  constructor
  · intro clean r low high
    have register := clean r (Nat.zero_le r) high
    rwa [slots, if_neg (by omega)] at register
  · intro before r _ high
    rw [slots]
    by_cases low : r ≤ numArgs
    · rw [if_neg (by omega)]
      exact before r low high
    · have covered : s.top - (numArgs + 1) + r < s.top - (numArgs + 1) + c.proto.maxStackSize.toNat :=
        Nat.add_lt_add_left high _
      rw [if_pos ⟨by omega, covered⟩]

theorem entry_clean_iff (env : Env) (breakList : Option (List Nat)) (tree : Syntax.Node) (f : Code.Function)
    (compiled : compileTree env breakList tree = .ok f) (s e : Machine P) (closure : Addr) (c : Closure)
    (found : s.closures[closure]? = some c) (proto : c.proto = f) (entry : Entry)
    (entered : entry.enter closure s = .ok e) : Clean f e ↔ entry.CleanBefore f s := by
  obtain ⟨params, stack⟩ := compileTree_frame compiled
  cases entry with
  | run => exact iff_of_false (run_unclean entered params (by omega)) id
  | callLua numArgs numResults => exact callLua_clean_iff found proto params entered

-- the tree of `local a return a`
def localProgram : Syntax.Node :=
  .chunk [.assignmentStatement [.identifier ⟨.name, 6, 7, 1, none⟩] [] true,
    .returnStatement [.identifier ⟨.name, 15, 16, 1, none⟩]]

def localSource : List UInt8 := Lex.bytes "local a return a"

theorem localProgram_compiles :
    (compileTree (plainEnv localSource) none localProgram).toOption.isSome = true := by
  decide +kernel

-- a state with the closure of the chunk on top of its stack, as `load` leaves it
def loadedMachine (f : Code.Function) : Machine Platform.plain where
  stack := [.closure 0, .nil, .nil, .nil]
  top := 1
  globals := 0
  tables := [Table.init _]
  closures := [{ proto := f }]

theorem localProgram_function : ∃ f, compileTree (plainEnv localSource) none localProgram = .ok f := by
  cases compiled : compileTree (plainEnv localSource) none localProgram with
  | error e =>
      have returns := localProgram_compiles
      rw [compiled] at returns
      cases returns
  | ok f => exact ⟨f, rfl⟩

theorem entry_unclean : ∃ f, compileTree (plainEnv localSource) none localProgram = .ok f ∧
    ∃ e, Entry.run.enter 0 (loadedMachine f) = .ok e ∧ ¬ Clean f e := by
  obtain ⟨f, compiled⟩ := localProgram_function
  obtain ⟨params, stack⟩ := compileTree_frame compiled
  have entered : Entry.run.enter 0 (loadedMachine f) = .ok (enterRun (.closure 0) (loadedMachine f)) := rfl
  exact ⟨f, compiled, _, entered, run_unclean entered params (by omega)⟩

theorem entry_clean_local : ∃ f, compileTree (plainEnv localSource) none localProgram = .ok f ∧
    ∃ e, Entry.run.enter 0 (loadedMachine f) = .ok e ∧
      (Clean f e ↔ Entry.run.CleanBefore f (loadedMachine f)) := by
  obtain ⟨f, compiled⟩ := localProgram_function
  exact ⟨f, compiled, _, rfl, entry_clean_iff _ _ _ f compiled (loadedMachine f) _ 0 _ rfl rfl .run rfl⟩

end Zua.Vm
