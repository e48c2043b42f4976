import Zua.Base.Except
import Zua.Object.Table
import Zua.Vm.Machine

/-!
# Global variables

`setGlobal` and `getGlobal` name a variable by an interned string. The pool has one place for each hash, which the
last of two texts that collide takes, so one name may get several strings; the table compares them by content.
-/

namespace Zua.Vm
open Object
open Value (keyContext)

-- the keys of the pool are hashes already
def stringHashContext : KeyContext UInt64 := ⟨fun key => UInt32.ofNat key.toNat, fun a b => a == b⟩

theorem stringHashContext_lawful : stringHashContext.LawfulOn fun _ => True where
  refl _ _ := beq_self_eq_true _
  symm a b _ _ same := by
    rw [show a = b from eq_of_beq same]
    exact beq_self_eq_true _
  trans a b c _ _ _ same same' := by
    rw [show a = b from eq_of_beq same]
    exact same'
  hash_eq a b _ _ same := by rw [show a = b from eq_of_beq same]

variable {S : HashMap UInt64 Str stringHashContext} {H : HashMap Value Value keyContext}

structure Interpreter (S : HashMap UInt64 Str stringHashContext) (H : HashMap Value Value keyContext) where
  stack : List Value
  top : Nat
  stringPool : S.Map
  -- strings made so far, which have different addresses
  strings : Nat
  globals : Table H

namespace Interpreter

def init (S : HashMap UInt64 Str stringHashContext) (H : HashMap Value Value keyContext) : Interpreter S H where
  stack := List.replicate 1024 .nil
  top := 0
  stringPool := S.ops.empty
  strings := 0
  globals := Table.init H

def push (self : Interpreter S H) (value : Value) : Except Stop (Interpreter S H) :=
  if self.stack.length ≤ self.top then .error (.error .stackOverflow)
  else .ok { self with stack := self.stack.set self.top value, top := self.top + 1 }

def pop (self : Interpreter S H) : Except Stop (Interpreter S H × Value) :=
  if self.top = 0 then .error .panic
  else
    match self.stack[self.top - 1]? with
    | some value => .ok ({ self with top := self.top - 1 }, value)
    | none => .error .panic

section Hash

variable (hash : List UInt8 → UInt64)

-- `String.initWithGC` and its entry in the pool
def createString (self : Interpreter S H) (s : List UInt8) : Interpreter S H × Str :=
  let str : Str := ⟨self.strings, hash s, s⟩
  ({ self with stringPool := S.ops.put self.stringPool (hash s) str, strings := self.strings + 1 }, str)

def internString (self : Interpreter S H) (s : List UInt8) : Interpreter S H × Str :=
  match S.ops.get self.stringPool (hash s) with
  | some str =>
      if str.data.length = s.length ∧ str.data = s then (self, str) else self.createString hash s
  | none => self.createString hash s

def setGlobal (self : Interpreter S H) (name : List UInt8) : Except Stop (Interpreter S H) := do
  let (self, value) ← self.pop
  let (self, str) := self.internString hash name
  match self.globals.set (.string str) value with
  | .ok globals => return { self with globals }
  | .error fault => throw (Machine.fault fault)

-- the name stays in the pool when the push fails
def getGlobal (self : Interpreter S H) (name : List UInt8) : Except Stop (Interpreter S H × Except VmError Unit) :=
  let (self, str) := self.internString hash name
  match self.globals.get (.string str) with
  | .ok value =>
      match self.push value with
      | .ok self => .ok (self, .ok ())
      | .error _ => .ok (self, .error .stackOverflow)
  | .error fault => .error (Machine.fault fault)

-- with what each `setGlobal` has stored; between them the stack changes in any way, and other texts are interned
inductive Run : Interpreter S H → List (List UInt8 × Value) → Prop
  | init : Run (init S H) []
  | stack {s : Interpreter S H} {stored : List (List UInt8 × Value)} (stack : List Value) (top : Nat) :
      Run s stored → Run { s with stack, top } stored
  | intern {s : Interpreter S H} {stored : List (List UInt8 × Value)} (text : List UInt8) :
      Run s stored → Run (s.internString hash text).1 stored
  | setGlobal {s popped s' : Interpreter S H} {stored : List (List UInt8 × Value)} {value : Value} (name : List UInt8) :
      Run s stored → s.pop = .ok (popped, value) → s.setGlobal hash name = .ok s' → Run s' (stored ++ [(name, value)])
  | getGlobal {s s' : Interpreter S H} {stored : List (List UInt8 × Value)} {result : Except VmError Unit}
      (name : List UInt8) : Run s stored → s.getGlobal hash name = .ok (s', result) → Run s' stored

end Hash

-- the value that the last store under the name left
def lastStored (stored : List (List UInt8 × Value)) (name : List UInt8) : Value :=
  ((stored.reverse.find? fun entry => entry.1 == name).map Prod.snd).getD .nil

theorem lastStored_concat (stored : List (List UInt8 × Value)) (name other : List UInt8) (value : Value) :
    lastStored (stored ++ [(name, value)]) other = if name = other then value else lastStored stored other := by
  unfold lastStored
  rw [List.reverse_append, List.reverse_singleton, List.singleton_append, List.find?_cons]
  by_cases same : name = other
  · simp [same]
  · simp [same, beq_false_of_ne same]

/-! ## The pool -/

variable {hash : List UInt8 → UInt64} {s s' popped : Interpreter S H} {stored : List (List UInt8 × Value)}
  {text name : List UInt8} {value : Value}

-- a string carries the hash of its bytes
def Hashed (hash : List UInt8 → UInt64) (str : Str) : Prop := str.hash = hash str.data

structure PoolInv (hash : List UInt8 → UInt64) (pool : S.Map) : Prop where
  built : S.ops.Built (fun _ => True) pool
  hashed : ∀ key str, S.ops.get pool key = some str → Hashed hash str

theorem PoolInv.create (inv : PoolInv hash s.stringPool) (text : List UInt8) :
    PoolInv hash (s.createString hash text).1.stringPool := by
  have laws := S.correct _ stringHashContext_lawful
  refine ⟨.put _ inv.built trivial, ?_⟩
  intro key str found
  have put : S.ops.get (S.ops.put s.stringPool (hash text) ⟨s.strings, hash text, text⟩) key = some str := found
  rw [laws.get_put _ _ _ _ inv.built trivial trivial] at put
  split at put
  · cases put
    rfl
  · exact inv.hashed key str put

-- whether or not it was in the pool, the string has the content
theorem internString_spec (inv : PoolInv hash s.stringPool) (text : List UInt8) :
    (s.internString hash text).2.data = text ∧ Hashed hash (s.internString hash text).2 ∧
      PoolInv hash (s.internString hash text).1.stringPool ∧ (s.internString hash text).1.globals = s.globals ∧
      (s.internString hash text).1.stack = s.stack ∧ (s.internString hash text).1.top = s.top := by
  unfold internString
  split
  · rename_i str found
    split
    · rename_i same
      exact ⟨same.2, inv.hashed _ str found, inv, rfl, rfl, rfl⟩
    · exact ⟨rfl, rfl, inv.create text, rfl, rfl, rfl⟩
  · exact ⟨rfl, rfl, inv.create text, rfl, rfl, rfl⟩

/-! ## The table -/

theorem string_usable (str : Str) : (Value.string str).Usable where
  notNil := by simp
  notNan := trivial
  small := by rintro n ⟨⟩

theorem eql_iff {str str' : Str} (hashed : Hashed hash str) (hashed' : Hashed hash str') :
    (Value.string str).eql (.string str') = true ↔ str.data = str'.data := by
  show str.eql str' = true ↔ _
  rw [Value.Str.eql_iff]
  constructor
  · exact And.right
  · intro same
    exact ⟨by rw [hashed, hashed', same], same⟩

structure Inv (hash : List UInt8 → UInt64) (s : Interpreter S H) (stored : List (List UInt8 × Value)) : Prop where
  pool : PoolInv hash s.stringPool
  table : Table.Inv s.globals
  values : ∀ str, Hashed hash str → s.globals.lookup (.string str) = lastStored stored str.data

theorem inv_init (hash : List UInt8 → UInt64) : Inv hash (init S H) [] where
  pool := by
    refine ⟨.empty, ?_⟩
    intro key str found
    rw [show S.ops.get (init S H).stringPool key = none from
      (S.correct _ stringHashContext_lawful).get_empty key trivial] at found
    cases found
  table := Table.inv_init
  values str _ := Table.mapGet_of_absent ((H.correct _ Value.keyContext_lawful).get_empty (.string str) trivial)

theorem Inv.intern (inv : Inv hash s stored) (text : List UInt8) : Inv hash (s.internString hash text).1 stored := by
  obtain ⟨-, -, pool, globals, -, -⟩ := internString_spec inv.pool text
  refine ⟨pool, ?_, ?_⟩
  · rw [globals]
    exact inv.table
  · rw [globals]
    exact inv.values

theorem pop_kept (taken : s.pop = .ok (popped, value)) :
    popped.stringPool = s.stringPool ∧ popped.globals = s.globals ∧ popped.stack = s.stack ∧ popped.top + 1 = s.top := by
  unfold pop at taken
  split at taken
  · cases taken
  · split at taken
    · cases taken
      exact ⟨rfl, rfl, rfl, Nat.sub_one_add_one (by assumption)⟩
    · cases taken

theorem Inv.pop (inv : Inv hash s stored) (taken : s.pop = .ok (popped, value)) : Inv hash popped stored := by
  obtain ⟨pool, globals, -, -⟩ := pop_kept taken
  refine ⟨?_, ?_, ?_⟩
  · rw [pool]
    exact inv.pool
  · rw [globals]
    exact inv.table
  · rw [globals]
    exact inv.values

-- a store changes the variable of its name and no other
theorem Inv.setGlobal (inv : Inv hash s stored) (taken : s.pop = .ok (popped, value)) (name : List UInt8) :
    ∃ s', s.setGlobal hash name = .ok s' ∧ Inv hash s' (stored ++ [(name, value)]) ∧ s'.stack = s.stack ∧
      s'.top + 1 = s.top := by
  have interned := (inv.pop taken).intern name
  obtain ⟨-, -, stack, top⟩ := pop_kept taken
  obtain ⟨content, hashed, -, -, stack', top'⟩ := internString_spec (inv.pop taken).pool name
  obtain ⟨t', stores, table, changed⟩ := Table.set_lookup (v := value) interned.table
    (string_usable (popped.internString hash name).2)
  refine ⟨{ (popped.internString hash name).1 with globals := t' }, ?_, ⟨interned.pool, table, ?_⟩, ?_, ?_⟩
  · simp only [Interpreter.setGlobal, taken, ok_bind, stores]
    rfl
  · intro str hashed'
    rw [changed _ (string_usable str), interned.values str hashed', lastStored_concat]
    simp only [eql_iff hashed hashed', content]
  · exact stack'.trans stack
  · show (popped.internString hash name).1.top + 1 = s.top
    rw [top', top]

theorem Inv.getGlobal (inv : Inv hash s stored) (name : List UInt8) :
    (s.internString hash name).1.globals.get (.string (s.internString hash name).2) = .ok (lastStored stored name) := by
  have interned := inv.intern name
  obtain ⟨content, hashed, -⟩ := internString_spec inv.pool name
  rw [Table.get_eq interned.table (string_usable _), interned.values _ hashed, content]

theorem Run.inv (run : Run hash s stored) : Inv hash s stored := by
  induction run with
  | init => exact inv_init hash
  | stack stack top _ ih => exact ⟨ih.pool, ih.table, ih.values⟩
  | intern text _ ih => exact ih.intern text
  | setGlobal name _ taken set ih =>
      obtain ⟨s', set', inv, -⟩ := ih.setGlobal taken name
      rw [set] at set'
      cases set'
      exact inv
  | @getGlobal s s' stored result name _ got ih =>
      have interned := ih.intern name
      unfold Interpreter.getGlobal at got
      simp only [ih.getGlobal name, push] at got
      split at got
      · rename_i pushed ok
        split at ok
        · cases ok
        · cases ok
          cases got
          exact ⟨interned.pool, interned.table, interned.values⟩
      · cases got
        exact interned

/-! ## Names -/

theorem getGlobal_pushes (inv : Inv hash s stored) (room : s.top < s.stack.length) (name : List UInt8) :
    ∃ s', s.getGlobal hash name = .ok (s', .ok ()) ∧ s'.top = s.top + 1 ∧
      s'.stack[s.top]? = some (lastStored stored name) := by
  obtain ⟨-, -, -, -, stack, top⟩ := internString_spec inv.pool name
  have full : ¬ (s.internString hash name).1.stack.length ≤ (s.internString hash name).1.top := by
    rw [stack, top]
    omega
  refine ⟨{ (s.internString hash name).1 with
    stack := (s.internString hash name).1.stack.set (s.internString hash name).1.top (lastStored stored name)
    top := (s.internString hash name).1.top + 1 }, ?_, ?_, ?_⟩
  · simp only [Interpreter.getGlobal, inv.getGlobal name, push, if_neg full]
  · exact congrArg (· + 1) top
  · show ((s.internString hash name).1.stack.set (s.internString hash name).1.top _)[s.top]? = _
    rw [stack, top, List.getElem?_set_self room]

theorem globals_by_content (hash : List UInt8 → UInt64) (S : HashMap UInt64 Str stringHashContext)
    (H : HashMap Value Value keyContext) (s : Interpreter S H) (stored : List (List UInt8 × Value))
    (run : Run hash s stored) :
    (∀ name, s.top < s.stack.length → ∃ s', s.getGlobal hash name = .ok (s', .ok ()) ∧ s'.top = s.top + 1 ∧
      s'.stack[s.top]? = some (lastStored stored name)) ∧
    ∀ name popped value, s.pop = .ok (popped, value) → ∃ s', s.setGlobal hash name = .ok s' ∧ s'.top + 1 = s.top ∧
      ∀ other, ∃ s'', s'.getGlobal hash other = .ok (s'', .ok ()) ∧ s''.top = s'.top + 1 ∧
        s''.stack[s'.top]? = some (if name = other then value else lastStored stored other) := by
  have inv := run.inv
  refine ⟨fun name room => getGlobal_pushes inv room name, ?_⟩
  intro name popped value taken
  obtain ⟨s', set, inv', stack, top⟩ := inv.setGlobal taken name
  refine ⟨s', set, top, ?_⟩
  intro other
  have room : s'.top < s'.stack.length := by
    rw [stack]
    unfold pop at taken
    split at taken
    · cases taken
    · split at taken
      · rename_i located
        have inside := (List.getElem?_eq_some_iff.mp located).1
        omega
      · cases taken
  obtain ⟨s'', got, top'', value''⟩ := getGlobal_pushes inv' room other
  refine ⟨s'', got, top'', ?_⟩
  rw [value'', lastStored_concat]

theorem Run.store (run : Run hash s stored) (name : List UInt8) (value : Value) :
    ∃ s' : Interpreter S H, Run hash s' (stored ++ [(name, value)]) := by
  have pushed : Run hash { s with stack := [value], top := 1 } stored := .stack [value] 1 run
  obtain ⟨s', set, -⟩ := pushed.inv.setGlobal (show pop _ = .ok (_, value) from rfl) name
  exact ⟨s', .setGlobal name pushed rfl set⟩

-- all names have the same hash
theorem globals_by_content_collision : ∃ s s' : Interpreter (HashMap.entries UInt64 Str stringHashContext)
    (HashMap.entries Value Value keyContext),
    Run (fun _ => 0) s [([97], .boolean true), ([98], .boolean false)] ∧
      s.getGlobal (fun _ => 0) [97] = .ok (s', .ok ()) ∧ s'.stack[s.top]? = some (.boolean true) := by
  have start : Run (fun _ => 0) (init (HashMap.entries UInt64 Str stringHashContext)
    (HashMap.entries Value Value keyContext)) [] := .init
  obtain ⟨s₁, run₁⟩ := start.store [97] (.boolean true)
  obtain ⟨s₂, run₂⟩ := run₁.store [98] (.boolean false)
  have empty := run₂.stack [.nil] 0
  obtain ⟨s', got, -, value⟩ := (globals_by_content _ _ _ _ _ empty).1 [97] (by simp)
  exact ⟨_, s', empty, got, value⟩

end Interpreter

end Zua.Vm
