import Zua.Code.Dump
import Zua.Memory.State

/-!
# The virtual machine

`executeLua` of `vm.zig` and the calls that enter it. Registers are the slots of the one stack from the
base of the frame on. The arithmetic of numbers and the interned string of each content come from the
platform, and the functions written in C from `host`.
-/

namespace Zua.Vm
open Code Object
open Memory (Constant CallInfo UpValue)
open Value (keyContext)

inductive VmError
  | stackOverflow | expectedTable | attemptToCallNonFunction | attemptToPerformArithmetic
  | attemptToConcatenate | attemptToGetLength | tableIndexIsNil | runtimeError
  deriving DecidableEq, Repr

-- a failed safety check is a panic; `timeout` is not an outcome of the code
inductive Stop
  | error (e : VmError)
  | panic
  | timeout
  deriving DecidableEq, Repr

structure Platform extends F64.Arithmetic where
  hashMap : HashMap Value Value keyContext
  intern : List UInt8 → Str

-- a platform to run small cases on: strings by their content, and of the arithmetic only the sign
def Platform.plain : Platform where
  hashMap := HashMap.entries Value Value keyContext
  intern data := ⟨0, 0, data⟩
  add a _ := a
  sub a _ := a
  mul a _ := a
  div a _ := a
  mod a _ := a
  pow a _ := a
  neg a := ⟨a.bits ^^^ 0x8000000000000000⟩

structure Closure where
  proto : Function
  upvalues : List (Option Addr) := []

structure Machine (P : Platform) where
  stack : List Value
  top : Nat := 0
  ci : CallInfo := {}
  globals : Addr
  tables : List (Table P.hashMap)
  closures : List Closure
  upvals : List UpValue := []

namespace Machine

variable {P : Platform}

/-! ## The stack and the tables -/

def slot (s : Machine P) (i : Nat) : Except Stop Value :=
  match s.stack[i]? with
  | some v => .ok v
  | none => .error .panic

def setSlot (s : Machine P) (i : Nat) (v : Value) : Except Stop (Machine P) :=
  if i < s.stack.length then .ok { s with stack := s.stack.set i v } else .error .panic

-- `n` slots from `start` on become nil
def setNils (s : Machine P) (start : Nat) : Nat → Except Stop (Machine P)
  | 0 => .ok s
  | n + 1 => do
      let s ← s.setSlot start .nil
      s.setNils (start + 1) n

def fault : Object.Fault → Stop
  | .tableIndexIsNil => .error .tableIndexIsNil
  | .panic => .panic

def tableGet (s : Machine P) (a : Addr) (key : Value) : Except Stop Value :=
  match s.tables[a]? with
  | some t => (t.get key).mapError fault
  | none => .error .panic

def tableSet (s : Machine P) (a : Addr) (key value : Value) : Except Stop (Machine P) :=
  match s.tables[a]? with
  | some t =>
      match t.set key value with
      | .ok t => .ok { s with tables := s.tables.set a t }
      | .error e => .error (fault e)
  | none => .error .panic

-- the last index of the array part that is not nil
def arrayLength (array : List Value) : Nat :=
  array.length - (array.reverse.takeWhile (· = .nil)).length

def constantToValue (P : Platform) : Constant → Value
  | .nil => .nil
  | .boolean b => .boolean b
  | .number n => .number n
  | .string s => .string (P.intern s)

def constant (P : Platform) (constants : List Constant) (i : Nat) : Except Stop Value :=
  match constants[i]? with
  | some c => .ok (constantToValue P c)
  | none => .error .panic

def getValueRK (s : Machine P) (base : Nat) (constants : List Constant) (rk : Nat) : Except Stop Value :=
  if rkIsConstant rk then constant P constants (rkGetConstantIndex rk) else s.slot (base + rk)

def push (s : Machine P) (v : Value) : Except Stop (Machine P) :=
  if s.stack.length ≤ s.top then .error (.error .stackOverflow)
  else .ok { s with stack := s.stack.set s.top v, top := s.top + 1 }

end Machine

/-! ## Values -/

def valueLt : Value → Value → Bool
  | .number a, .number b => a.lt b
  | .string a, .string b => decide (a.data < b.data)
  | _, _ => false

def valueLe : Value → Value → Bool
  | .number a, .number b => a.le b
  | .string a, .string b => !decide (b.data < a.data)
  | _, _ => false

def arith (op : F64 → F64 → F64) : Value → Value → Except Stop Value
  | .number a, .number b => .ok (.number (op a b))
  | _, _ => .error (.error .attemptToPerformArithmetic)

def unm (P : Platform) : Value → Except Stop Value
  | .number a => .ok (.number (P.neg a))
  | _ => .error (.error .attemptToPerformArithmetic)

def length {P : Platform} (s : Machine P) : Value → Except Stop Value
  | .string str => .ok (.number (F64.floatFromInt str.data.length))
  | .table a =>
      match s.tables[a]? with
      | some t => .ok (.number (F64.floatFromInt (Machine.arrayLength t.array)))
      | none => .error .panic
  | _ => .error (.error .attemptToGetLength)

def expectTable : Value → Except Stop Addr
  | .table a => .ok a
  | _ => .error (.error .expectedTable)

def getGlobal {P : Platform} (s : Machine P) (name : List UInt8) : Except Stop Value :=
  s.tableGet s.globals (.string (P.intern name))

/-! ## Calls -/

section Calls

variable {P : Platform}

-- `execute` is `executeLua`
variable (execute : Machine P → Except Stop (Machine P)) (host : Addr → Machine P → Except Stop (Machine P × Int))

-- the state in which `callLua` starts `executeLua`
def enterLua (closure : Addr) (numArgs : Nat) (numResults : Int) (s : Machine P) : Except Stop (Machine P) :=
  match s.closures[closure]? with
  | none => .error .panic
  | some c =>
      if s.top < numArgs + 1 then .error .panic
      else if s.stack.length ≤ s.top + c.proto.maxStackSize.toNat then .error (.error .stackOverflow)
      else do
        let base := s.top - numArgs - 1
        let limit := base + c.proto.maxStackSize.toNat
        let entered := { s with ci := { func := .closure closure, base, numResults } }
        let entered ← entered.setNils s.top (limit - s.top)
        return { entered with top := max s.top limit }

def callLua (closure : Addr) (numArgs : Nat) (numResults : Int) (s : Machine P) : Except Stop (Machine P) := do
  let entered ← enterLua closure numArgs numResults s
  let left ← execute entered
  return { left with ci := s.ci }

-- the arguments go to the bottom of the stack
def shift (s : Machine P) (start : Nat) : Nat → Except Stop (Machine P)
  | 0 => .ok s
  | n + 1 => do
      let s ← shift s start n
      let v ← s.slot (start + n)
      s.setSlot n v

def callC (function : Addr) (numArgs : Nat) (s : Machine P) : Except Stop (Machine P) := do
  let s ← shift s (s.ci.base + 1) numArgs
  let (s, nresults) ← host function { s with top := numArgs }
  return { s with top := nresults.toNat }

def callValue (func : Value) (numArgs : Nat) (numResults : Int) (s : Machine P) : Except Stop (Machine P) :=
  match func with
  | .closure a => callLua execute a numArgs numResults s
  | .cClosure a => callC host a numArgs s
  | _ => .error (.error .attemptToCallNonFunction)

-- `LuaState.call`
def call (numArgs : Nat) (numResults : Int) (s : Machine P) : Except Stop (Machine P) :=
  if s.top < numArgs + 1 then .error .panic
  else do
    let func ← s.slot (s.top - (numArgs + 1))
    callValue execute host func numArgs numResults s

-- the state in which `run` starts `executeLua`
def enterRun (func : Value) (s : Machine P) : Machine P := { s with ci := { func, base := s.top - 1 } }

-- `LuaState.run`
def run (s : Machine P) : Except Stop (Machine P) :=
  if s.top = 0 then .ok s
  else do
    let func ← s.slot (s.top - 1)
    match func with
    | .closure _ => execute (enterRun func s)
    | .cClosure _ => call execute host 0 0 s
    | _ => .error (.error .attemptToCallNonFunction)

end Calls

end Zua.Vm
