import Zua.Vm.Machine

/-!
# Executing code

One instruction at a time, `exec`; the loop of `executeLua` around it calls itself for the functions that
the code calls.
-/

namespace Zua.Vm
open Code Object
open Memory (Constant)

variable {P : Platform}

-- what `executeLua` keeps in variables of its own
structure Frame where
  closure : Closure
  base : Nat

def Frame.code (frame : Frame) : List UInt32 := frame.closure.proto.code
def Frame.constants (frame : Frame) : List Constant := frame.closure.proto.constants

inductive Flow (P : Platform)
  | next (s : Machine P) (pc : Nat)
  | done (s : Machine P)

namespace Flow

-- the register `a` is set and the next instruction follows
def put (s : Machine P) (frame : Frame) (pc a : Nat) (v : Value) : Except Stop (Flow P) := do
  let s ← s.setSlot (frame.base + a) v
  return .next s (pc + 1)

end Flow

-- `pc + offset + 1`, a `usize`
def jump (pc : Nat) (offset : Int) : Except Stop Nat :=
  if pc + offset + 1 < 0 then .error .panic else .ok (pc + offset + 1).toNat

-- the bytes of `n` strings from `start` on
def stringSlots (s : Machine P) (start : Nat) : Nat → Except Stop (List UInt8)
  | 0 => .ok []
  | n + 1 => do
      let v ← s.slot start
      match v with
      | .string str => do
          let rest ← stringSlots s (start + 1) n
          return str.data ++ rest
      | _ => .error (.error .attemptToConcatenate)

-- one after the other, from the first on
def copySlots (s : Machine P) (dst src : Nat) : Nat → Except Stop (Machine P)
  | 0 => .ok s
  | n + 1 => do
      let s ← copySlots s dst src n
      let v ← s.slot (src + n)
      s.setSlot (dst + n) v

-- the results of a return are only copied while they are inside the stack
def copyResults (s : Machine P) (dst src : Nat) : Nat → Except Stop (Machine P)
  | 0 => .ok s
  | n + 1 => do
      let s ← copyResults s dst src n
      if dst + n < s.stack.length then
        let v ← s.slot (src + n)
        s.setSlot (dst + n) v
      else return s

def nilResults (s : Machine P) (dst : Nat) : Nat → Machine P
  | 0 => s
  | n + 1 => { nilResults s dst n with stack := (nilResults s dst n).stack.set (dst + n) .nil }

def returnFrom (s : Machine P) (base a b : Nat) : Except Stop (Machine P) :=
  if s.ci.numResults < 0 then
    if b = 0 then .ok s else .ok { s with top := base + a + (b - 1) }
  else
    let wanted := s.ci.numResults.toNat
    let returnBase := base - 1
    if b = 0 then .ok { nilResults s returnBase wanted with top := returnBase + wanted }
    -- the range of the results that are missing panics when there are more than wanted
    else if wanted < b - 1 then .error .panic
    else do
      let s ← copyResults s returnBase (base + a) (b - 1)
      return { nilResults s (returnBase + (b - 1)) (wanted - (b - 1)) with top := returnBase + wanted }

def setList (s : Machine P) (table : Addr) (start src : Nat) : Nat → Except Stop (Machine P)
  | 0 => .ok s
  | n + 1 => do
      let s ← setList s table start src n
      let v ← s.slot (src + n)
      s.tableSet table (.number (F64.floatFromInt (start + n + 1))) v

section Exec

variable (execute : Machine P → Except Stop (Machine P)) (host : Addr → Machine P → Except Stop (Machine P × Int))

-- `B - 1` arguments, or those up to the top
def numArgs (s : Machine P) (base a b : Nat) : Except Stop Nat :=
  if 0 < b then .ok (b - 1)
  else if s.top < base + a + 1 then .error .panic
  else .ok (s.top - base - a - 1)

def execCall (frame : Frame) (pc : Nat) (i : Instruction) (s : Machine P) : Except Stop (Flow P) := do
  let func ← s.slot (frame.base + i.a)
  let args ← numArgs s frame.base i.a i.b
  let numResults : Int := if 0 < i.c then (i.c - 1 : Nat) else -1
  let s ← callValue execute host func args numResults { s with ci := { s.ci with base := frame.base + i.a } }
  return .next { s with ci := { s.ci with base := frame.base } } (pc + 1)

def execTailcall (frame : Frame) (i : Instruction) (s : Machine P) : Except Stop (Flow P) := do
  let func ← s.slot (frame.base + i.a)
  let args ← numArgs s frame.base i.a i.b
  let s ← copySlots s frame.base (frame.base + i.a) (args + 1)
  let s ← callValue execute host func args s.ci.numResults s
  return .done s

def execSetlist (frame : Frame) (pc : Nat) (i : Instruction) (s : Machine P) : Except Stop (Flow P) := do
  let table ← s.slot (frame.base + i.a)
  let t ← expectTable table
  if i.c = 0 then
    match frame.code[pc + 1]? with
    | some extra =>
        let s ← setList s t (extra.toNat * 50) (frame.base + i.a + 1) i.b
        return .next s (pc + 2)
    | none => .error .panic
  else
    let s ← setList s t ((i.c - 1) * 50) (frame.base + i.a + 1) i.b
    return .next s (pc + 1)

def execForprep (frame : Frame) (pc : Nat) (i : Instruction) (s : Machine P) : Except Stop (Flow P) := do
  let idx ← s.slot (frame.base + i.a)
  let step ← s.slot (frame.base + i.a + 2)
  let s ← match idx, step with
    | .number n, .number d => s.setSlot (frame.base + i.a) (.number (P.sub n d))
    | _, _ => .ok s
  -- the loop adds one more to `pc`
  let pc ← jump pc i.sbx
  return .next s (pc + 1)

def execForloop (frame : Frame) (pc : Nat) (i : Instruction) (s : Machine P) : Except Stop (Flow P) := do
  let idx ← s.slot (frame.base + i.a)
  let limit ← s.slot (frame.base + i.a + 1)
  let step ← s.slot (frame.base + i.a + 2)
  match idx, limit, step with
  | .number n, .number l, .number d =>
      let s ← s.setSlot (frame.base + i.a) (.number (P.add n d))
      let s ← s.setSlot (frame.base + i.a + 3) (.number (P.add n d))
      if (if F64.lt ⟨0⟩ d then (P.add n d).le l else l.le (P.add n d)) then
        let pc ← jump pc i.sbx
        return .next s (pc + 1)
      else return .next s (pc + 1)
  | _, _, _ => return .next s (pc + 1)

def execTforloop (frame : Frame) (pc : Nat) (i : Instruction) (s : Machine P) : Except Stop (Flow P) := do
  let func ← s.slot (frame.base + i.a)
  if func = .nil then return .next s (pc + 2)
  else
    let state ← s.slot (frame.base + i.a + 1)
    let control ← s.slot (frame.base + i.a + 2)
    let s ← s.push func
    let s ← s.push state
    let s ← s.push control
    let s ← call execute host 2 3 s
    let value ← s.slot (frame.base + i.a + 3)
    return .next s (if value = .nil then pc + 2 else pc + 1)

def execClosure (frame : Frame) (pc : Nat) (i : Instruction) (s : Machine P) : Except Stop (Flow P) :=
  match frame.closure.proto.protos[i.bx]? with
  | some proto =>
      Flow.put { s with closures := s.closures ++ [{ proto }] } frame pc i.a (.closure s.closures.length)
  | none => Flow.put s frame pc i.a .nil

def upvalue (frame : Frame) (b : Nat) : Option Addr := (frame.closure.upvalues[b]?).join

-- an open upvalue is a slot of the stack
def getUpvalue (s : Machine P) (a : Addr) : Except Stop Value :=
  match s.upvals[a]? with
  | some ⟨some i, _, _⟩ => s.slot i
  | some ⟨none, v, _⟩ => .ok v
  | none => .error .panic

def setUpvalue (s : Machine P) (a : Addr) (v : Value) : Except Stop (Machine P) :=
  match s.upvals[a]? with
  | some ⟨some i, _, _⟩ => s.setSlot i v
  | some ⟨none, _, link⟩ => .ok { s with upvals := s.upvals.set a ⟨none, v, link⟩ }
  | none => .error .panic

def execArith (op : F64 → F64 → F64) (frame : Frame) (pc : Nat) (i : Instruction) (s : Machine P) :
    Except Stop (Flow P) := do
  let lhs ← s.getValueRK frame.base frame.constants i.b
  let rhs ← s.getValueRK frame.base frame.constants i.c
  let v ← arith op lhs rhs
  Flow.put s frame pc i.a v

def execCompare (holds : Value → Value → Bool) (frame : Frame) (pc : Nat) (i : Instruction) (s : Machine P) :
    Except Stop (Flow P) := do
  let lhs ← s.getValueRK frame.base frame.constants i.b
  let rhs ← s.getValueRK frame.base frame.constants i.c
  return .next s (if holds lhs rhs = (i.a == 0) then pc + 2 else pc + 1)

def exec (frame : Frame) (pc : Nat) (i : Instruction) (s : Machine P) : Except Stop (Flow P) :=
  match i.op with
  | .move => do
      let v ← s.slot (frame.base + i.b)
      Flow.put s frame pc i.a v
  | .loadk => do
      let v ← Machine.constant P frame.constants i.bx
      Flow.put s frame pc i.a v
  | .loadbool => do
      let s ← s.setSlot (frame.base + i.a) (.boolean (i.b != 0))
      return .next s (if i.c ≠ 0 then pc + 2 else pc + 1)
  | .loadnil =>
      -- a range that ends before it starts panics, and so does `511 + 1` in 9 bits
      if i.b + 1 < i.a ∨ i.b = 511 then .error .panic
      else do
        let s ← s.setNils (frame.base + i.a) (i.b + 1 - i.a)
        return .next s (pc + 1)
  | .getglobal =>
      match frame.constants[i.bx]? with
      | some (.string name) => do
          let v ← getGlobal s name
          Flow.put s frame pc i.a v
      | some _ => .ok (.next s (pc + 1))
      | none => .error .panic
  | .setglobal =>
      match frame.constants[i.bx]? with
      | some (.string name) => do
          let v ← s.slot (frame.base + i.a)
          let s ← s.tableSet s.globals (.string (P.intern name)) v
          return .next s (pc + 1)
      | some _ => .ok (.next s (pc + 1))
      | none => .error .panic
  | .gettable => do
      let t ← s.slot (frame.base + i.b)
      let a ← expectTable t
      let key ← s.getValueRK frame.base frame.constants i.c
      let v ← s.tableGet a key
      Flow.put s frame pc i.a v
  | .settable => do
      let t ← s.slot (frame.base + i.a)
      let a ← expectTable t
      let key ← s.getValueRK frame.base frame.constants i.b
      let v ← s.getValueRK frame.base frame.constants i.c
      let s ← s.tableSet a key v
      return .next s (pc + 1)
  | .newtable =>
      Flow.put { s with tables := s.tables ++ [Table.init P.hashMap] } frame pc i.a (.table s.tables.length)
  | .self => do
      let t ← s.slot (frame.base + i.b)
      let a ← expectTable t
      let key ← s.getValueRK frame.base frame.constants i.c
      let method ← s.tableGet a key
      let s ← s.setSlot (frame.base + i.a) method
      Flow.put s frame pc (i.a + 1) t
  | .add => execArith P.add frame pc i s
  | .sub => execArith P.sub frame pc i s
  | .mul => execArith P.mul frame pc i s
  | .div => execArith P.div frame pc i s
  | .mod => execArith P.mod frame pc i s
  | .pow => execArith P.pow frame pc i s
  | .unm => do
      let v ← s.slot (frame.base + i.b)
      let v ← unm P v
      Flow.put s frame pc i.a v
  | .not => do
      let v ← s.slot (frame.base + i.b)
      Flow.put s frame pc i.a (.boolean v.isFalsy)
  | .len => do
      let v ← s.slot (frame.base + i.b)
      let v ← length s v
      Flow.put s frame pc i.a v
  | .concat =>
      if i.c + 1 < i.b ∨ i.c = 511 then .error .panic
      else do
        let data ← stringSlots s (frame.base + i.b) (i.c + 1 - i.b)
        Flow.put s frame pc i.a (.string (P.intern data))
  | .jmp => do
      let pc ← jump pc i.sbx
      return .next s pc
  | .eq => execCompare Value.eql frame pc i s
  | .lt => execCompare valueLt frame pc i s
  | .le => execCompare valueLe frame pc i s
  | .test => do
      let v ← s.slot (frame.base + i.a)
      return .next s (if (!v.isFalsy) = (i.c == 0) then pc + 2 else pc + 1)
  | .testset => do
      let v ← s.slot (frame.base + i.b)
      if (!v.isFalsy) = (i.c != 0) then Flow.put s frame pc i.a v
      else return .next s (pc + 2)
  | .forprep => execForprep frame pc i s
  | .forloop => execForloop frame pc i s
  | .tforloop => execTforloop execute host frame pc i s
  | .closure => execClosure frame pc i s
  | .getupval =>
      match upvalue frame i.b with
      | some a => do
          let v ← getUpvalue s a
          Flow.put s frame pc i.a v
      | none => Flow.put s frame pc i.a .nil
  | .setupval =>
      match upvalue frame i.b with
      | some a => do
          let v ← s.slot (frame.base + i.a)
          let s ← setUpvalue s a v
          return .next s (pc + 1)
      | none => .ok (.next s (pc + 1))
  | .call => execCall execute host frame pc i s
  | .tailcall => execTailcall execute host frame i s
  | .return => do
      let s ← returnFrom s frame.base i.a i.b
      return .done s
  | .setlist => execSetlist frame pc i s
  | .vararg =>
      if i.b = 0 then .ok (.next s (pc + 1))
      else do
        let s ← s.setNils (frame.base + i.a) (i.b - 1)
        return .next s (pc + 1)

end Exec

section Run

variable (host : Addr → Machine P → Except Stop (Machine P × Int))

-- the frame that `executeLua` finds in the call info
def frameOf (s : Machine P) : Option Frame :=
  match s.ci.func with
  | .closure a => (s.closures[a]?).map fun closure => ⟨closure, s.ci.base⟩
  | _ => none

-- every instruction takes one unit of fuel, those of called functions as well
def loop : Nat → Frame → Machine P → Nat → Except Stop (Machine P)
  | 0, _, _, _ => .error .timeout
  | fuel + 1, frame, s, pc =>
      match frame.code[pc]? with
      | none => .ok s
      | some word =>
          match Instruction.ofWord word with
          | none => .error .panic
          | some i => do
              let flow ← exec (fun s => match frameOf s with
                | some frame => loop fuel frame s 0
                | none => .error .panic) host frame pc i s
              match flow with
              | .next s pc => loop fuel frame s pc
              | .done s => .ok s

def executeLua (fuel : Nat) (s : Machine P) : Except Stop (Machine P) :=
  match frameOf s with
  | some frame => loop host fuel frame s 0
  | none => .error .panic

end Run

end Zua.Vm
