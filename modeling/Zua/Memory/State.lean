import Zua.Memory.Exact
import Zua.Object.Table

/-!
# The state and what runs do to its memory

Every API call and every instruction of `vm.zig` changes the memory in the steps of `Action`: it writes
the stack and the call info, stores into a table or an upvalue, allocates and registers an object, and a
registration that exceeds the threshold collects.
-/

namespace Zua.Memory
open Object
open Value (keyContext)

structure CallInfo where
  func : Value := .nil
  base : Nat := 0
  savedPc : Nat := 0
  numResults : Int := 0
  isLua : Bool := true
  tailcalls : Nat := 0
  deriving DecidableEq, Repr

structure LuaState where
  gc : GC
  thread : Addr
  globals : Addr
  registry : Addr
  top : Nat := 0
  stack : List Value
  ci : CallInfo := {}
  openUpval : Option Addr := none

namespace LuaState

def mainThread (globals registry : Addr) : Thread :=
  ⟨List.replicate 1024 .nil, 0, Nat.zero_le _, none, globals, registry⟩

-- a thread of its own with two tables that are not registered, the globals and the registry
def init (P : Platform) : Except Fault LuaState := do
  let gc : GC := {}
  let (h, own) := gc.heap.create (.table {})
  let (h, own') := h.create (.table {})
  let (h, thread) := h.create (.thread (mainThread own own'))
  let gc ← { gc with heap := h }.link P thread
  let (h, globals) := gc.heap.create (.table {})
  let gc ← { gc with heap := h }.link P globals
  let (h, registry) := gc.heap.create (.table {})
  let gc ← { gc with heap := h }.link P registry
  .ok {
    gc := { gc with roots := some ⟨some globals, some registry, some thread⟩ }
    thread, globals, registry
    stack := List.replicate 1024 .nil }

end LuaState

/-! ## Actions -/

inductive Action
  | push (v : Value)
  | pop
  | setTop (n : Nat)
  | store (slot : Nat) (v : Value)
  | frame (ci : CallInfo)
  | setTable (t : Addr) (key value : Value)
  | setMetatable (t : Addr) (metatable : Option Addr)
  | writeUpvalue (u : Addr) (uv : UpValue)
  | openUpvals (up : Option Addr)
  | compile (f : Function)
  | alloc (o : Obj)
  | link (a : Addr)
  | collect

namespace TableObj

abbrev Entries := HashMap.entries Value Value keyContext

def set (t : TableObj) (key value : Value) : Option TableObj :=
  match (⟨t.array, t.map, t.metatable⟩ : Table Entries).set key value with
  | .ok t => some ⟨t.array, t.map, t.metatable⟩
  | .error _ => none

end TableObj

namespace LuaState

variable (P : Platform) (fuel : Nat)

-- a store into an object; no code has a pointer to the main thread's own tables
def write (s : LuaState) (a : Addr) (f : Obj → Option Obj) : Except Fault LuaState :=
  match s.gc.heap.get a with
  | none => .error .useAfterFree
  | some cell =>
      match f cell.obj with
      | none => .error .badCast
      | some o =>
          if a ∈ s.gc.heap.tables s.thread then .error .rejected
          else .ok { s with gc := { s.gc with heap := s.gc.heap.put a { cell with obj := o } } }

def storeTable (key value : Value) : Obj → Option Obj
  | .table t => (t.set key value).map .table
  | _ => none

def storeMetatable (metatable : Option Addr) : Obj → Option Obj
  | .table t => some (.table { t with metatable })
  | _ => none

def storeUpvalue (uv : UpValue) : Obj → Option Obj
  | .upvalue _ => some (.upvalue uv)
  | _ => none

-- `initWithGC` up to the check of the threshold; the state makes no other thread
def register (s : LuaState) (o : Obj) : Except Fault LuaState := do
  let gc ← { s.gc with heap := (s.gc.heap.create o).1 }.link P s.gc.heap.cells.length
  .ok { s with gc }

def act (s : LuaState) : Action → Except Fault LuaState
  | .push v =>
      if s.top ≥ s.stack.length then .error .rejected
      else .ok { s with stack := s.stack.set s.top v, top := s.top + 1 }
  | .pop => if s.top = 0 then .error .rejected else .ok { s with top := s.top - 1 }
  | .setTop n =>
      if n > s.stack.length then .error .rejected
      else .ok { s with
        stack := s.stack.take s.top ++ List.replicate (n - s.top) .nil ++ s.stack.drop (max s.top n)
        top := n }
  | .store slot v =>
      if slot ≥ s.stack.length then .error .rejected else .ok { s with stack := s.stack.set slot v }
  | .frame ci => .ok { s with ci }
  | .setTable t key value => s.write t (storeTable key value)
  | .setMetatable t metatable => s.write t (storeMetatable metatable)
  | .writeUpvalue u uv => s.write u (storeUpvalue uv)
  | .openUpvals up => .ok { s with openUpval := up }
  -- a compiled function has no nested prototypes
  | .compile f => .ok { s with
      gc := { s.gc with heap := (s.gc.heap.create (.proto { f with protos := [] })).1 } }
  | .alloc o => if o.objType = .thread ∨ o.objType = .proto then .error .rejected else s.register P o
  | .link a => do
      let gc ← s.gc.link P a
      .ok { s with gc }
  | .collect =>
      if s.gc.numObjects > s.gc.threshold then do
        let gc ← s.gc.collect P fuel
        .ok { s with gc }
      else .error .rejected

def acts (s : LuaState) : List Action → Except Fault LuaState
  | [] => .ok s
  | action :: actions => do
      let s ← s.act P fuel action
      s.acts actions

end LuaState

end Zua.Memory
