import Zua.Base.Linked
import Zua.Base.Marking
import Zua.Code.Opcodes
import Zua.Object.Value

/-!
# The heap

The collectable objects of `object.zig` behind their addresses. A freed cell stays free: an address is
never given out twice, so that a stale pointer is seen when it is followed.
-/

namespace Zua.Memory
open Code Object

inductive Constant
  | string (s : List UInt8)
  | number (n : F64)
  | nil
  | boolean (b : Bool)
  deriving DecidableEq, Repr, Inhabited

structure Function where
  code : List Instruction := []
  constants : List Constant := []
  protos : List Addr := []
  maxStackSize : Nat := 0
  numParams : Nat := 0
  numUpvalues : Nat := 0
  deriving DecidableEq, Repr, Inhabited

structure TableObj where
  array : List Value := []
  map : List (Value × Value) := []
  metatable : Option Addr := none
  deriving DecidableEq, Repr, Inhabited

-- `value` is the stack slot of an open upvalue; a closed one points at its own `closed`
structure UpValue where
  value : Option Nat
  closed : Value := .nil
  next : Option Addr := none
  deriving DecidableEq, Repr, Inhabited

structure Thread where
  stack : List Value
  stackTop : Nat := 0
  top_le : stackTop ≤ stack.length
  openUpval : Option Addr := none
  globals : Addr
  registry : Addr
  deriving DecidableEq, Repr

inductive Obj
  | string (s : Str)
  | table (t : TableObj)
  | closure (proto : Addr) (upvalues : List (Option Addr))
  | cClosure (func : Nat) (upvalues : List Value) (env : Option Addr)
  | userdata (data : Addr) (env : Option Addr)
  | thread (t : Thread)
  | upvalue (u : UpValue)
  | proto (f : Function)
  deriving DecidableEq, Repr

inductive ObjType
  | string | table | closure | cClosure | userdata | thread | upvalue | proto
  deriving DecidableEq, Repr

def Obj.objType : Obj → ObjType
  | .string _ => .string
  | .table _ => .table
  | .closure _ _ => .closure
  | .cClosure _ _ _ => .cClosure
  | .userdata _ _ => .userdata
  | .thread _ => .thread
  | .upvalue _ => .upvalue
  | .proto _ => .proto

-- an object with its `GCObject` header
structure Cell where
  next : Option Addr := none
  marked : UInt8 := 0
  obj : Obj
  deriving DecidableEq, Repr

structure Heap where
  cells : List (Option Cell) := []
  deriving DecidableEq, Repr

namespace Heap

variable {h : Heap} {a b : Addr} {c : Cell}

def get (h : Heap) (a : Addr) : Option Cell := (h.cells[a]?).join
def put (h : Heap) (a : Addr) (c : Cell) : Heap := ⟨h.cells.set a (some c)⟩
def destroy (h : Heap) (a : Addr) : Heap := ⟨h.cells.set a none⟩
def create (h : Heap) (obj : Obj) : Heap × Addr := (⟨h.cells ++ [some { obj := obj }]⟩, h.cells.length)

def Live (h : Heap) (a : Addr) : Prop := ∃ c, h.get a = some c

def obj? (h : Heap) (a : Addr) : Option Obj := (h.get a).map Cell.obj
def next? (h : Heap) (a : Addr) : Option (Option Addr) := (h.get a).map Cell.next

def upvalue? (h : Heap) (a : Addr) : Option UpValue :=
  match h.obj? a with
  | some (.upvalue u) => some u
  | _ => none

def thread? (h : Heap) (a : Addr) : Option Thread :=
  match h.obj? a with
  | some (.thread t) => some t
  | _ => none

def marked (h : Heap) : Set Addr := {a | ∃ c, h.get a = some c ∧ c.marked ≠ 0}

theorem live_lt (live : h.get a = some c) : a < h.cells.length := by
  by_contra large
  rw [get, List.getElem?_eq_none (Nat.not_lt.mp large)] at live
  cases live

theorem get_put (live : h.Live a) : (h.put a c).get b = if a = b then some c else h.get b := by
  obtain ⟨old, live⟩ := live
  have inside := live_lt live
  unfold get put
  rw [List.getElem?_set]
  by_cases same : a = b
  · rw [if_pos same, if_pos same, if_pos inside]
    rfl
  · rw [if_neg same, if_neg same]

theorem get_put_self (live : h.Live a) : (h.put a c).get a = some c := by
  rw [get_put live, if_pos rfl]

theorem get_put_ne (live : h.Live a) (other : a ≠ b) : (h.put a c).get b = h.get b := by
  rw [get_put live, if_neg other]

theorem get_destroy : (h.destroy a).get b = if a = b then none else h.get b := by
  unfold get destroy
  rw [List.getElem?_set]
  split
  · split <;> rfl
  · rfl

theorem get_create (obj : Obj) :
    (h.create obj).1.get b = if b = h.cells.length then some { obj := obj } else h.get b := by
  unfold get create
  rcases Nat.lt_trichotomy b h.cells.length with small | same | large
  · rw [if_neg (Nat.ne_of_lt small), List.getElem?_append_left small]
  · simp [same]
  · rw [if_neg (Nat.ne_of_gt large), List.getElem?_eq_none (Nat.le_of_lt large),
      List.getElem?_eq_none]
    rw [List.length_append]
    exact large

end Heap

/-! ## References -/

-- a list of upvalues linked by their own `next`
def Chain (h : Heap) (up : Option Addr) (l : List Addr) : Prop :=
  Linked (fun a => (h.upvalue? a).map UpValue.next) up none l

inductive OnChain (h : Heap) : Option Addr → Addr → Prop
  | head {u : Addr} : OnChain h (some u) u
  | tail {u b : Addr} {uv : UpValue} : h.upvalue? u = some uv → OnChain h uv.next b → OnChain h (some u) b

def Holds (values : List Value) (b : Addr) : Prop := ∃ v ∈ values, v.object? = some b

def Obj.Refers (h : Heap) (b : Addr) : Obj → Prop
  | .string _ => False
  | .table t => t.metatable = some b ∨ Holds t.array b ∨ Holds (t.map.flatMap fun e => [e.1, e.2]) b
  | .closure f upvalues => f = b ∨ some b ∈ upvalues
  | .cClosure _ upvalues env => env = some b ∨ Holds upvalues b
  | .userdata _ env => env = some b
  | .thread t => t.globals = b ∨ t.registry = b ∨ OnChain h t.openUpval b ∨ Holds (t.stack.take t.stackTop) b
  | .upvalue u => Holds [u.closed] b
  | .proto f => b ∈ f.protos

def Edge (h : Heap) (a b : Addr) : Prop := ∃ o, h.obj? a = some o ∧ o.Refers h b

end Zua.Memory
