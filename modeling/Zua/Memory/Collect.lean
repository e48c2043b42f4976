import Zua.Memory.Heap

/-!
# The collector

`gc.zig`: an intrusive list of objects, recursive marking from three roots and a sweep that unlinks and
frees in place. Loops and recursion take fuel; a run that needs more and more of it does not return.
-/

namespace Zua.Memory
open Object

inductive Fault
  | outOfFuel
  | useAfterFree
  | badCast
  | overflow
  | rejected
  deriving DecidableEq, Repr

structure Roots where
  globals : Option Addr := none
  registry : Option Addr := none
  mainThread : Option Addr := none
  deriving DecidableEq, Repr

-- the memory that the collector works on is its field `heap`
structure GC where
  heap : Heap := {}
  objects : Option Addr := none
  numObjects : Nat := 0
  threshold : Nat := 1024
  totalAllocated : Nat := 0
  totalCollected : Nat := 0
  collectionCount : Nat := 0
  roots : Option Roots := none
  deriving DecidableEq, Repr

-- `@sizeOf` of the object types, and `num_objects * factor` as a function of the objects left and
-- the objects collected
structure Platform where
  sizeOf : ObjType → Nat
  scaled : Nat → Nat → Nat

section Mark

variable (mark : Heap → Addr → Except Fault Heap)

def markOption (h : Heap) : Option Addr → Except Fault Heap
  | some a => mark h a
  | none => .ok h

def markValue (h : Heap) (v : Value) : Except Fault Heap := markOption mark h v.object?

-- `while (upval) |uv| { markObject(&uv.gc); upval = uv.next; }`
def markUpvals : Nat → Heap → Option Addr → Except Fault Heap
  | _, h, none => .ok h
  | 0, _, some _ => .error .outOfFuel
  | fuel + 1, h, some u => do
      let h ← mark h u
      match h.upvalue? u with
      | some uv => markUpvals fuel h uv.next
      | none => .error .badCast

-- the switch over the object types in `markObject`
def markChildren (fuel : Nat) (h : Heap) : Obj → Except Fault Heap
  | .string _ => .ok h
  | .table t => do
      let h ← markOption mark h t.metatable
      let h ← t.array.foldlM (markValue mark) h
      (t.map.flatMap fun e => [e.1, e.2]).foldlM (markValue mark) h
  | .closure proto upvalues => do
      let h ← mark h proto
      upvalues.foldlM (markOption mark) h
  | .cClosure _ upvalues env => do
      let h ← markOption mark h env
      upvalues.foldlM (markValue mark) h
  | .userdata _ env => markOption mark h env
  | .thread t => do
      let h ← mark h t.globals
      let h ← mark h t.registry
      let h ← markUpvals mark fuel h t.openUpval
      (t.stack.take t.stackTop).foldlM (markValue mark) h
  | .upvalue u => markValue mark h u.closed
  | .proto f => f.protos.foldlM mark h

end Mark

def markObject : Nat → Heap → Addr → Except Fault Heap
  | 0, _, _ => .error .outOfFuel
  | fuel + 1, h, a =>
      match h.get a with
      | none => .error .useAfterFree
      | some cell =>
          if cell.marked ≠ 0 then .ok h
          else markChildren (markObject fuel) fuel (h.put a { cell with marked := 1 }) cell.obj

-- without roots every object on the list is marked
def markAll (fuel : Nat) : Nat → Heap → Option Addr → Except Fault Heap
  | _, h, none => .ok h
  | 0, _, some _ => .error .outOfFuel
  | steps + 1, h, some a => do
      let h ← markObject fuel h a
      match h.get a with
      | some cell => markAll fuel steps h cell.next
      | none => .error .useAfterFree

def markMainThread (fuel : Nat) (h : Heap) (thread : Addr) : Except Fault Heap := do
  let h ← markObject fuel h thread
  match h.thread? thread with
  | none => .error .badCast
  | some t => do
      let h ← (t.stack.take t.stackTop).foldlM (markValue (markObject fuel)) h
      markUpvals (markObject fuel) fuel h t.openUpval

def markRoots (fuel : Nat) (gc : GC) : Except Fault Heap :=
  match gc.roots with
  | some roots => do
      let h ← markOption (markObject fuel) gc.heap roots.globals
      let h ← markOption (markObject fuel) h roots.registry
      markOption (markMainThread fuel) h roots.mainThread
  | none => markAll fuel fuel gc.heap gc.objects

-- freeing what is already free is a fault
def destroy (h : Heap) (a : Addr) : Except Fault Heap :=
  match h.get a with
  | some _ => .ok (h.destroy a)
  | none => .error .useAfterFree

-- a thread owns its two tables and destroys them; the other objects own no object
def deinit (h : Heap) : Obj → Except Fault Heap
  | .thread t => do
      let h ← destroy h t.globals
      destroy h t.registry
  | _ => .ok h

namespace GC

variable (P : Platform)

def freeObject (gc : GC) (a : Addr) : Except Fault GC :=
  match gc.heap.get a with
  | none => .error .useAfterFree
  | some cell => do
      let h ← deinit gc.heap cell.obj
      let h ← destroy h a
      .ok { gc with
        heap := h
        totalCollected := gc.totalCollected + P.sizeOf cell.obj.objType }

def unlink (gc : GC) (prev next : Option Addr) : Except Fault GC :=
  match prev with
  | none => .ok { gc with objects := next }
  | some p =>
      match gc.heap.get p with
      | some cell => .ok { gc with heap := gc.heap.put p { cell with next := next } }
      | none => .error .useAfterFree

def sweep : Nat → GC → Option Addr → Option Addr → Nat → Except Fault (GC × Nat)
  | _, gc, _, none, collected => .ok (gc, collected)
  | 0, _, _, some _, _ => .error .outOfFuel
  | fuel + 1, gc, prev, some obj, collected =>
      match gc.heap.get obj with
      | none => .error .useAfterFree
      | some cell =>
          if cell.marked = 0 then do
            let gc ← gc.unlink prev cell.next
            let gc ← gc.freeObject P obj
            if gc.numObjects = 0 then .error .overflow
            else sweep fuel { gc with numObjects := gc.numObjects - 1 } prev cell.next (collected + 1)
          else
            sweep fuel { gc with heap := gc.heap.put obj { cell with marked := 0 } } (some obj)
              cell.next collected

def collect (fuel : Nat) (gc : GC) : Except Fault GC := do
  let h ← markRoots fuel gc
  let (gc, collected) ← sweep P fuel { gc with heap := h } none gc.objects 0
  .ok { gc with
    collectionCount := gc.collectionCount + 1
    totalCollected := gc.totalCollected + collected
    threshold := max (P.scaled gc.numObjects collected) 1024 }

-- the part of `addObject` before the threshold is checked
def link (gc : GC) (a : Addr) : Except Fault GC :=
  match gc.heap.get a with
  | none => .error .useAfterFree
  | some cell =>
      .ok { gc with
        heap := gc.heap.put a { cell with next := gc.objects }
        objects := some a
        numObjects := gc.numObjects + 1
        totalAllocated := gc.totalAllocated + P.sizeOf cell.obj.objType }

def addObject (fuel : Nat) (gc : GC) (a : Addr) : Except Fault GC := do
  let gc ← gc.link P a
  if gc.numObjects > gc.threshold then gc.collect P fuel else .ok gc

end GC

end Zua.Memory
