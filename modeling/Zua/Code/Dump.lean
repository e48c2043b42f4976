import Zua.Base.Bytes
import Zua.Memory.Heap

/-!
# Binary chunks

`dump.zig` writes a function as a precompiled Lua 5.1 chunk. It is read back here with the loader of
`lundump.c`, without its last step, the check of the code.
-/

namespace Zua.Code
open Memory (Constant)

structure VarArgs where
  hasArg : Bool := false
  isVarArg : Bool := false
  needsArg : Bool := false
  deriving DecidableEq, Repr, Inhabited

namespace VarArgs

def dump (v : VarArgs) : UInt8 :=
  (if v.hasArg then 1 else 0) ||| (if v.isVarArg then 2 else 0) ||| (if v.needsArg then 4 else 0)

def undump (dumped : UInt8) : VarArgs :=
  ⟨dumped &&& 1 == 1, dumped &&& 2 == 2, dumped &&& 4 == 4⟩

theorem undump_dump (v : VarArgs) : undump v.dump = v := by
  rcases v with ⟨_ | _, _ | _, _ | _⟩ <;> decide

end VarArgs

-- the code of a function is kept in instruction words
structure Function where
  code : List UInt32 := []
  constants : List Constant := []
  protos : List Function := []
  varargs : VarArgs := {}
  maxStackSize : UInt8
  numParams : UInt8 := 0
  numUpvalues : UInt8 := 0

-- what the chunk depends on of the machine: the byte order and the size of a `usize`
structure Target where
  little : Bool
  wide : Bool
  deriving DecidableEq, Repr

namespace Target

def sizeT (target : Target) : Nat := if target.wide then 8 else 4

variable (target : Target)

def int (n : Nat) : List UInt8 := nativeBytes target.little 4 n
def usize (n : Nat) : List UInt8 := nativeBytes target.little target.sizeT n

end Target

/-! ## Writing -/

namespace Dump

def signature : List UInt8 := [0x1b, 0x4c, 0x75, 0x61]
def luacVersion : UInt8 := 0x51
def luacFormat : UInt8 := 0

section
variable (target : Target)

def writeHeader : List UInt8 :=
  signature ++ [luacVersion, luacFormat, target.little.toUInt8, 4, UInt8.ofNat target.sizeT, 4, 8,
    false.toUInt8]

def writeString : Option (List UInt8) → List UInt8
  | none => target.usize 0
  | some string => target.usize (string.length + 1) ++ string ++ [0]

def bytecodeId : Constant → UInt8
  | .nil => 0
  | .boolean _ => 1
  | .number _ => 3
  | .string _ => 4

def writeConstant (constant : Constant) : List UInt8 :=
  bytecodeId constant :: match constant with
    | .string string => writeString target (some string)
    | .number n => nativeBytes target.little 8 n.bits.toNat
    | .nil => []
    | .boolean val => [val.toUInt8]

def writeWord (word : UInt32) : List UInt8 := nativeBytes target.little 4 word.toNat

-- debug information is always stripped, and the nested functions are not written
def writeFunction (function : Function) : List UInt8 :=
  writeString target none ++ target.int 0 ++ target.int 0 ++
    [function.numUpvalues, function.numParams, function.varargs.dump, function.maxStackSize] ++
    target.int function.code.length ++ function.code.flatMap (writeWord target) ++
    target.int function.constants.length ++ function.constants.flatMap (writeConstant target) ++
    target.int 0 ++ target.int 0 ++ target.int 0 ++ target.int 0

def write (chunk : Function) : List UInt8 := writeHeader target ++ writeFunction target chunk

end

end Dump

/-! ## The loader -/

namespace Lundump

-- a constant as the loader keeps it: a string may be a null pointer
inductive TValue
  | nil
  | boolean (b : Bool)
  | number (n : F64)
  | string (s : Option (List UInt8))
  deriving DecidableEq, Repr, Inhabited

structure LocVar where
  varname : Option (List UInt8)
  startpc : Nat
  endpc : Nat

structure Proto where
  source : List UInt8
  linedefined : Nat
  lastlinedefined : Nat
  nups : UInt8
  numparams : UInt8
  isVararg : UInt8
  maxstacksize : UInt8
  code : List UInt32
  k : List TValue
  p : List Proto
  lineinfo : List Nat
  locvars : List LocVar
  upvalues : List (Option (List UInt8))

section
variable (target : Target)

def loadBlock (size : Nat) : Reader (List UInt8) := Reader.block "unexpected end" size

def loadVar (size : Nat) : Reader Nat := do
  let bytes ← loadBlock size
  return ofNativeBytes target.little bytes

def loadByte : Reader UInt8 := do
  let bytes ← loadBlock 1
  return bytes.headD 0

def loadInt : Reader Nat := do
  let x ← loadVar target 4
  if 2 ^ 31 ≤ x then Reader.fail "bad integer" else return x

def loadNumber : Reader F64 := do
  let x ← loadVar target 8
  return ⟨UInt64.ofNat x⟩

def loadString : Reader (Option (List UInt8)) := do
  let size ← loadVar target target.sizeT
  if size = 0 then return none
  else
    let s ← loadBlock size
    return some (s.take (size - 1))

def loadWord : Reader UInt32 := do
  let x ← loadVar target 4
  return UInt32.ofNat x

def loadCode : Reader (List UInt32) := do
  let n ← loadInt target
  (loadWord target).times n

def loadConstant : Reader TValue := do
  let t ← loadByte
  if t = 0 then return .nil
  else if t = 1 then
    let b ← loadByte
    return .boolean (b != 0)
  else if t = 3 then
    let n ← loadNumber target
    return .number n
  else if t = 4 then
    let s ← loadString target
    return .string s
  else Reader.fail "bad constant"

def loadLocVar : Reader LocVar := do
  let varname ← loadString target
  let startpc ← loadInt target
  let endpc ← loadInt target
  return ⟨varname, startpc, endpc⟩

-- `depth` is what is left of the nested C calls
def loadFunction : Nat → List UInt8 → Reader Proto
  | 0, _ => Reader.fail "code too deep"
  | depth + 1, p => do
      let source ← loadString target
      let linedefined ← loadInt target
      let lastlinedefined ← loadInt target
      let nups ← loadByte
      let numparams ← loadByte
      let isVararg ← loadByte
      let maxstacksize ← loadByte
      let code ← loadCode target
      let n ← loadInt target
      let k ← (loadConstant target).times n
      let n ← loadInt target
      let protos ← (loadFunction depth (source.getD p)).times n
      let n ← loadInt target
      let lineinfo ← (loadVar target 4).times n
      let n ← loadInt target
      let locvars ← (loadLocVar target).times n
      let n ← loadInt target
      let upvalues ← (loadString target).times n
      return ⟨source.getD p, linedefined, lastlinedefined, nups, numparams, isVararg, maxstacksize, code, k,
        protos, lineinfo, locvars, upvalues⟩

-- `luaU_header`
def header : List UInt8 :=
  [0x1b, 0x4c, 0x75, 0x61, 0x51, 0, if target.little then 1 else 0, 4, UInt8.ofNat target.sizeT, 4, 8, 0]

def loadHeader : Reader Unit := do
  let s ← loadBlock 12
  if header target ≠ s then Reader.fail "bad header" else return ()

-- `luaU_undump`; the chunk is named "=?" where it does not say its source
def undump (depth : Nat) : Reader Proto := do
  loadHeader target
  loadFunction target depth [0x3d, 0x3f]

end

end Lundump

/-! ## Reading back what was written -/

section
open Dump Lundump

variable (target : Target)

-- the lengths that the counters of the chunk can hold
structure Fits (f : Function) : Prop where
  code : f.code.length < 2 ^ 31
  constants : f.constants.length < 2 ^ 31
  strings : ∀ s, .string s ∈ f.constants → s.length + 1 < 256 ^ target.sizeT

-- a constant as the loader sees it
def loaded : Constant → TValue
  | .nil => .nil
  | .boolean b => .boolean b
  | .number n => .number n
  | .string s => .string (some s)

theorem loaded_injective : Function.Injective loaded := by
  intro a b same
  cases a <;> cases b <;> simp_all [loaded]

namespace Lundump

theorem loadVar_reads (width n : Nat) (fits : n < 256 ^ width) :
    Reads (loadVar target width) (nativeBytes target.little width n) n := by
  have block := Reads.block "unexpected end" (nativeBytes target.little width n)
  rw [nativeBytes_length] at block
  have read := block.map (ofNativeBytes target.little)
  rwa [ofNativeBytes_nativeBytes target.little fits] at read

theorem loadByte_reads (b : UInt8) : Reads loadByte [b] b :=
  (Reads.block "unexpected end" [b]).map (List.headD · 0)

theorem loadInt_reads (n : Nat) (fits : n < 2 ^ 31) : Reads (loadInt target) (target.int n) n := by
  have read := loadVar_reads target 4 n (by omega)
  have guarded := read.bind (f := fun x => if 2 ^ 31 ≤ x then Reader.fail "bad integer" else pure x)
    (by rw [if_neg (by omega)]; exact Reads.pure n)
  simpa [loadInt, Target.int] using guarded

theorem loadNumber_reads (n : F64) :
    Reads (loadNumber target) (nativeBytes target.little 8 n.bits.toNat) n := by
  have bits : n.bits.toNat < 256 ^ 8 := n.bits.toNat_lt
  simpa [loadNumber] using (loadVar_reads target 8 n.bits.toNat bits).map fun x => F64.mk (UInt64.ofNat x)

theorem loadWord_reads (word : UInt32) : Reads (loadWord target) (writeWord target word) word := by
  have bits : word.toNat < 256 ^ 4 := word.toNat_lt
  simpa [loadWord, writeWord] using (loadVar_reads target 4 word.toNat bits).map UInt32.ofNat

-- the length is one more than the string's, for the terminator that is read with it and dropped
theorem loadString_reads (s : List UInt8) (fits : s.length + 1 < 256 ^ target.sizeT) :
    Reads (loadString target) (writeString target (some s)) (some s) := by
  have size := loadVar_reads target target.sizeT (s.length + 1) fits
  have content := Reads.block "unexpected end" (s ++ [0])
  rw [List.length_append, List.length_singleton] at content
  have read := content.map fun bytes => some (bytes.take (s.length + 1 - 1))
  simp only [Nat.add_sub_cancel, List.take_left'] at read
  have all := size.bind (f := fun size => if size = 0 then pure none else do
    let s ← loadBlock size
    return some (s.take (size - 1))) (by rw [if_neg (by omega)]; exact read)
  simpa [loadString, writeString, Target.usize] using all

theorem loadString_null : Reads (loadString target) (writeString target none) none := by
  have size := loadVar_reads target target.sizeT 0 (by positivity)
  have all := size.bind (f := fun size => if size = 0 then pure none else do
    let s ← loadBlock size
    return some (s.take (size - 1))) (by rw [if_pos rfl]; exact Reads.pure none)
  simpa [loadString, writeString, Target.usize] using all

theorem loadConstant_reads (c : Constant) (fits : ∀ s, c = .string s → s.length + 1 < 256 ^ target.sizeT) :
    Reads (loadConstant target) (writeConstant target c) (loaded c) := by
  unfold loadConstant
  cases c with
  | nil => exact (loadByte_reads 0).bind (Reads.pure _)
  | boolean b =>
      have read := (loadByte_reads b.toUInt8).map fun b => TValue.boolean (b != 0)
      rw [show (b.toUInt8 != 0) = b by cases b <;> rfl] at read
      exact (loadByte_reads 1).bind read
  | number n => exact (loadByte_reads 3).bind ((loadNumber_reads target n).map TValue.number)
  | string s =>
      exact (loadByte_reads 4).bind ((loadString_reads target s (fits s rfl)).map TValue.string)

theorem loadCode_reads (code : List UInt32) (fits : code.length < 2 ^ 31) :
    Reads (loadCode target) (target.int code.length ++ code.flatMap (writeWord target)) code :=
  (loadInt_reads target code.length fits).bind (Reads.times fun word _ => loadWord_reads target word)

theorem loadConstants_reads (constants : List Constant)
    (strings : ∀ s, .string s ∈ constants → s.length + 1 < 256 ^ target.sizeT) :
    Reads ((loadConstant target).times constants.length) (constants.flatMap (writeConstant target))
      (constants.map loaded) := by
  induction constants with
  | nil => exact Reads.pure []
  | cons c constants ih =>
      have head := loadConstant_reads target c fun s same => strings s (same ▸ List.mem_cons_self)
      have tail := ih fun s member => strings s (List.mem_cons_of_mem _ member)
      exact head.bind (tail.map (loaded c :: ·))

-- the prototype that the chunk of a function without nested functions describes
def protoOf (f : Function) : Proto where
  source := [0x3d, 0x3f]
  linedefined := 0
  lastlinedefined := 0
  nups := f.numUpvalues
  numparams := f.numParams
  isVararg := f.varargs.dump
  maxstacksize := f.maxStackSize
  code := f.code
  k := f.constants.map loaded
  p := []
  lineinfo := []
  locvars := []
  upvalues := []

theorem loadFunction_reads (f : Function) (fits : Fits target f) (depth : Nat) :
    Reads (loadFunction target (depth + 1) [0x3d, 0x3f]) (writeFunction target f) (protoOf f) := by
  have zero := loadInt_reads target 0 (by norm_num)
  have code := loadCode_reads target f.code fits.code
  have count := loadInt_reads target f.constants.length fits.constants
  have constants := loadConstants_reads target f.constants fits.strings
  have layout : writeFunction target f = writeString target none ++ (target.int 0 ++ (target.int 0 ++
      ([f.numUpvalues] ++ ([f.numParams] ++ ([f.varargs.dump] ++ ([f.maxStackSize] ++
      ((target.int f.code.length ++ f.code.flatMap (writeWord target)) ++
      (target.int f.constants.length ++ (f.constants.flatMap (writeConstant target) ++
      (target.int 0 ++ ([] ++ (target.int 0 ++ ([] ++ (target.int 0 ++ ([] ++ (target.int 0 ++
      ([] ++ []))))))))))))))))) := by
    simp [writeFunction]
  rw [layout, loadFunction]
  refine (loadString_null target).bind (zero.bind (zero.bind ?_))
  refine (loadByte_reads _).bind ((loadByte_reads _).bind ((loadByte_reads _).bind ?_))
  refine (loadByte_reads _).bind (code.bind (count.bind (constants.bind ?_)))
  refine zero.bind ((Reads.pure []).bind (zero.bind ((Reads.pure []).bind ?_)))
  refine zero.bind ((Reads.pure []).bind (zero.bind ((Reads.pure []).bind ?_)))
  exact Reads.pure (protoOf f)

theorem loadHeader_reads : Reads (loadHeader target) (writeHeader target) () := by
  have block := Reads.block "unexpected end" (writeHeader target)
  rw [show (writeHeader target).length = 12 from rfl] at block
  have same : header target = writeHeader target := by
    rcases target with ⟨_ | _, _ | _⟩ <;> rfl
  have checked := block.bind (f := fun s => if header target ≠ s then Reader.fail "bad header" else pure ())
    (by rw [if_neg (not_not.mpr same)]; exact Reads.pure ())
  simpa [loadHeader, loadBlock] using checked

theorem undump_reads (f : Function) (fits : Fits target f) (depth : Nat) :
    Reads (undump target (depth + 1)) (write target f) (protoOf f) :=
  (loadHeader_reads target).bind (loadFunction_reads target f fits depth)

end Lundump

-- the two functions agree on what a chunk carries
structure SameFields (f g : Function) : Prop where
  code : f.code = g.code
  constants : f.constants = g.constants
  numUpvalues : f.numUpvalues = g.numUpvalues
  numParams : f.numParams = g.numParams
  maxStackSize : f.maxStackSize = g.maxStackSize
  varargs : f.varargs = g.varargs

-- equal chunks are loaded as equal prototypes
theorem sameFields_of_write {f g : Function} (fits : Fits target f) (fits' : Fits target g)
    (same : write target f = write target g) : SameFields f g := by
  have left := undump_reads target f fits 0
  have right := undump_reads target g fits' 0
  rw [← same] at right
  have protos : protoOf f = protoOf g := left.unique right
  simp only [protoOf, Proto.mk.injEq, true_and, and_true] at protos
  obtain ⟨upvalues, params, varargs, stack, code, constants⟩ := protos
  have flags : f.varargs = g.varargs := by
    rw [← VarArgs.undump_dump f.varargs, varargs, VarArgs.undump_dump]
  exact ⟨code, List.map_injective_iff.mpr loaded_injective constants, upvalues, params, stack, flags⟩

theorem write_roundTrip (f : Function) (unnested : f.protos = []) (fits : Fits target f) (depth : Nat) :
    (∃ p, undump target (depth + 1) (write target f) = .ok (p, []) ∧ p.code = f.code ∧
      p.k = f.constants.map loaded ∧ p.nups = f.numUpvalues ∧ p.numparams = f.numParams ∧
      p.maxstacksize = f.maxStackSize ∧ VarArgs.undump p.isVararg = f.varargs ∧
      p.p.length = f.protos.length) ∧
    ∀ g : Function, g.protos = [] → Fits target g → write target f = write target g → SameFields f g := by
  constructor
  · have read := undump_reads target f fits depth []
    rw [List.append_nil] at read
    refine ⟨protoOf f, read, rfl, rfl, rfl, rfl, rfl, VarArgs.undump_dump f.varargs, ?_⟩
    rw [unnested]
    rfl
  · intro g _ fits' same
    exact sameFields_of_write target fits fits' same

end

-- a string with a NUL, an empty string and one constant of each other kind
def constantsChunk : Function where
  code := [0x0080001e]
  constants := [.string [0x70, 0, 0x74], .string [], .boolean true, .boolean false, .nil, .number ⟨0⟩]
  varargs := ⟨false, true, false⟩
  maxStackSize := 2

theorem write_roundTrip_constants : ∃ p, Lundump.undump ⟨true, true⟩ 1
    (Dump.write ⟨true, true⟩ constantsChunk) = .ok (p, []) ∧ p.code = [0x0080001e] ∧
    p.k = [.string (some [0x70, 0, 0x74]), .string (some []), .boolean true, .boolean false, .nil,
      .number ⟨0⟩] ∧ VarArgs.undump p.isVararg = ⟨false, true, false⟩ := by
  have fits : Fits ⟨true, true⟩ constantsChunk := by
    refine ⟨by decide, by decide, ?_⟩
    intro s member
    simp only [constantsChunk, List.mem_cons, Memory.Constant.string.injEq, reduceCtorEq, List.not_mem_nil,
      or_false] at member
    rcases member with rfl | rfl <;> decide
  obtain ⟨p, read, code, constants, -, -, -, varargs, -⟩ :=
    (write_roundTrip ⟨true, true⟩ constantsChunk rfl fits 0).1
  exact ⟨p, read, code, constants, varargs⟩

end Zua.Code
