import Zua.Base.Hoare
import Zua.Code.Check
import Zua.Lex.Number
import Zua.Lex.ParseLiteral
import Zua.Syntax.Ast

/-!
# Emitting code

`Compiler.Func` of `compiler.zig`, the function that is being compiled. An expression is described by an
`ExpDesc` until its value is needed in a register or as an operand. The lists of jumps of a description
are left out: nothing in the source ever fills them.
-/

namespace Zua.Compile
open Code
open Memory (Constant)
open Zua.Lex (Token ch)

-- why compiling stops; the first five are limits of the format, and `literal` is a failed check while the text
-- of a literal is read
inductive Stop
  | registerLimit | constantLimit | localLimit | jumpLimit | breakOutsideLoop
  | todo | assertion | unreachable | overflow | outOfBounds | literal
  deriving DecidableEq, Repr

-- the batch number of a long list takes a word of its own
inductive Word
  | instr (i : Instruction)
  | batch (n : Nat)
  deriving DecidableEq, Repr

def Word.encode : Word → UInt32
  | .instr i => i.word
  | .batch n => UInt32.ofNat n

inductive ExpDesc
  | void
  | nil
  | true
  | false
  | constantIndex (k : Nat)
  | number (n : F64)
  | localRegister (r : Nat)
  | upvalueIndex (i : Nat)
  | global (k : Nat)
  | indexed (table key : Nat)
  | jmp (index : Nat)
  | relocable (index : Nat)
  | nonreloc (r : Nat)
  | call (index : Nat)
  | vararg (index : Nat)
  deriving DecidableEq, Repr

namespace ExpDesc

def hasmultret : ExpDesc → Bool
  | .call _ | .vararg _ => .true
  | _ => .false

def isnumeral : ExpDesc → Bool
  | .number _ => .true
  | _ => .false

end ExpDesc

-- `LUAI_MAXVARS`
def maxVars : Nat := 200

-- registers 0 and 1 are always valid, and a function that needs 250 is not compiled
structure StackSize where
  val : Nat
  two_le : 2 ≤ val
  lt : val < Code.maxStackSize

structure Func where
  maxStackSize : StackSize := ⟨2, le_rfl, by decide⟩
  freeRegister : Nat := 0
  curExp : ExpDesc := .void
  code : List Word := []
  constants : List Constant := []
  varargs : VarArgs := { isVarArg := true }
  numActiveLocalVars : Nat := 0
  activeLocalVars : List Nat := List.replicate maxVars 0
  localVars : List Token := []

abbrev FuncM := StateT Func (Except Stop)

namespace Func

def pc (fs : Func) : Nat := fs.code.length

/-! ## Registers -/

-- registers are counted in 8 bits
def checkstack (n : Nat) : FuncM Unit := do
  let fs ← get
  let newstack := fs.freeRegister + n
  if 256 ≤ newstack then throw .registerLimit
  else if fits : newstack ≤ fs.maxStackSize.val then return ()
  else if large : Code.maxStackSize ≤ newstack then throw .registerLimit
  else
    have two_le : 2 ≤ newstack := fs.maxStackSize.two_le.trans (Nat.le_of_not_le fits)
    set { fs with maxStackSize := ⟨newstack, two_le, Nat.lt_of_not_le large⟩ }

def reserveregs (n : Nat) : FuncM Unit := do
  checkstack n
  modify fun fs => { fs with freeRegister := fs.freeRegister + n }

def freereg (reg : Nat) : FuncM Unit := do
  let fs ← get
  if !rkIsConstant reg && fs.numActiveLocalVars ≤ reg then
    if fs.freeRegister = 0 then throw .overflow
    else if reg ≠ fs.freeRegister - 1 then throw .assertion
    else set { fs with freeRegister := fs.freeRegister - 1 }
  else return ()

def freeexp : ExpDesc → FuncM Unit
  | .nonreloc r => freereg r
  | _ => return ()

/-! ## Instructions and constants -/

def emitWord (w : Word) : FuncM Nat := do
  let fs ← get
  set { fs with code := fs.code ++ [w] }
  return fs.pc

def emitInstruction (i : Instruction) : FuncM Nat := emitWord (.instr i)

def emitABC (op : OpCode) (a b c : Nat) : FuncM Nat := emitInstruction ⟨op, a, b, c⟩
def emitABx (op : OpCode) (a bx : Nat) : FuncM Nat := emitInstruction (.abx op a bx)
def emitAsBx (op : OpCode) (a : Nat) (sbx : Int) : FuncM Nat := emitInstruction (.asbx op a sbx)

-- `luaK_ret`; without a number of values, all up to the top are returned
def emitReturn (first : Nat) (num : Option Nat) : FuncM Nat :=
  emitABC .return first ((num.map (· + 1)).getD 0) 0

-- at the start of the function the registers above the locals are taken to be nil already
def emitNil (start n : Nat) : FuncM Unit := do
  let fs ← get
  if n = 0 then throw .assertion
  else if fs.pc = 0 ∧ fs.numActiveLocalVars ≤ start then return ()
  else
    let _ ← emitABC .loadnil start (start + n - 1) 0

def getcode (index : Nat) : FuncM Instruction := do
  let fs ← get
  match fs.code[index]? with
  | some (.instr i) => return i
  | _ => throw .outOfBounds

def patch (index : Nat) (f : Instruction → Instruction) : FuncM Unit := do
  let i ← getcode index
  modify fun fs => { fs with code := fs.code.set index (.instr (f i)) }

-- the hash map of the constants looks for a key with the same fingerprint, the 7 high bits of its hash
def sameKey : Constant → Constant → Bool
  | .string a, .string b => a == b
  | .number a, .number b => a.eq b && a.bits >>> 57 == b.bits >>> 57
  | .boolean a, .boolean b => a == b
  | .nil, .nil => .true
  | _, _ => .false

-- numbers that are equal and have the same sign are the same
theorem sameKey_eq {a b : Constant} (same : sameKey a b = true) : a = b := by
  cases a <;> cases b <;> simp only [sameKey, Bool.and_eq_true, beq_iff_eq, Bool.false_eq_true] at same
  case nil.nil => rfl
  case boolean.boolean => rw [same]
  case string.string => rw [same]
  case number.number =>
      rename_i x y
      obtain ⟨equal, sign⟩ := same
      rcases F64.bits_eq_of_rank (F64.eq_iff.mp equal).2.2 with rfl | ⟨zero, zero'⟩
      · rfl
      · have high := congrArg UInt64.toNat sign
        simp only [UInt64.toNat_shiftRight] at high
        cases x with | mk x =>
        cases y with | mk y =>
        simp only [F64.magnitude] at zero zero'
        have xs := x.toNat_lt
        have ys := y.toNat_lt
        congr 2
        apply UInt64.toNat_inj.mp
        simp [Nat.shiftRight_eq_div_pow] at high
        omega

def maxBx : Nat := 2 ^ 18 - 1

def putConstant (constant : Constant) : FuncM Nat := do
  let fs ← get
  match fs.constants.findIdx? (sameKey constant) with
  | some index => return index
  | none =>
      if maxBx < fs.constants.length then throw .constantLimit
      else
        set { fs with constants := fs.constants ++ [constant] }
        return fs.constants.length

/-! ## Local variables -/

def newLocalvar (name : Token) (index : Nat) : FuncM Unit := do
  let fs ← get
  if maxVars ≤ fs.numActiveLocalVars + index then throw .localLimit
  else
    set { fs with
      activeLocalVars := fs.activeLocalVars.set (fs.numActiveLocalVars + index) fs.localVars.length
      localVars := fs.localVars ++ [name] }

-- the ranges in which variables are live are only for debuggers and not kept
def adjustlocalvars (n : Nat) : FuncM Unit :=
  modify fun fs => { fs with numActiveLocalVars := fs.numActiveLocalVars + n }

def getlocvar (fs : Func) (index : Nat) : Option Token :=
  fs.activeLocalVars[index]?.bind (fs.localVars[·]?)

def removevars : FuncM Unit := do
  let fs ← get
  if ∀ index < fs.numActiveLocalVars, (fs.getlocvar index).isSome then
    set { fs with numActiveLocalVars := 0 }
  else throw .outOfBounds

-- `searchvar`: the last of the first `n` active variables that has the name
def searchVar (fs : Func) (source name : List UInt8) : Nat → Except Stop (Option Nat)
  | 0 => .ok none
  | n + 1 =>
      match fs.getlocvar n with
      | none => .error .outOfBounds
      | some token => if token.slice source = name then .ok (some n) else fs.searchVar source name n

def findLocalVarByToken (source : List UInt8) (token : Token) : FuncM (Option Nat) := do
  let fs ← get
  fs.searchVar source (token.slice source) fs.numActiveLocalVars

/-! ## Discharging expressions -/

def setoneret : ExpDesc → FuncM ExpDesc
  | .call index => do
      let i ← getcode index
      return .nonreloc i.a
  | .vararg index => do
      patch index fun i => { i with b := 2 }
      return .relocable index
  | e => return e

def dischargevars : ExpDesc → FuncM ExpDesc
  | .localRegister r => return .nonreloc r
  | .upvalueIndex _ => throw .todo
  | .global k => do
      let index ← emitABx .getglobal 0 k
      return .relocable index
  | .indexed table key => do
      freereg key
      freereg table
      let index ← emitABC .gettable 0 table key
      return .relocable index
  | .vararg index => setoneret (.vararg index)
  | .call index => setoneret (.call index)
  | e => return e

def discharge2reg (e : ExpDesc) (reg : Nat) : FuncM ExpDesc := do
  let e ← dischargevars e
  match e with
  | .nil =>
      emitNil reg 1
      return .nonreloc reg
  | .false =>
      let _ ← emitABC .loadbool reg 0 0
      return .nonreloc reg
  | .true =>
      let _ ← emitABC .loadbool reg 1 0
      return .nonreloc reg
  | .constantIndex k =>
      let _ ← emitABx .loadk reg k
      return .nonreloc reg
  | .number n =>
      let k ← putConstant (.number n)
      let _ ← emitABx .loadk reg k
      return .nonreloc reg
  | .relocable index =>
      let i ← getcode index
      if i.op.opMeta.setsRegisterInA then
        patch index fun i => { i with a := reg }
        return .nonreloc reg
      else throw .assertion
  | .nonreloc r =>
      if reg = r then return .nonreloc reg
      else
        let _ ← emitABC .move reg r 0
        return .nonreloc reg
  | .void | .jmp _ => return e
  | _ => throw .unreachable

def exp2reg (e : ExpDesc) (reg : Nat) : FuncM ExpDesc := do
  let e ← discharge2reg e reg
  match e with
  | .jmp _ => throw .todo
  | _ => return .nonreloc reg

def exp2nextreg (e : ExpDesc) : FuncM (Nat × ExpDesc) := do
  let e ← dischargevars e
  freeexp e
  reserveregs 1
  let fs ← get
  let reg := fs.freeRegister - 1
  let e ← exp2reg e reg
  return (reg, e)

def exp2anyreg (e : ExpDesc) : FuncM (Nat × ExpDesc) := do
  let e ← dischargevars e
  match e with
  | .nonreloc r => return (r, e)
  | _ => exp2nextreg e

def discharge2anyreg : ExpDesc → FuncM ExpDesc
  | .nonreloc r => return .nonreloc r
  | e => do
      reserveregs 1
      let fs ← get
      discharge2reg e (fs.freeRegister - 1)

def exp2val (e : ExpDesc) : FuncM ExpDesc := dischargevars e

-- the constant of a literal
def literal? : ExpDesc → Option Constant
  | .nil => some .nil
  | .true => some (.boolean .true)
  | .false => some (.boolean .false)
  | .number n => some (.number n)
  | _ => none

def exp2RK (e : ExpDesc) : FuncM (Nat × ExpDesc) := do
  let e ← exp2val e
  let fs ← get
  match literal? e, e with
  | some constant, _ =>
      if fs.constants.length ≤ rkMaxConstantIndex then
        let k ← putConstant constant
        return (constantIndexToRK k, e)
      else exp2anyreg e
  | none, .constantIndex k =>
      if k ≤ rkMaxConstantIndex then return (constantIndexToRK k, e) else exp2anyreg e
  | none, _ => exp2anyreg e

def indexed (table key : ExpDesc) : FuncM ExpDesc := do
  let (rk, _) ← exp2RK key
  match table with
  | .nonreloc r => return .indexed r rk
  | _ => throw .assertion

-- `luaK_self`
def handleSelf (e key : ExpDesc) : FuncM ExpDesc := do
  let (_, e) ← exp2anyreg e
  freeexp e
  let fs ← get
  let setup := fs.freeRegister
  reserveregs 2
  match e with
  | .nonreloc table => do
      let (rk, key) ← exp2RK key
      let _ ← emitABC .self setup table rk
      freeexp key
      return .nonreloc setup
  | _ => throw .assertion

def storevar (var e : ExpDesc) : FuncM ExpDesc :=
  match var with
  | .localRegister r => do
      freeexp e
      exp2reg e r
  | .global k => do
      let (r, e) ← exp2anyreg e
      let _ ← emitABx .setglobal r k
      freeexp e
      return e
  | .upvalueIndex _ | .indexed _ _ => throw .todo
  | _ => throw .unreachable

/-! ## Operators -/

def codenot (e : ExpDesc) : FuncM ExpDesc := do
  let e ← dischargevars e
  match e with
  | .nil | .false => return .true
  | .constantIndex _ | .number _ | .true => return .false
  | .jmp _ => throw .todo
  | .relocable _ | .nonreloc _ => do
      let e ← discharge2anyreg e
      freeexp e
      match e with
      | .nonreloc r =>
          let index ← emitABC .not 0 r 0
          return .relocable index
      | _ => throw .assertion
  | _ => throw .unreachable

section
variable (A : F64.Arithmetic)

-- the value of an operator on two number literals, where it is computed at once
def fold (op : OpCode) (v1 v2 : F64) : FuncM (Option F64) :=
  match op with
  | .add => return some (A.add v1 v2)
  | .sub => return some (A.sub v1 v2)
  | .mul => return some (A.mul v1 v2)
  | .div => return if v2.eq ⟨0⟩ then none else some (A.div v1 v2)
  | .mod => return if v2.eq ⟨0⟩ then none else some (A.mod v1 v2)
  | .pow => return some (A.pow v1 v2)
  | .unm => return some (A.neg v1)
  | .len => return none
  | _ => throw .unreachable

def constfolding (op : OpCode) : ExpDesc → Option ExpDesc → FuncM (Option F64)
  | .number v1, some (.number v2) => fold A op v1 v2
  | .number v1, none => fold A op v1 ⟨0⟩
  | _, _ => return none

-- the operand in the higher register first
def freeBoth (o1 o2 : Nat) (e1 e2 : ExpDesc) : FuncM Unit :=
  if o2 < o1 then do
    freeexp e1
    freeexp e2
  else do
    freeexp e2
    freeexp e1

def codearith (op : OpCode) (e1 : ExpDesc) (e2 : Option ExpDesc) : FuncM ExpDesc := do
  let folded ← constfolding A op e1 e2
  match folded, e2 with
  | some r, _ => return .number r
  | none, none => do
      let (o1, e1) ← exp2RK e1
      freeexp e1
      let index ← emitABC op 0 o1 0
      return .relocable index
  | none, some e2 => do
      let (o2, e2) ← exp2RK e2
      let (o1, e1) ← exp2RK e1
      freeBoth o1 o2 e1 e2
      let index ← emitABC op 0 o1 o2
      return .relocable index

def codecomp (op : OpCode) (invert : Bool) (left right : Nat) : FuncM ExpDesc := do
  let index ← emitABC op invert.toNat left right
  return .jmp index

-- `prefix`
def unaryOperator (op : Token) (e : ExpDesc) : FuncM ExpDesc :=
  if op.id = .keywordNot then codenot e
  else if op.isChar (ch '-') then
    if e.isnumeral then codearith A .unm e none
    else do
      let (_, e) ← exp2anyreg e
      codearith A .unm e none
  else if op.isChar (ch '#') then do
    let (_, e) ← exp2anyreg e
    codearith A .len e none
  else throw .unreachable

def arithmeticOps : List (UInt8 × OpCode) :=
  [(ch '+', .add), (ch '-', .sub), (ch '*', .mul), (ch '/', .div), (ch '%', .mod), (ch '^', .pow)]

-- `BinaryMath.tokenToOpCode`, where the token is one of its operators
def arithmeticOp (op : Token) : Option OpCode :=
  if op.id = .singleChar then op.char.bind fun c => List.lookup c arithmeticOps else none

-- `infix`, before the right operand
def leftOperand (op : Token) (e : ExpDesc) : FuncM ExpDesc :=
  if op.id = .keywordAnd ∨ op.id = .keywordOr then throw .todo
  else if (arithmeticOp op).isSome then
    if e.isnumeral then return e
    else do
      let (_, e) ← exp2RK e
      return e
  else if op.id = .concat then do
    let (_, e) ← exp2nextreg e
    let (_, e) ← exp2RK e
    return e
  else do
    let (_, e) ← exp2RK e
    return e

-- the concatenation that the right operand of another one is
def concatOperand : ExpDesc → FuncM (Option (Nat × Instruction))
  | .relocable index => do
      let i ← getcode index
      return if i.op = .concat then some (index, i) else none
  | _ => return none

def codeconcat (e1 e2 : ExpDesc) : FuncM ExpDesc := do
  let e2 ← exp2val e2
  let operand ← concatOperand e2
  match operand, e1 with
  | some (index, i), .nonreloc r =>
      -- the operands have to be consecutive
      if r + 1 = i.b then do
        freereg r
        patch index fun i => { i with b := r }
        return .relocable index
      else throw .assertion
  | some _, _ => throw .assertion
  | none, _ => do
      let (_, e2) ← exp2nextreg e2
      codearith A .concat e1 (some e2)

def comparison (op : OpCode) (invert : Bool) (e1 e2 : ExpDesc) : FuncM ExpDesc := do
  let (left, _) ← exp2RK e1
  let (right, _) ← exp2RK e2
  codecomp op invert left right

-- `posfix`, after the right operand
def binaryOperator (op : Token) (e1 e2 : ExpDesc) : FuncM ExpDesc :=
  if op.id = .keywordAnd ∨ op.id = .keywordOr then throw .todo
  else if op.id = .concat then codeconcat A e1 e2
  else if op.id = .eq then comparison .eq .false e1 e2
  else if op.id = .ne then comparison .eq .true e1 e2
  else if op.id = .le then comparison .le .false e1 e2
  else if op.id = .ge then comparison .le .true e2 e1
  else match arithmeticOp op with
    | some code => codearith A code e1 (some e2)
    | none =>
        if op.isChar (ch '>') then comparison .lt .true e2 e1
        else if op.isChar (ch '<') then comparison .lt .false e1 e2
        else throw .unreachable

end

/-! ## Lists of values -/

-- the number of results is an operand of 9 bits
def setreturns (e : ExpDesc) (num : Option Nat) : FuncM Unit :=
  if 511 ≤ num.getD 0 then throw .registerLimit
  else match e with
    | .call index => patch index fun i => { i with c := (num.map (· + 1)).getD 0 }
    | .vararg index => do
        let fs ← get
        patch index fun i => { i with b := (num.map (· + 1)).getD 0, a := fs.freeRegister }
        reserveregs 1
    | _ => return ()

def setmultret (e : ExpDesc) : FuncM Unit := setreturns e none

def reserveMore (extra : Nat) : FuncM Unit := if 1 < extra then reserveregs (extra - 1) else return ()

def exp2nextregUnlessVoid : ExpDesc → FuncM ExpDesc
  | .void => return .void
  | e => do
      let (_, e) ← exp2nextreg e
      return e

def fillNil (n : Nat) : FuncM Unit :=
  if n = 0 then return ()
  else do
    let fs ← get
    reserveregs n
    emitNil fs.freeRegister n

def adjustAssign (numVars numValues : Nat) (e : ExpDesc) : FuncM ExpDesc :=
  if e.hasmultret then do
    let extra := numVars + 1 - numValues
    setreturns e (some extra)
    reserveMore extra
    return e
  else do
    let e ← exp2nextregUnlessVoid e
    fillNil (numVars - numValues)
    return e

def fieldsPerFlush : Nat := 50

def numValuesToFlushBatchNum (numValues : Nat) : Nat := (numValues - 1) / fieldsPerFlush + 1

def emitSetlist (base batch toStore : Nat) : FuncM Nat :=
  if batch ≤ 511 then emitABC .setlist base toStore batch
  else do
    let _ ← emitABC .setlist base toStore 0
    emitWord (.batch batch)

def setlist (base numValues : Nat) (toStore : Option Nat) : FuncM Unit := do
  let _ ← emitSetlist base (numValuesToFlushBatchNum numValues) (toStore.getD 0)
  modify fun fs => { fs with freeRegister := base + 1 }

end Func

end Zua.Compile
