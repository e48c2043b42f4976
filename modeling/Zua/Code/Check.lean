import Zua.Code.Dump

/-!
# The verifier

`checkcode` of `debug.zig`, a symbolic execution that reads the code once from its first word to its last.
-/

namespace Zua.Code
open Memory (Constant)

inductive OpMode
  | iABC | iABx | iAsBx
  deriving DecidableEq, Repr

inductive OpArgMask
  | notUsed | used | registerOrJumpOffset | constantOrRegisterConstant
  deriving DecidableEq, Repr

structure OpMeta where
  bMode : OpArgMask
  cMode : OpArgMask
  setsRegisterInA : Bool
  testTMode : Bool

namespace OpCode

def getOpMode : OpCode → OpMode
  | loadk | getglobal | setglobal | closure => .iABx
  | jmp | forloop | forprep => .iAsBx
  | _ => .iABC

def opMeta : OpCode → OpMeta
  | move | loadnil | unm | not | len => ⟨.registerOrJumpOffset, .notUsed, true, false⟩
  | loadk | getglobal | closure => ⟨.constantOrRegisterConstant, .notUsed, true, false⟩
  | loadbool | newtable | call | tailcall => ⟨.used, .used, true, false⟩
  | setupval | .return => ⟨.used, .notUsed, false, false⟩
  | getupval | vararg => ⟨.used, .notUsed, true, false⟩
  | gettable | self => ⟨.registerOrJumpOffset, .constantOrRegisterConstant, true, false⟩
  | setglobal => ⟨.constantOrRegisterConstant, .notUsed, false, false⟩
  | settable => ⟨.constantOrRegisterConstant, .constantOrRegisterConstant, false, false⟩
  | add | sub | mul | div | mod | pow =>
      ⟨.constantOrRegisterConstant, .constantOrRegisterConstant, true, false⟩
  | concat => ⟨.registerOrJumpOffset, .registerOrJumpOffset, true, false⟩
  | jmp => ⟨.registerOrJumpOffset, .notUsed, false, false⟩
  | eq | lt | le => ⟨.constantOrRegisterConstant, .constantOrRegisterConstant, false, true⟩
  | test => ⟨.notUsed, .used, false, true⟩
  | testset => ⟨.registerOrJumpOffset, .used, true, true⟩
  | tforloop => ⟨.notUsed, .used, false, false⟩
  | forloop | forprep => ⟨.notUsed, .notUsed, true, false⟩
  | setlist => ⟨.used, .used, false, false⟩

def getBMode (op : OpCode) : OpArgMask := op.opMeta.bMode
def getCMode (op : OpCode) : OpArgMask := op.opMeta.cMode

end OpCode

-- `trap` is an arithmetic overflow, an index out of bounds or a panic
inductive CheckError
  | maxStackSizeTooBig | stackTooSmallForParams | hasUnneededArg | maxStackSizeTooSmall
  | nonZeroUnusedArg | constantIndexOutOfRange | invalidInstructionAfterOpenCall
  | impossibleTestInstructionPlacement | impossibleLoadBoolInstructionPlacement
  | impossibleInstructionAfterLoadBool | expectedStringForGetOrSetGlobal
  | concatRequiresAtLeastTwoOperands | expectedSetListBatchNumberInstruction
  | trap
  deriving DecidableEq, Repr

-- `zua.parse.max_stack_size`
def maxStackSize : Nat := 250

def ensure (condition : Prop) [Decidable condition] (e : CheckError) : Except CheckError Unit :=
  if condition then .ok () else .error e

namespace Function

variable (f : Function)

def maxStack : Nat := f.maxStackSize.toNat

def precheck : Except CheckError Unit := do
  ensure (f.maxStack ≤ Code.maxStackSize) .maxStackSizeTooBig
  ensure (f.numParams.toNat ≤ f.maxStack) .stackTooSmallForParams
  ensure (f.varargs.needsArg ∨ ¬ f.varargs.hasArg) .hasUnneededArg

def checkreg (reg : Nat) : Except CheckError Unit := ensure (reg < f.maxStack) .maxStackSizeTooSmall

def checkArgMode (val : Nat) : OpArgMask → Except CheckError Unit
  | .notUsed => ensure (val = 0) .nonZeroUnusedArg
  | .used => .ok ()
  | .registerOrJumpOffset => f.checkreg val
  | .constantOrRegisterConstant =>
      if rkIsConstant val then ensure (rkGetConstantIndex val < f.constants.length) .constantIndexOutOfRange
      else f.checkreg val

def checkopenop (i : Instruction) : Except CheckError Unit :=
  match i.op with
  | .call | .return | .setlist => ensure (i.b = 0) .invalidInstructionAfterOpenCall
  | _ => .error .invalidInstructionAfterOpenCall

-- the instruction at `pc`; a word that is none has no opcode to switch on
def instruction (pc : Nat) : Except CheckError Instruction :=
  match f.code[pc]?.bind Instruction.ofWord with
  | some i => .ok i
  | none => .error .trap

def checkopenopNext (pc : Nat) : Except CheckError Unit := do
  let i ← f.instruction (pc + 1)
  checkopenop i

-- sums of an 8-bit and a 9-bit number are taken in 9 bits
def sum9 (x y : Nat) : Except CheckError Nat := if x + y < 512 then .ok (x + y) else .error .trap

def checkOperands (i : Instruction) : Except CheckError Unit :=
  match i.op.getOpMode with
  | .iABC => do
      f.checkArgMode i.b i.op.getBMode
      f.checkArgMode i.c i.op.getCMode
  | .iABx =>
      if i.op.getBMode = .constantOrRegisterConstant then
        ensure (i.bx < f.constants.length) .constantIndexOutOfRange
      else .ok ()
  | .iAsBx => ensure (i.op.getBMode ≠ .registerOrJumpOffset) .trap

def checkTest (pc : Nat) (i : Instruction) : Except CheckError Unit :=
  if i.op.opMeta.testTMode then ensure (pc + 2 < f.code.length) .impossibleTestInstructionPlacement
  else .ok ()

def isString : Constant → Bool
  | .string _ => true
  | _ => false

def checkArguments (i : Instruction) : Except CheckError Unit :=
  if i.b ≠ 0 then do
    let last ← sum9 i.a (i.b - 1)
    f.checkreg last
  else .ok ()

def checkResults (pc : Nat) (i : Instruction) : Except CheckError Unit :=
  if i.c = 0 then f.checkopenopNext pc
  else if i.c - 1 ≠ 0 then do
    let past ← sum9 i.a (i.c - 1)
    f.checkreg (past - 1)
  else .ok ()

def checkReturn (i : Instruction) : Except CheckError Unit :=
  if 1 < i.b then do
    let past ← sum9 i.a (i.b - 1)
    f.checkreg (past - 1)
  else .ok ()

def checkValues (i : Instruction) : Except CheckError Unit :=
  if 0 < i.b then f.checkreg (i.a + i.b) else .ok ()

def checkVararg (pc : Nat) (i : Instruction) : Except CheckError Unit :=
  if i.b = 0 then f.checkopenopNext pc
  else do
    let past ← sum9 i.a (i.b - 1)
    ensure (past ≠ 0) .trap
    f.checkreg (past - 1)

def checkOp (pc : Nat) (i : Instruction) : Except CheckError Unit :=
  match i.op with
  | .loadbool =>
      if i.c ≠ 0 then do
        ensure (pc + 2 < f.code.length) .impossibleLoadBoolInstructionPlacement
        let next ← f.instruction (pc + 1)
        ensure (next.op ≠ .setlist ∨ next.c ≠ 0) .impossibleInstructionAfterLoadBool
      else .ok ()
  | .getglobal | .setglobal =>
      match f.constants[i.bx]? with
      | some constant => ensure (isString constant) .expectedStringForGetOrSetGlobal
      | none => .error .trap
  | .self => f.checkreg (i.a + 1)
  | .concat => do
      ensure (i.b ≤ i.c ∧ i.c - i.b + 1 < 512) .trap
      ensure (2 ≤ i.c - i.b + 1) .concatRequiresAtLeastTwoOperands
  | .call | .tailcall => do
      f.checkArguments i
      f.checkResults pc i
  | .return => f.checkReturn i
  | .setlist => do
      f.checkValues i
      ensure (i.c ≠ 0 ∨ pc + 1 < f.code.length) .expectedSetListBatchNumberInstruction
  | .vararg => f.checkVararg pc i
  | _ => .ok ()

def check (pc : Nat) (i : Instruction) : Except CheckError Unit := do
  f.checkreg i.a
  f.checkOperands i
  f.checkTest pc i
  f.checkOp pc i

-- the word after it is not an instruction but a batch number
def takesBatch (i : Instruction) : Bool := i.op = .setlist ∧ i.c = 0

-- the words from `pc` on, of which the first `skip` are passed over
def symbexecFrom (pc skip : Nat) : List UInt32 → Except CheckError Unit
  | [] => .ok ()
  | word :: words =>
      if 0 < skip then symbexecFrom (pc + 1) (skip - 1) words
      else
        match Instruction.ofWord word with
        | none => .error .trap
        | some i => do
            f.check pc i
            symbexecFrom (pc + 1) (if takesBatch i then 1 else 0) words

def checkcode : Except CheckError Unit := do
  f.precheck
  ensure (f.code.length ≠ 0) .trap
  f.symbexecFrom 0 0 f.code

end Function

end Zua.Code
