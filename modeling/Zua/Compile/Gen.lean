import Zua.Compile.Func

/-!
# Generating code for a tree

The `gen` functions of `compiler.zig`. A description is passed on from one node to the next in `curExp` of
the function that is being compiled.
-/

namespace Zua.Compile
open Code Syntax
open Memory (Constant)
open Zua.Lex (Token ch)

-- the text of the program and the operations on numbers
structure Env extends F64.Arithmetic where
  source : List UInt8
  parseFloat : List UInt8 → Option F64

-- the list of the breaks of the innermost loop, over all functions, belongs to the compiler; the names
-- that were resolved, each with the number of its declaration, are only kept to speak about them
structure Compiler where
  func : Func := {}
  breakList : Option (List Nat) := none
  bindings : List (Token × Option Nat) := []

abbrev CompileM := StateT Compiler (Except Stop)

def onFunc {α : Type} (x : FuncM α) : CompileM α := fun c => do
  let (a, func) ← x c.func
  return (a, { c with func })

theorem sat_onFunc {α : Type} {ok : Stop → Prop} {x : FuncM α} {c : Compiler} {Q : α → Compiler → Prop}
    (h : Sat ok x c.func fun a func => Q a { c with func }) : Sat ok (onFunc x) c Q := by
  unfold Sat at h ⊢
  simp only [onFunc]
  cases run : x c.func with
  | error e =>
      rw [run] at h
      exact h
  | ok pair =>
      rw [run] at h
      exact h

def getFunc : CompileM Func := onFunc get

def setExp (e : ExpDesc) : CompileM Unit := onFunc (modify fun fs => { fs with curExp := e })

-- an operation on the current expression
def onExp (f : ExpDesc → FuncM ExpDesc) : CompileM Unit := do
  let fs ← getFunc
  let e ← onFunc (f fs.curExp)
  setExp e

def onExpReg (f : ExpDesc → FuncM (Nat × ExpDesc)) : CompileM Nat := do
  let fs ← getFunc
  let (r, e) ← onFunc (f fs.curExp)
  setExp e
  return r

def nextReg : CompileM Nat := onExpReg Func.exp2nextreg

/-! ## The parts of the generators that read no further nodes -/

section
variable (env : Env)

def genName (token : Token) : CompileM Nat := onFunc (Func.putConstant (.string (token.slice env.source)))

def genLiteral (token : Token) : CompileM Unit :=
  match token.id with
  | .string =>
      match Lex.parseString (token.slice env.source) (token.slice env.source).length with
      | .ok parsed => do
          let k ← onFunc (Func.putConstant (.string parsed))
          setExp (.constantIndex k)
      | .error _ => throw .literal
  | .number =>
      match Lex.parseNumber env.parseFloat (token.slice env.source) with
      | .ok n => setExp (.number n)
      | .error _ => throw .literal
  | .keywordTrue => setExp .true
  | .keywordFalse => setExp .false
  | .keywordNil => setExp .nil
  | .ellipsis => do
      let index ← onFunc (Func.emitABC .vararg 0 1 0)
      setExp (.vararg index)
  | .name => do
      let k ← genName env token
      setExp (.constantIndex k)
  | _ => throw .unreachable

def recordBinding (token : Token) (found : Option Nat) : CompileM Unit :=
  modify fun c => { c with
    bindings := c.bindings ++ [(token, found.bind (c.func.activeLocalVars[·]?))] }

def genIdentifier (token : Token) : CompileM Unit := do
  let found ← onFunc (Func.findLocalVarByToken env.source token)
  recordBinding token found
  match found with
  | some index => setExp (.localRegister index)
  | none => do
      let k ← genName env token
      setExp (.global k)

-- the access to a field of the current expression, as a method when the separator is a colon
def genField (field separator : Token) : CompileM Unit :=
  if separator.isChar (ch ':') then do
    let k ← genName env field
    onExp fun e => Func.handleSelf e (.constantIndex k)
  else do
    let _ ← onExpReg Func.exp2anyreg
    let k ← genName env field
    onExp fun e => Func.indexed e (.constantIndex k)

-- the call of what is in `base` with the arguments above it
def genCallInstruction (base : Nat) (isStatement : Bool) : CompileM Unit := do
  let fs ← getFunc
  if fs.freeRegister < base + 1 then throw .overflow
  else
    let index ← onFunc (Func.emitABC .call base (fs.freeRegister - (base + 1) + 1) (if isStatement then 1 else 2))
    setExp (.call index)
    onFunc (modify fun fs => { fs with freeRegister := base + 1 })

def calledRegister : CompileM Nat := do
  let fs ← getFunc
  match fs.curExp with
  | .nonreloc r => return r
  | _ => throw .assertion

def isMethod : Node → Bool
  | .fieldAccess _ _ separator => separator.isChar (ch ':')
  | _ => false

def declareLocals : List Token → Nat → CompileM Unit
  | [], _ => return ()
  | name :: names, index => do
      onFunc (Func.newLocalvar name index)
      declareLocals names (index + 1)

-- the targets of a local statement are taken to be identifiers
def localName : Node → Except Stop Token
  | .identifier token => .ok token
  | _ => .error .unreachable

-- the results above the locals, one for each variable, are stored from the last to the first
def storeFrom (targets : List ExpDesc) : Nat → CompileM Unit
  | 0 => return ()
  | n + 1 => do
      let fs ← getFunc
      if fs.freeRegister = 0 then throw .overflow
      else match targets[n]? with
        | none => throw .outOfBounds
        | some target => do
            let e ← onFunc (Func.storevar target (.nonreloc (fs.freeRegister - 1)))
            setExp e
            storeFrom targets n

def dropRegisters (n : Nat) : CompileM Unit := do
  let fs ← getFunc
  if fs.freeRegister < n then throw .overflow
  else onFunc (modify fun fs => { fs with freeRegister := fs.freeRegister - n })

-- what is left to do after the values of an assignment are generated
def genStores (targets : List ExpDesc) (numValues : Nat) : CompileM Unit := do
  let n := targets.length
  if n = 0 then throw .overflow
  else if numValues ≠ n then
    onExp (Func.adjustAssign n numValues)
    dropRegisters (numValues - n)
    storeFrom targets n
  else
    match targets.getLast? with
    | none => throw .overflow
    | some target => do
        onExp Func.setoneret
        onExp (Func.storevar target)
        -- with two variables the index of the first is already 0, and the loop is not entered
        storeFrom targets (if n = 2 then 0 else n - 1)

def genReturnValues (numValues : Nat) : CompileM Unit := do
  let fs ← getFunc
  if fs.curExp.hasmultret then
    onFunc (Func.setmultret fs.curExp)
    match fs.curExp with
    | .call index =>
        if numValues = 1 then do
          onFunc (Func.patch index fun i => { i with op := .tailcall })
          let i ← onFunc (Func.getcode index)
          if i.a = fs.numActiveLocalVars then
            let _ ← onFunc (Func.emitReturn fs.numActiveLocalVars none)
          else throw .assertion
        else
          let _ ← onFunc (Func.emitReturn fs.numActiveLocalVars none)
    | _ =>
        let _ ← onFunc (Func.emitReturn fs.numActiveLocalVars none)
  else if numValues = 1 then
    let r ← onExpReg Func.exp2anyreg
    let _ ← onFunc (Func.emitReturn r (some 1))
  else
    let _ ← nextReg
    let fs ← getFunc
    if fs.freeRegister = fs.numActiveLocalVars + numValues then
      let _ ← onFunc (Func.emitReturn fs.numActiveLocalVars (some numValues))
    else throw .assertion

-- the jump at `index` goes to the next instruction
def patchHere (index : Nat) : CompileM Unit := do
  let fs ← getFunc
  if fs.pc - index - 1 > Instruction.maxSbx then throw .jumpLimit
  else onFunc (Func.patch index fun i => .asbx i.op i.a (fs.pc - index - 1 : Nat))

def patchAll : List Nat → CompileM Unit
  | [] => return ()
  | index :: rest => do
      patchHere index
      patchAll rest

-- `TEST` of register 0 and the jump that skips a body
def genTest : CompileM Nat := do
  let _ ← nextReg
  let _ ← onFunc (Func.emitABC .test 0 0 0)
  onFunc (Func.emitAsBx .jmp 0 0)

-- the offset `start - pc() - 1` is computed as a `usize`
def jumpBack (start : Nat) : CompileM Unit := do
  let fs ← getFunc
  if start < fs.pc + 1 then throw .overflow
  else if start - fs.pc - 1 > Instruction.maxSbx then throw .jumpLimit
  else
    let _ ← onFunc (Func.emitAsBx .jmp 0 (start - fs.pc - 1 : Nat))

def enterLoop : CompileM (Option (List Nat)) := do
  let c ← get
  set { c with breakList := some [] }
  return c.breakList

-- the breaks of the loop that is left
def leaveLoop (outer : Option (List Nat)) : CompileM (List Nat) := do
  let c ← get
  set { c with breakList := outer }
  return c.breakList.getD []

def genBreak : CompileM Unit := do
  let c ← get
  match c.breakList with
  | none => throw .breakOutsideLoop
  | some breaks => do
      let index ← onFunc (Func.emitAsBx .jmp 0 0)
      modify fun c => { c with breakList := some (breaks ++ [index]) }

-- the register of a loop variable takes the place of its index among the local variables
def declareLoopVars (register : Nat) : List Token → Nat → CompileM Unit
  | [], _ => return ()
  | name :: names, index => do
      onFunc (Func.newLocalvar name index)
      onFunc (modify fun fs => { fs with
        activeLocalVars := fs.activeLocalVars.set fs.numActiveLocalVars (register + index)
        numActiveLocalVars := fs.numActiveLocalVars + 1 })
      declareLoopVars register names (index + 1)

def leaveFor (baseReg : Nat) (numVars : Nat) (breaks : List Nat) : CompileM Unit := do
  onFunc (modify fun fs => { fs with numActiveLocalVars := fs.numActiveLocalVars - numVars })
  patchAll breaks
  onFunc (modify fun fs => { fs with freeRegister := baseReg })

structure FieldState where
  numKeyedValues : Nat := 0
  numArrayValues : Nat := 0
  unflushed : Nat := 0
  arrayValueExp : ExpDesc := .void

def flushField (tableReg : Nat) (st : FieldState) : CompileM FieldState :=
  match st.arrayValueExp with
  | .void => return st
  | e => do
      let _ ← onFunc (Func.exp2nextreg e)
      if Func.fieldsPerFlush ≤ st.unflushed then
        onFunc (Func.setlist tableReg st.numArrayValues (some st.unflushed))
        return { st with arrayValueExp := .void, unflushed := 0 }
      else return { st with arrayValueExp := .void }

def flushLast (tableReg : Nat) (st : FieldState) : CompileM FieldState :=
  if st.unflushed = 0 then return st
  else if st.arrayValueExp.hasmultret then do
    onFunc (Func.setmultret st.arrayValueExp)
    onFunc (Func.setlist tableReg st.numArrayValues none)
    return { st with numArrayValues := st.numArrayValues - 1 }
  else do
    let _ ← onFunc (Func.exp2nextregUnlessVoid st.arrayValueExp)
    onFunc (Func.setlist tableReg st.numArrayValues (some st.unflushed))
    return st

-- the exponent is in the 5 high bits; `fuel` is more than the halvings of a 34-bit number
def intToFloatingPointByteFrom : Nat → Nat → Nat → Nat
  | 0, _, x => x
  | fuel + 1, e, x =>
      if 16 ≤ x then intToFloatingPointByteFrom fuel (e + 1) ((x + 1) / 2)
      else if x < 8 then x
      else (e + 1) * 8 + (x - 8)

def intToFloatingPointByte (x : Nat) : Nat := intToFloatingPointByteFrom 40 0 x % 256

def registerOf : ExpDesc → Except Stop Nat
  | .nonreloc r => .ok r
  | _ => .error .assertion

def storeField (tableReg freeReg keyRk : Nat) : CompileM Unit := do
  let valRk ← onExpReg Func.exp2RK
  let _ ← onFunc (Func.emitABC .settable tableReg keyRk valRk)
  onFunc (modify fun fs => { fs with freeRegister := freeReg })

def sizeTable (index : Nat) (st : FieldState) : CompileM Unit :=
  onFunc (Func.patch index fun i => { i with
    b := intToFloatingPointByte st.numArrayValues
    c := intToFloatingPointByte st.numKeyedValues })

-- the closure of a function that has been compiled; its code is not kept
def genClosure (name : Option Node) (isLocal : Bool) : CompileM Unit := do
  let fs ← getFunc
  match name with
  | none => do
      let _ ← onFunc (Func.emitABx .closure fs.freeRegister 0)
      setExp (.nonreloc fs.freeRegister)
      onFunc (Func.reserveregs 1)
  | some name =>
      if isLocal then do
        match name with
        | .identifier token => onFunc (Func.newLocalvar token 0)
        | _ => pure ()
        let _ ← onFunc (Func.emitABx .closure fs.freeRegister 0)
        onFunc (Func.reserveregs 1)
        onFunc (Func.adjustlocalvars 1)
      else do
        let _ ← onFunc (Func.emitABx .closure fs.freeRegister 0)
        onFunc (Func.reserveregs 1)
        match name with
        | .identifier token => do
            let k ← genName env token
            setExp (.nonreloc fs.freeRegister)
            let _ ← onFunc (Func.emitABx .setglobal fs.freeRegister k)
        | _ => return ()

end

/-! ## The generators -/

mutual

def genNode (env : Env) : Node → CompileM Unit
  | .chunk _ => throw .unreachable
  | .call expression arguments _ _ isStatement => do
      genNode env expression
      if isMethod expression then pure ()
      else
        let _ ← nextReg
      let base ← calledRegister
      genArguments env arguments
      genCallInstruction base isStatement
  | .assignmentStatement targets values true => do
      let names ← targets.mapM fun target => (localName target : CompileM Token)
      declareLocals names 0
      genExpList1 env values
      if values.isEmpty then setExp .void else pure ()
      onExp (Func.adjustAssign targets.length values.length)
      onFunc (Func.adjustlocalvars targets.length)
  | .assignmentStatement targets values false => do
      let exps ← genTargets env targets
      genExpList1 env values
      genStores exps values.length
  | .literal token => genLiteral env token
  | .identifier token => genIdentifier env token
  | .returnStatement values => do
      if values.isEmpty then
        let _ ← onFunc (Func.emitReturn 0 (some 0))
      else if 512 ≤ values.length then throw .registerLimit
      else
        genExpList1 env values
        genReturnValues values.length
  | .fieldAccess operand field separator => do
      genNode env operand
      genField env field separator
  | .indexAccess operand index _ _ => do
      genNode env operand
      let _ ← onExpReg Func.exp2anyreg
      let fs ← getFunc
      setExp .void
      genNode env index
      onExp Func.exp2val
      onExp fun key => Func.indexed fs.curExp key
  | .tableConstructor fields _ _ => do
      let index ← onFunc (Func.emitABC .newtable 0 0 0)
      setExp (.relocable index)
      let tableReg ← nextReg
      let st ← genFields env tableReg fields {}
      let st ← flushLast tableReg st
      if fields.isEmpty then pure () else sizeTable index st
  | .tableField _ _ => throw .unreachable
  | .binaryExpression op left right => do
      genNode env left
      onExp (Func.leftOperand op)
      let fs ← getFunc
      genNode env right
      onExp fun e => Func.binaryOperator env.toArithmetic op fs.curExp e
  | .groupedExpression _ expression _ => genNode env expression
  | .unaryExpression op argument => do
      genNode env argument
      onExp (Func.unaryOperator env.toArithmetic op)
  | .ifStatement clauses => do
      let escapes ← genClauses env clauses []
      patchAll escapes
  | .ifClause _ _ _ => throw .unreachable
  | .whileStatement condition body => do
      let fs ← getFunc
      genNode env condition
      let jump ← genTest
      let outer ← enterLoop
      genBody env body
      jumpBack fs.pc
      let breaks ← leaveLoop outer
      patchHere jump
      patchAll breaks
  | .doStatement body => genBody env body
  | .repeatStatement body condition => do
      let fs ← getFunc
      let outer ← enterLoop
      genBody env body
      genNode env condition
      let _ ← nextReg
      let _ ← onFunc (Func.emitABC .test 0 0 1)
      jumpBack fs.pc
      let breaks ← leaveLoop outer
      patchAll breaks
  | .breakStatement _ => genBreak
  | .forStatementNumeric name start stop increment body => do
      let fs ← getFunc
      onFunc (Func.reserveregs 4)
      genNode env start
      let _ ← nextReg
      genNode env stop
      let _ ← nextReg
      genIncrement env increment
      let _ ← nextReg
      let _ ← onFunc (Func.emitAsBx .forprep fs.freeRegister 0)
      let outer ← enterLoop
      declareLoopVars (fs.freeRegister + 3) [name] 0
      genBody env body
      let _ ← onFunc (Func.emitAsBx .forloop fs.freeRegister 0)
      let breaks ← leaveLoop outer
      leaveFor fs.freeRegister 1 breaks
  | .forStatementGeneric names expressions body => do
      let fs ← getFunc
      -- the three registers are already taken, so that missing expressions are not filled up
      onFunc (Func.reserveregs (3 + names.length))
      genArguments env expressions
      let start ← onFunc (Func.emitABC .tforloop fs.freeRegister names.length 0)
      let jump ← onFunc (Func.emitAsBx .jmp 0 0)
      let outer ← enterLoop
      declareLoopVars (fs.freeRegister + 3) names 0
      genBody env body
      jumpBack start
      patchHere jump
      let breaks ← leaveLoop outer
      leaveFor fs.freeRegister names.length breaks
  | .functionDeclaration name parameters body isLocal => do
      let c ← get
      set { c with func := {} }
      declareLocals parameters 0
      onFunc (Func.adjustlocalvars parameters.length)
      genBody env body
      let _ ← onFunc (Func.emitReturn 0 (some 0))
      modify fun child => { child with func := c.func }
      genClosure env name isLocal

def genBody (env : Env) : List Node → CompileM Unit
  | [] => return ()
  | node :: rest => do
      genNode env node
      genBody env rest

def genArguments (env : Env) : List Node → CompileM Unit
  | [] => return ()
  | node :: rest => do
      genNode env node
      let _ ← nextReg
      genArguments env rest

def genExpList1 (env : Env) : List Node → CompileM Unit
  | [] => return ()
  | node :: rest => do
      genNode env node
      if rest.isEmpty then return ()
      else
        let _ ← nextReg
        genExpList1 env rest

def genTargets (env : Env) : List Node → CompileM (List ExpDesc)
  | [] => return []
  | node :: rest => do
      genNode env node
      let fs ← getFunc
      let exps ← genTargets env rest
      return fs.curExp :: exps

def genIncrement (env : Env) : Option Node → CompileM Unit
  | some increment => genNode env increment
  | none => setExp (.number F64.one)

def genTableField (env : Env) : Node → CompileM Bool
  | .tableField none value => do
      genNode env value
      return true
  | .tableField (some key) value => do
      let fs ← getFunc
      let tableReg ← registerOf fs.curExp
      genNode env key
      let keyRk ← onExpReg Func.exp2RK
      genNode env value
      storeField tableReg fs.freeRegister keyRk
      return false
  | _ => throw .unreachable

def genFields (env : Env) (tableReg : Nat) : List Node → FieldState → CompileM FieldState
  | [], st => return st
  | field :: rest, st => do
      let previous ← getFunc
      let st ← flushField tableReg st
      let positional ← genTableField env field
      let fs ← getFunc
      setExp previous.curExp
      genFields env tableReg rest (
        if positional then { st with
          numArrayValues := st.numArrayValues + 1
          unflushed := st.unflushed + 1
          arrayValueExp := fs.curExp }
        else { st with numKeyedValues := st.numKeyedValues + 1 })

def genClause (env : Env) (last : Bool) : Node → CompileM (List Nat)
  | .ifClause _ (some condition) body => do
      genNode env condition
      let jump ← genTest
      genBody env body
      let escapes ← if last then pure [] else do
        let escape ← onFunc (Func.emitAsBx .jmp 0 0)
        pure [escape]
      patchHere jump
      return escapes
  | .ifClause _ none body => do
      genBody env body
      return []
  | _ => throw .unreachable

def genClauses (env : Env) : List Node → List Nat → CompileM (List Nat)
  | [], escapes => return escapes
  | clause :: rest, escapes => do
      let escape ← genClause env rest.isEmpty clause
      genClauses env rest (escapes ++ escape)

end

-- every statement starts again with the registers of the locals taken
def genStatements (env : Env) : List Node → CompileM Unit
  | [] => return ()
  | node :: rest => do
      genNode env node
      let fs ← getFunc
      if fs.freeRegister ≤ fs.maxStackSize.val ∧ fs.numActiveLocalVars ≤ fs.freeRegister then
        onFunc (modify fun fs => { fs with freeRegister := fs.numActiveLocalVars })
        genStatements env rest
      else throw .assertion

def genChunk (env : Env) : Node → CompileM Unit
  | .chunk body => do
      genStatements env body
      onFunc Func.removevars
      let _ ← onFunc (Func.emitReturn 0 (some 0))
  | _ => throw .unreachable

-- what `compile` makes of the tree that the parser returns
def compileTree (env : Env) (breakList : Option (List Nat)) (tree : Node) : Except Stop Function := do
  let (_, c) ← genChunk env tree { breakList }
  return {
    code := c.func.code.map Word.encode
    constants := c.func.constants
    protos := []
    varargs := c.func.varargs
    maxStackSize := UInt8.ofNat c.func.maxStackSize.val }

end Zua.Compile
