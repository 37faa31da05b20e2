import Millie.Compiler.Context

/-!
# The compiler

Translation of the expression cases of `compiler.c`.  The recursive calls of a
case are passed to it as compilation steps, so that `compileExpression` recurses
on the expression.
-/

namespace Millie.Compiler

open Millie.Symbols Millie.Syntax Millie.Machine

/-! ## Literals and identifiers -/

/-- `_WriteLoadLiteral`. -/
def writeLoadLiteral (value : UInt64) : CompileM UInt8 := do
  let reg ← getFreeIntRegister
  if value ≤ 0xFF then do
    writeOpcode .loadi8
    writeCodeU8 value.toUInt8
  else if value ≤ 0xFFFF then do
    writeOpcode .loadi16
    writeCodeU16 value.toUInt16
  else if value ≤ 0xFFFFFFFF then do
    writeOpcode .loadi32
    writeCodeU32 value.toUInt32
  else do
    writeOpcode .loadi64
    writeCodeU64 value
  writeCodeU8 reg
  return reg

/--
The first loop of `_CompileIdentifierImpl`, counting down from `i`.  It starts
at the top index itself, one past the last binding that is pushed.
-/
def findBinding (bindings : Buffer CompileBinding) (id : Symbol) :
    Nat → Except Stop (Option UInt8)
  | 0 => do
      let binding ← bindings.read 0
      return if binding.symbol = id then some binding.reg else none
  | i + 1 => do
      let binding ← bindings.read (i + 1)
      if binding.symbol = id then
        return some binding.reg
      else
        findBinding bindings id i

/-- The closure slot of a symbol, added to the closure if it is new. -/
def closureOffset (id : Symbol) : CompileM Nat :=
  onContext fun context =>
    let symbols := context.closureSymbols.front context.closureTop
    if id ∈ symbols then
      .ok (symbols.idxOf id, context)
    else do
      let context :=
        if context.closureCapacity = context.closureTop then
          { context with
            closureSymbols := context.closureSymbols.realloc
              (context.closureCapacity * 2) fun _ => 0
            closureCapacity := context.closureCapacity * 2 }
        else context
      let closureSymbols ←
        context.closureSymbols.write context.closureTop id
      return (context.closureTop, { context with
        closureSymbols := closureSymbols
        closureTop := context.closureTop + 1 })

/-- The search for a local, and its record. -/
def searchBindings (id : Symbol) : CompileM (Option UInt8) := fun state => do
  let bound ← findBinding state.context.bindings id state.context.bindingTop
  return (bound, { state with searched := state.searched ++ [(id, bound)] })

/-- `_CompileIdentifierImpl`. -/
def compileIdentifierImpl (id : Symbol) : CompileM UInt8 := do
  let bound ← searchBindings id
  match bound with
  | some reg => return reg
  | none => do
      let offset ← closureOffset id
      let loadTarget ← getFreeIntRegister
      writeOpcode .loada64
      writeCodeU8 0
      writeCodeU16 (UInt16.ofNat offset + 1)
      writeCodeU8 loadTarget
      return loadTarget

/-! ## Functions -/

/-- The loop of `_CompileLambdaImpl` that loads the closed values. -/
def storeClosedValues (closureRegister : UInt8) :
    Nat → List Symbol → CompileM Unit
  | _, [] => return ()
  | i, symbol :: symbols => do
      let idReg ← compileIdentifierImpl symbol
      writeOpcode .storea64
      writeCodeU8 closureRegister
      writeCodeU16 (UInt16.ofNat (i + 1))
      writeCodeU8 idReg
      storeClosedValues closureRegister (i + 1) symbols

/-- The closed symbols that an entry's `closure_length` and union describe. -/
def CompiledExpression.closedSymbols (entry : CompiledExpression) :
    List Symbol :=
  match entry.closure with
  | .closure symbols => symbols.take entry.closureLength
  | .staticClosure _ => []

/--
The part of `_CompileLambdaImpl` that binds the function's own name and its
parameter around the body.
-/
def compileFrame (lambdaId : Symbol) (lambdaBody : CompileM UInt8)
    (selfId : Symbol) : CompileM UInt8 := do
  let selfRegister ← getFreeIntRegister
  if selfId ≠ invalidSymbol then
    pushBinding selfId selfRegister
  let argRegister ← getFreeIntRegister
  pushBinding lambdaId argRegister
  let retRegister ← lambdaBody
  popBinding
  if selfId ≠ invalidSymbol then
    popBinding
  return retRegister

/-- The block of `_CompileLambdaImpl` that compiles the function itself. -/
def compileFunction (input : CompileInput) (lambdaId : Symbol)
    (lambdaBody : CompileM UInt8) (selfId : Symbol) :
    CompileM (Nat × EntryPointer) := do
  let (result, funcId) ← fun state =>
    let (result, funcId, module) := addFunction state.module
    .ok ((result, funcId), { state with module := module })
  let parent ← onContext fun context =>
    .ok (context, initCompileContext (input.uninit funcId))
  let retRegister ← compileFrame lambdaId lambdaBody selfId
  finishCompile retRegister funcId result
  onContext fun _ => .ok ((), parent)
  return (funcId, result)

/-- `_CompileLambdaImpl`. -/
def compileLambdaImpl (input : CompileInput) (lambdaId : Symbol)
    (lambdaBody : CompileM UInt8) (selfId : Symbol)
    (closureRegister : UInt8) : CompileM UInt8 := do
  let (funcId, result) ← compileFunction input lambdaId lambdaBody selfId
  let idReg ← writeLoadLiteral (UInt64.ofNat funcId)
  writeOpcode .newClosure
  writeCodeU8 idReg
  writeCodeU8 closureRegister
  let entry ← fun state => do
    let entry ← state.module.load result
    return (entry, state)
  storeClosedValues closureRegister 0 entry.closedSymbols
  return closureRegister

/-- `_CompileLambda`. -/
def compileLambda (input : CompileInput) (lambdaId : Symbol)
    (lambdaBody : CompileM UInt8) : CompileM UInt8 := do
  let closureRegister ← getFreeIntRegister
  compileLambdaImpl input lambdaId lambdaBody invalidSymbol closureRegister

/-! ## Binders -/

/-- `_CompileLet`. -/
def compileLet (letId : Symbol) (letValue letBody : CompileM UInt8) :
    CompileM UInt8 := do
  let destReg ← letValue
  pushBinding letId destReg
  let result ← letBody
  popBinding
  return result

/--
`_CompileLetRec`.  `letValue` is the parameter and the body of the value when
the value is a lambda.
-/
def compileLetRec (input : CompileInput) (letId : Symbol)
    (valueRange : TokenRange) (letValue : Option (Symbol × CompileM UInt8))
    (letBody : CompileM UInt8) : CompileM UInt8 := do
  let destReg ← getFreeIntRegister
  match letValue with
  | none => do
      reportCompileError input valueRange
        "the expression in a let rec must be a function definition"
      return destReg
  | some (lambdaId, lambdaBody) => do
      pushBinding letId destReg
      let _ ← compileLambdaImpl input lambdaId lambdaBody letId destReg
      let bodyReg ← letBody
      popBinding
      return bodyReg

/-! ## Operators -/

/-- `_CompileApply`. -/
def compileApply (applyFunction applyArgument : CompileM UInt8) :
    CompileM UInt8 := do
  let lambdaRegister ← applyFunction
  let argRegister ← applyArgument
  let retRegister ← getFreeIntRegister
  writeOpcode .call
  writeCodeU8 lambdaRegister
  writeCodeU8 argRegister
  writeCodeU8 retRegister
  return retRegister

/-- Write an operator's opcode, or report that it has none. -/
def writeOperator (input : CompileInput) (range : TokenRange)
    (error : String) : Option Opcode → CompileM Unit
  | some opcode => writeOpcode opcode
  | none => reportCompileError input range error

/-- The switch of `_CompileBinary`. -/
def binaryOpcode : TokenType → Option Opcode
  | .tokPlus => some .add
  | .tokMinus => some .sub
  | .tokEquals => some .eq
  | .tokStar => some .mul
  | _ => none

/-- `_CompileBinary`. -/
def compileBinary (input : CompileInput) (range : TokenRange)
    (operator : TokenType) (binaryLeft binaryRight : CompileM UInt8) :
    CompileM UInt8 := do
  let leftRegister ← binaryLeft
  let rightRegister ← binaryRight
  let outRegister ← getFreeIntRegister
  writeOperator input range "Unsupported binary operator"
    (binaryOpcode operator)
  writeCodeU8 leftRegister
  writeCodeU8 rightRegister
  writeCodeU8 outRegister
  return outRegister

/-- The switch of `_CompileUnary`. -/
def unaryOpcode : TokenType → Option Opcode
  | .tokMinus => some .neg
  | _ => none

/-- `_CompileUnary`. -/
def compileUnary (input : CompileInput) (range : TokenRange)
    (operator : TokenType) (unaryArg : CompileM UInt8) : CompileM UInt8 := do
  let argRegister ← unaryArg
  let outRegister ← getFreeIntRegister
  writeOperator input range "Unsupported unary operator"
    (unaryOpcode operator)
  writeCodeU8 argRegister
  writeCodeU8 outRegister
  return outRegister

/-- Patch the two-byte hole at `target` with the distance to `location`. -/
def patchOffset (target location : Nat) : CompileM Unit := do
  seekCode target
  writeCodeU16 (UInt16.ofNat (location - target - 2))
  seekCode location

/-- The `OP_MOV` of `_CompileIf`, written when the arms' registers differ. -/
def writeMoveResult (falseReg trueReg : UInt8) : CompileM Unit := do
  if falseReg ≠ trueReg then
    writeOpcode .mov
    writeCodeU8 falseReg
    writeCodeU8 trueReg

/-- `_CompileIf`. -/
def compileIf (ifTest ifThen ifElse : CompileM UInt8) : CompileM UInt8 := do
  let resultReg ← ifTest
  writeOpcode .jz
  writeCodeU8 resultReg
  let falseTargetLoc ← codeOffset
  reserveOffset
  let trueReg ← ifThen
  writeOpcode .jmp
  let endTargetLoc ← codeOffset
  reserveOffset
  let falseLoc ← codeOffset
  patchOffset falseTargetLoc falseLoc
  let falseReg ← ifElse
  writeMoveResult falseReg trueReg
  let endLoc ← codeOffset
  patchOffset endTargetLoc endLoc
  return trueReg

/-- `_CompileTrue`. -/
def compileTrue : CompileM UInt8 :=
  writeLoadLiteral 1

/-- `_CompileFalse`. -/
def compileFalse : CompileM UInt8 :=
  writeLoadLiteral 0

/--
The loop of `_CompileTuple`, `count` rounds from slot `i` on.  Every round
compiles `expression->tuple_first`, the first component of the whole tuple; the
cursor that the loop moves down the spine is never compiled from.
-/
def compileTupleMembers (tupleFirst : CompileM UInt8) (outReg : UInt8) :
    Nat → Nat → CompileM Unit
  | _, 0 => return ()
  | i, count + 1 => do
      let memberReg ← tupleFirst
      writeOpcode .storea64
      writeCodeU8 outReg
      writeCodeU16 (UInt16.ofNat i)
      writeCodeU8 memberReg
      compileTupleMembers tupleFirst outReg (i + 1) count

/-- `_CompileTuple`. -/
def compileTuple (tupleLength : Nat) (tupleFirst : CompileM UInt8) :
    CompileM UInt8 := do
  let lenReg ← writeLoadLiteral (UInt64.ofNat tupleLength)
  let outReg ← getFreeIntRegister
  writeOpcode .newTuple
  writeCodeU8 lenReg
  writeCodeU8 outReg
  compileTupleMembers tupleFirst outReg 0 tupleLength
  return outReg

/-! ## The whole expression -/

/-- `_CompileExpression`. -/
def compileExpression (input : CompileInput) : Expression → CompileM UInt8
  | .integerConstant _ literalValue => writeLoadLiteral literalValue
  | .let_ _ id value body =>
      compileLet id (compileExpression input value)
        (compileExpression input body)
  | .letrec _ id value body =>
      compileLetRec input id value.range
        (match value with
          | .lambda _ lambdaId lambdaBody =>
              some (lambdaId, compileExpression input lambdaBody)
          | _ => none)
        (compileExpression input body)
  | .identifier _ id => compileIdentifierImpl id
  | .lambda _ id body => compileLambda input id (compileExpression input body)
  | .apply _ function argument =>
      compileApply (compileExpression input function)
        (compileExpression input argument)
  | .binary range operator left right =>
      compileBinary input range operator (compileExpression input left)
        (compileExpression input right)
  | .unary range operator arg =>
      compileUnary input range operator (compileExpression input arg)
  | .if_ _ test thenArm elseArm =>
      compileIf (compileExpression input test)
        (compileExpression input thenArm) (compileExpression input elseArm)
  | .true_ _ => compileTrue
  | .false_ _ => compileFalse
  | .tuple _ first _ length =>
      compileTuple length (compileExpression input first)
  | .error _ => return 0
  | .tupleFinal range _ | .invalid range => do
      reportCompileError input range
        "Unsupported expression during compilation"
      return 0

/-- `CompileExpression`: the function id of the entry function. -/
def compileEntry (input : CompileInput) (expression : Expression) :
    CompileM Nat := do
  let (result, funcId) ← fun state =>
    let (result, funcId, module) := addFunction state.module
    .ok ((result, funcId), { state with module := module })
  onContext fun _ => .ok ((), initCompileContext (input.uninit funcId))
  let resultRegister ← compileExpression input expression
  finishCompile resultRegister funcId result
  return funcId

/-- `CompileExpression` on a freshly initialised module. -/
def compileModule (input : CompileInput) (expression : Expression) :
    Except Stop (Nat × CompileState) :=
  compileEntry input expression
    { context := initCompileContext (input.uninit 0)
      module := moduleInit
      errors := []
      finished := []
      searched := [] }

/-- Input for expressions without errors, its binding memory zeroed. -/
def zeroedInput : CompileInput where
  tokens := fun _ => ⟨.tokEof, 0, 0⟩
  uninit := fun _ _ => ⟨0, 0⟩

end Millie.Compiler
