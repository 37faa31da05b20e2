import Millie.Compiler.Compile
import Millie.Machine.Evaluate

/-!
# Structured code generation

`emit` generates the code of an expression as a tree of instructions and
branches instead of bytes in a buffer, and threads only what code generation
depends on: the register count, the binding memory, the closure list and the
module.  It is total; the next module proves that whenever the compiler
succeeds it has appended the bytes of exactly this code.
-/

namespace Millie.Compiler

open Millie.Symbols Millie.Syntax Millie.Machine

/-! ## Code -/

/-- The bytes of an instruction. -/
def instructionBytes : Instruction → List UInt8
  | .ret => [Opcode.ret.byte]
  | .loadi8 val reg => [Opcode.loadi8.byte, val, reg]
  | .loadi16 val reg => Opcode.loadi16.byte :: (bytesU16 val ++ [reg])
  | .loadi32 val reg => Opcode.loadi32.byte :: (bytesU32 val ++ [reg])
  | .loadi64 val reg => Opcode.loadi64.byte :: (bytesU64 val ++ [reg])
  | .loada64 srcReg offset dstReg =>
      Opcode.loada64.byte :: srcReg :: (bytesU16 offset ++ [dstReg])
  | .storea64 srcReg offset valReg =>
      Opcode.storea64.byte :: srcReg :: (bytesU16 offset ++ [valReg])
  | .newClosure funcidReg dstReg =>
      [Opcode.newClosure.byte, funcidReg, dstReg]
  | .newTuple lenReg dstReg => [Opcode.newTuple.byte, lenReg, dstReg]
  | .call funcReg argReg retReg =>
      [Opcode.call.byte, funcReg, argReg, retReg]
  | .add leftReg rightReg retReg =>
      [Opcode.add.byte, leftReg, rightReg, retReg]
  | .sub leftReg rightReg retReg =>
      [Opcode.sub.byte, leftReg, rightReg, retReg]
  | .mul leftReg rightReg retReg =>
      [Opcode.mul.byte, leftReg, rightReg, retReg]
  | .neg argReg retReg => [Opcode.neg.byte, argReg, retReg]
  | .eq leftReg rightReg retReg =>
      [Opcode.eq.byte, leftReg, rightReg, retReg]
  | .jmp offset => Opcode.jmp.byte :: bytesU16 offset
  | .jz testReg offset => Opcode.jz.byte :: testReg :: bytesU16 offset
  | .mov srcReg dstReg => [Opcode.mov.byte, srcReg, dstReg]
  | .unknown op => [op]

/--
The code of an expression.  `operands` stands for operand bytes that were
written without an opcode, which happens only next to a reported error.
-/
inductive Code where
  | empty
  | instruction (instruction : Instruction)
  | operands (bytes : List UInt8)
  | seq (first second : Code)
  | branch (testReg : UInt8) (thenCode elseCode : Code)

namespace Code

/-- The bytes of code; a branch is a `JZ` over the first arm and its `JMP`. -/
def bytes : Code → List UInt8
  | empty => []
  | instruction i => instructionBytes i
  | operands bytes => bytes
  | seq first second => first.bytes ++ second.bytes
  | branch testReg thenCode elseCode =>
      instructionBytes
          (.jz testReg (UInt16.ofNat (thenCode.bytes.length + 3))) ++
        thenCode.bytes ++
        instructionBytes (.jmp (UInt16.ofNat elseCode.bytes.length)) ++
        elseCode.bytes

theorem length_seq (first second : Code) :
    (seq first second).bytes.length =
      first.bytes.length + second.bytes.length :=
  List.length_append

theorem length_branch (testReg : UInt8) (thenCode elseCode : Code) :
    (branch testReg thenCode elseCode).bytes.length =
      4 + thenCode.bytes.length + 3 + elseCode.bytes.length := by
  simp only [bytes, List.length_append]
  rfl

end Code

/-! ## What code generation depends on -/

/-- The state of code generation, without the code buffer. -/
structure View where
  registers : Nat
  bindings : Nat → CompileBinding
  top : Nat
  closure : List Symbol
  module : Module
  errors : List ErrorReport
  finished : List (Nat × CompiledExpression)
  searched : List (Symbol × Option UInt8)

/-- Generated code, the register of its result and the new state. -/
structure Emission where
  code : Code
  reg : UInt8
  view : View

namespace View

/-- The register that the next allocation returns. -/
def nextReg (view : View) : UInt8 :=
  UInt8.ofNat view.registers

/-- Take a register. -/
def take (view : View) : View :=
  { view with registers := view.registers + 1 }

/-- Push a binding over whatever the entry above the top holds. -/
def push (view : View) (symbol : Symbol) (reg : UInt8) : View :=
  { view with
    bindings := Function.update view.bindings view.top ⟨symbol, reg⟩
    top := view.top + 1 }

/-- Pop a binding; its entry keeps its contents. -/
def pop (view : View) : View :=
  { view with top := view.top - 1 }

/-- Report an error at a range. -/
def report (input : CompileInput) (range : TokenRange) (error : String)
    (view : View) : View :=
  { view with
    errors := view.errors ++
      [⟨error, (input.tokens range.startToken).start,
        (input.tokens range.endToken).start +
          (input.tokens range.endToken).length⟩] }

/-- The register the compiler finds for a symbol, searching from `i` down. -/
def search (bindings : Nat → CompileBinding) (id : Symbol) :
    Nat → Option UInt8
  | 0 => if (bindings 0).symbol = id then some (bindings 0).reg else none
  | i + 1 =>
      if (bindings (i + 1)).symbol = id then some (bindings (i + 1)).reg
      else search bindings id i

/-- Record what a search found. -/
def log (view : View) (id : Symbol) (found : Option UInt8) : View :=
  { view with searched := view.searched ++ [(id, found)] }

/-- The closure list once a symbol has a slot in it. -/
def close (closure : List Symbol) (id : Symbol) : List Symbol :=
  if id ∈ closure then closure else closure ++ [id]

end View

/-! ## Emission -/

/-- The instruction that loads a literal. -/
def literalInstruction (value : UInt64) (reg : UInt8) : Instruction :=
  if value ≤ 0xFF then .loadi8 value.toUInt8 reg
  else if value ≤ 0xFFFF then .loadi16 value.toUInt16 reg
  else if value ≤ 0xFFFFFFFF then .loadi32 value.toUInt32 reg
  else .loadi64 value reg

def emitLiteral (value : UInt64) (view : View) : Emission :=
  ⟨.instruction (literalInstruction value view.nextReg), view.nextReg,
    view.take⟩

def emitIdentifier (id : Symbol) (view : View) : Emission :=
  match View.search view.bindings id view.top with
  | some reg => ⟨.empty, reg, view.log id (some reg)⟩
  | none =>
      ⟨.instruction (.loada64 0
          (UInt16.ofNat (view.closure.idxOf id) + 1) view.nextReg),
        view.nextReg,
        { (view.log id none).take with
          closure := View.close view.closure id }⟩

theorem emitIdentifier_bound {id : Symbol} {view : View} {reg : UInt8}
    (found : View.search view.bindings id view.top = some reg) :
    emitIdentifier id view = ⟨.empty, reg, view.log id (some reg)⟩ := by
  simp [emitIdentifier, found]

theorem emitIdentifier_closed {id : Symbol} {view : View}
    (found : View.search view.bindings id view.top = none) :
    emitIdentifier id view =
      ⟨.instruction (.loada64 0
          (UInt16.ofNat (view.closure.idxOf id) + 1) view.nextReg),
        view.nextReg,
        { (view.log id none).take with
          closure := View.close view.closure id }⟩ := by
  simp [emitIdentifier, found]

def emitClosedValues (closureRegister : UInt8) :
    Nat → List Symbol → View → Code × View
  | _, [], view => (.empty, view)
  | i, symbol :: symbols, view =>
      let value := emitIdentifier symbol view
      let rest := emitClosedValues closureRegister (i + 1) symbols value.view
      (.seq value.code (.seq
        (.instruction
          (.storea64 closureRegister (UInt16.ofNat (i + 1)) value.reg))
        rest.1), rest.2)

/-- The state in which the body of a function is generated. -/
def functionView (input : CompileInput) (lambdaId selfId : Symbol)
    (funcId : Nat) (view : View) : View :=
  let child : View :=
    { view with
      registers := 2
      bindings := input.uninit funcId
      top := 0
      closure := [] }
  let child := if selfId ≠ invalidSymbol then child.push selfId 0 else child
  child.push lambdaId 1

/-- The entry that `_FinishCompile` computes. -/
def finishedEntry (funcId : Nat) (body : Emission) : CompiledExpression :=
  let code := body.code.bytes ++ instructionBytes .ret
  { code := code
    codeLength := code.length
    registerCount := body.view.registers
    closureLength := body.view.closure.length
    closure :=
      if body.view.closure.length > 0 then .closure body.view.closure
      else .staticClosure funcId
    resultRegister := body.reg }

/-- Store a function's entry and return to the enclosing function. -/
def finishFunction (funcId : Nat) (result : EntryPointer) (body : Emission)
    (view : View) : View :=
  { view with
    module := body.view.module.store result (finishedEntry funcId body)
    errors := body.view.errors
    finished := body.view.finished ++ [(funcId, finishedEntry funcId body)]
    searched := body.view.searched }

/-- The body of a lambda, generated in its own function. -/
def emitBody (input : CompileInput) (lambdaId selfId : Symbol)
    (lambdaBody : View → Emission) (view : View) : Emission :=
  let added := addFunction view.module
  lambdaBody (functionView input lambdaId selfId added.2.1
    { view with module := added.2.2 })

def emitLambdaImpl (input : CompileInput) (lambdaId : Symbol)
    (lambdaBody : View → Emission) (selfId : Symbol)
    (closureRegister : UInt8) (view : View) : Emission :=
  let added := addFunction view.module
  let body := emitBody input lambdaId selfId lambdaBody view
  let outer := finishFunction added.2.1 added.1 body view
  let id := emitLiteral (UInt64.ofNat added.2.1) outer
  let closed := emitClosedValues closureRegister 0 body.view.closure id.view
  ⟨.seq id.code (.seq (.instruction (.newClosure id.reg closureRegister))
      closed.1), closureRegister, closed.2⟩

def emitLambda (input : CompileInput) (lambdaId : Symbol)
    (lambdaBody : View → Emission) (view : View) : Emission :=
  emitLambdaImpl input lambdaId lambdaBody invalidSymbol view.nextReg
    view.take

def emitLet (letId : Symbol) (letValue letBody : View → Emission)
    (view : View) : Emission :=
  let value := letValue view
  let body := letBody (value.view.push letId value.reg)
  ⟨.seq value.code body.code, body.reg, body.view.pop⟩

def emitLetRec (input : CompileInput) (letId : Symbol)
    (valueRange : TokenRange) (letValue : Option (Symbol × (View → Emission)))
    (letBody : View → Emission) (view : View) : Emission :=
  match letValue with
  | none =>
      ⟨.empty, view.nextReg, view.take.report input valueRange
        "the expression in a let rec must be a function definition"⟩
  | some (lambdaId, lambdaBody) =>
      let value := emitLambdaImpl input lambdaId lambdaBody letId
        view.nextReg (view.take.push letId view.nextReg)
      let body := letBody value.view
      ⟨.seq value.code body.code, body.reg, body.view.pop⟩

def emitApply (applyFunction applyArgument : View → Emission)
    (view : View) : Emission :=
  let function := applyFunction view
  let argument := applyArgument function.view
  let ret := argument.view.nextReg
  ⟨.seq function.code (.seq argument.code
      (.instruction (.call function.reg argument.reg ret))),
    ret, argument.view.take⟩

/-- The instruction of a binary operator. -/
def binaryInstruction (operator : TokenType) (left right out : UInt8) :
    Option Instruction :=
  match operator with
  | .tokPlus => some (.add left right out)
  | .tokMinus => some (.sub left right out)
  | .tokEquals => some (.eq left right out)
  | .tokStar => some (.mul left right out)
  | _ => none

def emitBinary (input : CompileInput) (range : TokenRange)
    (operator : TokenType) (binaryLeft binaryRight : View → Emission)
    (view : View) : Emission :=
  let left := binaryLeft view
  let right := binaryRight left.view
  let out := right.view.nextReg
  match binaryInstruction operator left.reg right.reg out with
  | some instruction =>
      ⟨.seq left.code (.seq right.code (.instruction instruction)), out,
        right.view.take⟩
  | none =>
      ⟨.seq left.code
          (.seq right.code (.operands [left.reg, right.reg, out])),
        out,
        right.view.take.report input range "Unsupported binary operator"⟩

/-- The instruction of a unary operator. -/
def unaryInstruction (operator : TokenType) (arg out : UInt8) :
    Option Instruction :=
  match operator with
  | .tokMinus => some (.neg arg out)
  | _ => none

def emitUnary (input : CompileInput) (range : TokenRange)
    (operator : TokenType) (unaryArg : View → Emission) (view : View) :
    Emission :=
  let arg := unaryArg view
  let out := arg.view.nextReg
  match unaryInstruction operator arg.reg out with
  | some instruction =>
      ⟨.seq arg.code (.instruction instruction), out, arg.view.take⟩
  | none =>
      ⟨.seq arg.code (.operands [arg.reg, out]), out,
        arg.view.take.report input range "Unsupported unary operator"⟩

/-- The move that brings an else branch's result where the then branch's is. -/
def moveResult (elseReg thenReg : UInt8) : Code :=
  if elseReg ≠ thenReg then .instruction (.mov elseReg thenReg) else .empty

def emitIf (ifTest ifThen ifElse : View → Emission) (view : View) :
    Emission :=
  let test := ifTest view
  let thenArm := ifThen test.view
  let elseArm := ifElse thenArm.view
  ⟨.seq test.code (.branch test.reg thenArm.code
      (.seq elseArm.code (moveResult elseArm.reg thenArm.reg))),
    thenArm.reg, elseArm.view⟩

def emitTupleMembers (tupleFirst : View → Emission) (outReg : UInt8) :
    Nat → Nat → View → Code × View
  | _, 0, view => (.empty, view)
  | i, count + 1, view =>
      let member := tupleFirst view
      let rest :=
        emitTupleMembers tupleFirst outReg (i + 1) count member.view
      (.seq member.code (.seq
        (.instruction (.storea64 outReg (UInt16.ofNat i) member.reg))
        rest.1), rest.2)

def emitTuple (tupleLength : Nat) (tupleFirst : View → Emission)
    (view : View) : Emission :=
  let length := emitLiteral (UInt64.ofNat tupleLength) view
  let out := length.view.nextReg
  let members :=
    emitTupleMembers tupleFirst out 0 tupleLength length.view.take
  ⟨.seq length.code (.seq (.instruction (.newTuple length.reg out))
      members.1), out, members.2⟩

/-- The code of an expression. -/
def emit (input : CompileInput) : Expression → View → Emission
  | .integerConstant _ literalValue => emitLiteral literalValue
  | .let_ _ id value body => emitLet id (emit input value) (emit input body)
  | .letrec _ id value body =>
      emitLetRec input id value.range
        (match value with
          | .lambda _ lambdaId lambdaBody =>
              some (lambdaId, emit input lambdaBody)
          | _ => none)
        (emit input body)
  | .identifier _ id => emitIdentifier id
  | .lambda _ id body => emitLambda input id (emit input body)
  | .apply _ function argument =>
      emitApply (emit input function) (emit input argument)
  | .binary range operator left right =>
      emitBinary input range operator (emit input left) (emit input right)
  | .unary range operator arg =>
      emitUnary input range operator (emit input arg)
  | .if_ _ test thenArm elseArm =>
      emitIf (emit input test) (emit input thenArm) (emit input elseArm)
  | .true_ _ => emitLiteral 1
  | .false_ _ => emitLiteral 0
  | .tuple _ first _ length => emitTuple length (emit input first)
  | .error _ => fun view => ⟨.empty, 0, view⟩
  | .tupleFinal range _ | .invalid range => fun view =>
      ⟨.empty, 0, view.report input range
        "Unsupported expression during compilation"⟩

theorem emit_letrec_other {value : Expression} (notLambda : ¬value.IsLambda)
    (input : CompileInput) (range : TokenRange) (id : Symbol)
    (body : Expression) :
    emit input (.letrec range id value body) =
      emitLetRec input id value.range none (emit input body) := by
  cases value with
  | lambda range id body => exact absurd trivial notLambda
  | _ => rfl

/-- A binary operator that is not reported has an instruction. -/
theorem emit_binary_quiet {input : CompileInput} {range : TokenRange}
    {operator : TokenType} {left right : Expression} {view : View}
    (quiet : (emit input (.binary range operator left right) view).view.errors =
      []) :
    ∃ instruction, binaryInstruction operator (emit input left view).reg
        (emit input right (emit input left view).view).reg
        (emit input right (emit input left view).view).view.nextReg =
          some instruction ∧
      emit input (.binary range operator left right) view =
        ⟨.seq (emit input left view).code
            (.seq (emit input right (emit input left view).view).code
              (.instruction instruction)),
          (emit input right (emit input left view).view).view.nextReg,
          (emit input right (emit input left view).view).view.take⟩ := by
  simp only [emit, emitBinary] at quiet ⊢
  split at quiet
  · rename_i instruction chosen
    exact ⟨instruction, chosen, rfl⟩
  · simp [View.report] at quiet

/-- A unary operator that is not reported has an instruction. -/
theorem emit_unary_quiet {input : CompileInput} {range : TokenRange}
    {operator : TokenType} {arg : Expression} {view : View}
    (quiet : (emit input (.unary range operator arg) view).view.errors = []) :
    ∃ instruction, unaryInstruction operator (emit input arg view).reg
        (emit input arg view).view.nextReg = some instruction ∧
      emit input (.unary range operator arg) view =
        ⟨.seq (emit input arg view).code (.instruction instruction),
          (emit input arg view).view.nextReg,
          (emit input arg view).view.take⟩ := by
  simp only [emit, emitUnary] at quiet ⊢
  split at quiet
  · rename_i instruction chosen
    exact ⟨instruction, chosen, rfl⟩
  · simp [View.report] at quiet

/-- The state in which the entry function is generated. -/
def entryView (input : CompileInput) : View where
  registers := 0
  bindings := input.uninit 0
  top := 0
  closure := []
  module := (addFunction moduleInit).2.2
  errors := []
  finished := []
  searched := []

/-- The code of the entry function. -/
def emitEntry (input : CompileInput) (expression : Expression) : Emission :=
  emit input expression (entryView input)

/-- The module that compiling an expression yields. -/
def emitModule (input : CompileInput) (expression : Expression) : View :=
  finishFunction 0 (addFunction moduleInit).1 (emitEntry input expression)
    (entryView input)

end Millie.Compiler
