import Millie.Syntax.Expression
import Millie.Foundation.Buffer
import Millie.Machine.Opcodes

/-!
# The compile context

Translation of `struct Module`, `struct CompileContext` and their operations in
`compiler.c`.  A context's three growable buffers are bounded blocks, so that a
write outside the bytes last allocated is undefined behaviour.  The function
table is a sequence of blocks: growing it moves the table to a new block, and a
pointer into an old block no longer reaches the table.
-/

namespace Millie.Compiler

open Millie.Symbols Millie.Syntax Millie.Machine

/-! ## Modules -/

/-- The union of `closure` and `static_closure`. -/
inductive ClosureUnion where
  | closure (symbols : List Symbol)
  | staticClosure (functionId : Nat)
deriving DecidableEq

/-- `struct CompiledExpression`. -/
structure CompiledExpression where
  code : List UInt8
  codeLength : Nat
  registerCount : Nat
  closureLength : Nat
  closure : ClosureUnion
  resultRegister : UInt8
deriving DecidableEq

/-- A `struct CompiledExpression *` into the function table. -/
structure EntryPointer where
  block : Nat
  index : Nat
deriving DecidableEq

/--
`struct Module`.  `blocks` is every table block `realloc` ever returned, `none`
an entry that has not been written; `functions` is the current block.
-/
structure Module where
  blocks : Nat → Nat → Option CompiledExpression
  functions : Nat
  functionCount : Nat
  functionCapacity : Nat

/-- The entry `module->functions[i]`. -/
def Module.entry (module : Module) (i : Nat) : Option CompiledExpression :=
  module.blocks module.functions i

/-- `ModuleInit`. -/
def moduleInit : Module :=
  ⟨fun _ _ => none, 0, 0, 0⟩

/-- The growth step of `_AddFunction`: `realloc` moves the table. -/
def growFunctions (module : Module) : Module :=
  if module.functionCount = module.functionCapacity then
    let newCap :=
      if module.functionCapacity = 0 then 10 else module.functionCapacity * 2
    { module with
      blocks := Function.update module.blocks (module.functions + 1)
        (module.blocks module.functions)
      functions := module.functions + 1
      functionCapacity := newCap }
  else module

/-- `_AddFunction`: the entry's pointer and the function id. -/
def addFunction (module : Module) : EntryPointer × Nat × Module :=
  let module := growFunctions module
  let expressionId := module.functionCount
  (⟨module.functions, module.functionCount⟩, expressionId,
    { module with functionCount := module.functionCount + 1 })

/-- A write through an entry pointer. -/
def Module.store (module : Module) (pointer : EntryPointer)
    (entry : CompiledExpression) : Module :=
  { module with
    blocks := Function.update module.blocks pointer.block
      (Function.update (module.blocks pointer.block) pointer.index
        (some entry)) }

/-- A read through an entry pointer; an unwritten entry holds nothing. -/
def Module.load (module : Module) (pointer : EntryPointer) :
    Except Stop CompiledExpression :=
  match module.blocks pointer.block pointer.index with
  | some entry => .ok entry
  | none => .error .undefinedBehaviour

/-! ## Contexts -/

/-- `struct CompileBinding`. -/
structure CompileBinding where
  symbol : Symbol
  reg : UInt8
deriving DecidableEq

/-- `struct CompileContext`, its pointers into the code buffer as offsets. -/
structure CompileContext where
  code : Buffer UInt8
  codeWrite : Nat
  codeCapacity : Nat
  integerRegisters : UInt8
  maxRegisters : Nat
  bindings : Buffer CompileBinding
  bindingTop : Nat
  bindingCapacity : Nat
  closureSymbols : Buffer Symbol
  closureTop : Nat
  closureCapacity : Nat

/-- `INITIAL_BINDING_CAPACITY`. -/
def initialBindingCapacity : Nat := 64

/-- `INITIAL_CODE_CAPACITY`. -/
def initialCodeCapacity : Nat := 64

/-- `sizeof(struct CompileBinding)`. -/
def sizeofCompileBinding : Nat := 8

/-- `sizeof(Symbol)`. -/
def sizeofSymbol : Nat := 4

/--
What a compilation reads besides the expression: the tokens, for error
positions, and what the binding memory that `malloc` returns for the context of
each function holds before it is written.
-/
structure CompileInput where
  tokens : Nat → MillieToken
  uninit : Nat → Nat → CompileBinding

/--
`_InitCompileContext`.  Each block of `n` bytes holds as many cells as fit.
-/
def initCompileContext (uninit : Nat → CompileBinding) : CompileContext where
  code := .malloc initialCodeCapacity fun _ => 0
  codeWrite := 0
  codeCapacity := initialCodeCapacity
  integerRegisters := 0
  maxRegisters := 0
  bindings := .malloc (initialBindingCapacity / sizeofCompileBinding) uninit
  bindingTop := 0
  bindingCapacity := initialBindingCapacity
  closureSymbols :=
    .malloc (initialBindingCapacity / sizeofSymbol) fun _ => 0
  closureTop := 0
  closureCapacity := initialBindingCapacity

/--
The state a compilation threads: the current context, the module and the error
list.  Two ghost records that nothing reads follow: what `_FinishCompile`
computed for each function id, and what each search of the binding stack found.
-/
structure CompileState where
  context : CompileContext
  module : Module
  errors : List ErrorReport
  finished : List (Nat × CompiledExpression)
  searched : List (Symbol × Option UInt8)

/-- A compilation step. -/
abbrev CompileM := StateT CompileState (Except Stop)

/-- Run a step that touches only the context. -/
def onContext {α : Type}
    (step : CompileContext → Except Stop (α × CompileContext)) :
    CompileM α := fun state =>
  match step state.context with
  | .error stop => .error stop
  | .ok (value, context) => .ok (value, { state with context := context })

/-! ## Writing code -/

/-- The values an `int` can hold end below this. -/
def intLimit : Nat := 2147483648

/-- `realloc(context->code, new_capacity)`, and the new capacity. -/
def growCode (newCapacity : Nat) (context : CompileContext) :
    CompileContext :=
  { context with
    code := context.code.realloc newCapacity fun _ => 0
    codeCapacity := newCapacity }

/--
`_EnsureCodeCapacity`.  The capacity is an `int`, and doubling it may overflow.
-/
def ensureCodeCapacity (more : Nat) (context : CompileContext) :
    Except Stop CompileContext :=
  if context.codeCapacity < context.codeWrite + more then
    if context.codeCapacity * 2 < intLimit then
      .ok (growCode (context.codeCapacity * 2) context)
    else .error .undefinedBehaviour
  else .ok context

/-- `*(context->code_write++) = value`. -/
def putByte (value : UInt8) (context : CompileContext) :
    Except Stop CompileContext := do
  let code ← context.code.write context.codeWrite value
  return { context with code := code, codeWrite := context.codeWrite + 1 }

/-- Store the bytes of a little-endian value, the lowest first. -/
def putBytes : List UInt8 → CompileContext → Except Stop CompileContext
  | [], context => .ok context
  | byte :: bytes, context => do
      let context ← putByte byte context
      putBytes bytes context

/-- The common shape of `_WriteCodeU8` to `_WriteCodeU64`. -/
def writeCode (more : Nat) (bytes : List UInt8) : CompileM Unit :=
  onContext fun context => do
    let context ← ensureCodeCapacity more context
    let context ← putBytes bytes context
    return ((), context)

def bytesU16 (value : UInt16) : List UInt8 :=
  [value.toUInt8, (value >>> 8).toUInt8]

def bytesU32 (value : UInt32) : List UInt8 :=
  [value.toUInt8, (value >>> 8).toUInt8, (value >>> 16).toUInt8,
    (value >>> 24).toUInt8]

def bytesU64 (value : UInt64) : List UInt8 :=
  [value.toUInt8, (value >>> 8).toUInt8, (value >>> 16).toUInt8,
    (value >>> 24).toUInt8, (value >>> 32).toUInt8, (value >>> 40).toUInt8,
    (value >>> 48).toUInt8, (value >>> 56).toUInt8]

/-- `_WriteCodeU8`. -/
def writeCodeU8 (value : UInt8) : CompileM Unit :=
  writeCode 1 [value]

/-- `_WriteCodeU16`; it asks for room for four bytes. -/
def writeCodeU16 (value : UInt16) : CompileM Unit :=
  writeCode 4 (bytesU16 value)

/-- `_WriteCodeU32`. -/
def writeCodeU32 (value : UInt32) : CompileM Unit :=
  writeCode 4 (bytesU32 value)

/-- `_WriteCodeU64`. -/
def writeCodeU64 (value : UInt64) : CompileM Unit :=
  writeCode 8 (bytesU64 value)

/-- Write an opcode. -/
def writeOpcode (opcode : Opcode) : CompileM Unit :=
  writeCodeU8 opcode.byte

/-- The offset of the write pointer. -/
def codeOffset : CompileM Nat :=
  onContext fun context => .ok (context.codeWrite, context)

/-- Leave a hole of two bytes for a jump offset. -/
def reserveOffset : CompileM Unit :=
  onContext fun context => do
    let context ← ensureCodeCapacity 2 context
    return ((), { context with codeWrite := context.codeWrite + 2 })

/-- `context->code_write = context->code + offset`. -/
def seekCode (offset : Nat) : CompileM Unit :=
  onContext fun context => .ok ((), { context with codeWrite := offset })

/-! ## Registers and bindings -/

/-- `_GetFreeIntRegister`. -/
def getFreeIntRegister : CompileM UInt8 :=
  onContext fun context =>
    let context :=
      { context with
        integerRegisters := context.integerRegisters + 1
        maxRegisters := context.maxRegisters + 1 }
    .ok (context.integerRegisters - 1, context)

/--
`_PushBinding`.  Its growth step reallocates the code block and takes it as the
binding array, so the code buffer is gone and the new entries hold code bytes.
-/
def pushBinding (symbol : Symbol) (reg : UInt8) : CompileM Unit :=
  onContext fun context => do
    let context :=
      if context.bindingTop = context.bindingCapacity then
        { context with
          bindingCapacity := context.bindingCapacity * 2
          bindings := .malloc
            (context.bindingCapacity * 2 / sizeofCompileBinding)
            fun _ => ⟨0, 0⟩
          code := .malloc 0 fun _ => 0 }
      else context
    let bindings ← context.bindings.write context.bindingTop ⟨symbol, reg⟩
    return ((), { context with
      bindings := bindings
      bindingTop := context.bindingTop + 1 })

/-- `_PopBinding`; the entry keeps its contents. -/
def popBinding : CompileM Unit :=
  onContext fun context =>
    .ok ((), { context with bindingTop := context.bindingTop - 1 })

/-- `_ReportCompileError`. -/
def reportCompileError (input : CompileInput) (range : TokenRange)
    (error : String) : CompileM Unit := fun state =>
  let startToken := input.tokens range.startToken
  let endToken := input.tokens range.endToken
  let report : ErrorReport :=
    ⟨error, startToken.start, endToken.start + endToken.length⟩
  .ok ((), { state with errors := state.errors ++ [report] })

/-- `_FinishCompile`: write the entry through the function's pointer. -/
def finishCompile (resultRegister : UInt8) (funcId : Nat)
    (result : EntryPointer) : CompileM Unit := do
  writeOpcode .ret
  fun state =>
    let context := state.context
    let entry : CompiledExpression :=
      { code := context.code.front context.codeWrite
        codeLength := context.codeWrite
        registerCount := context.maxRegisters
        closureLength := context.closureTop
        closure :=
          if context.closureTop > 0 then
            .closure (context.closureSymbols.front context.closureTop)
          else .staticClosure funcId
        resultRegister := resultRegister }
    .ok ((), { state with
      module := state.module.store result entry
      finished := state.finished ++ [(funcId, entry)] })

end Millie.Compiler
