import Millie.Compiler.Context
import Mathlib.Algebra.Group.Int.Defs
import Mathlib.Algebra.Group.Nat.Defs

/-!
# The virtual machine

Translation of `EvaluateCode` in `runtime.c`.  A register or memory cell holds a
64-bit number, a pointer to a heap block or to a function's static closure, or
nothing yet.  A pointer has no numeric value, and reading an operand or a memory
cell that is not there is undefined behaviour.  The switch of the interpreter is
split into reading the operands (`fetch`) and acting on them (`perform`).
-/

namespace Millie.Machine

open Millie.Compiler

/-- What a register or a memory cell holds. -/
inductive Word where
  | int (value : UInt64)
  | block (address : Nat)
  | static (functionId : Nat)
  | uninit
deriving DecidableEq, Repr

/-- The blocks that `malloc` has returned, in order. -/
abbrev Memory := List (List Word)

/-- The bytes of an instruction, decoded with the operand layout of its case. -/
inductive Instruction where
  | ret
  | loadi8 (val : UInt8) (reg : UInt8)
  | loadi16 (val : UInt16) (reg : UInt8)
  | loadi32 (val : UInt32) (reg : UInt8)
  | loadi64 (val : UInt64) (reg : UInt8)
  | loada64 (srcReg : UInt8) (offset : UInt16) (dstReg : UInt8)
  | storea64 (srcReg : UInt8) (offset : UInt16) (valReg : UInt8)
  | newClosure (funcidReg dstReg : UInt8)
  | newTuple (lenReg dstReg : UInt8)
  | call (funcReg argReg retReg : UInt8)
  | add (leftReg rightReg retReg : UInt8)
  | sub (leftReg rightReg retReg : UInt8)
  | mul (leftReg rightReg retReg : UInt8)
  | neg (argReg retReg : UInt8)
  | eq (leftReg rightReg retReg : UInt8)
  | jmp (offset : UInt16)
  | jz (testReg : UInt8) (offset : UInt16)
  | mov (srcReg dstReg : UInt8)
  | unknown (op : UInt8)
deriving DecidableEq

/-- The source and destination registers of an instruction. -/
def Instruction.registers : Instruction → List UInt8
  | ret | jmp _ | unknown _ => []
  | loadi8 _ reg | loadi16 _ reg | loadi32 _ reg | loadi64 _ reg => [reg]
  | loada64 srcReg _ dstReg => [srcReg, dstReg]
  | storea64 srcReg _ valReg => [srcReg, valReg]
  | newClosure funcidReg dstReg => [funcidReg, dstReg]
  | newTuple lenReg dstReg => [lenReg, dstReg]
  | call funcReg argReg retReg => [funcReg, argReg, retReg]
  | add leftReg rightReg retReg | sub leftReg rightReg retReg
  | mul leftReg rightReg retReg | eq leftReg rightReg retReg =>
      [leftReg, rightReg, retReg]
  | neg argReg retReg => [argReg, retReg]
  | jz testReg _ => [testReg]
  | mov srcReg dstReg => [srcReg, dstReg]

/-! ## Reading the instruction stream -/

/-- `_ReadU8`; the second component is the advanced instruction pointer. -/
def readU8 (code : List UInt8) (ip : Nat) : Except Stop (UInt8 × Nat) :=
  match code[ip]? with
  | some byte => .ok (byte, ip + 1)
  | none => .error .undefinedBehaviour

/-- `_ReadU16`. -/
def readU16 (code : List UInt8) (ip : Nat) : Except Stop (UInt16 × Nat) := do
  let (b0, ip) ← readU8 code ip
  let (b1, ip) ← readU8 code ip
  return (b0.toUInt16 ||| (b1.toUInt16 <<< 8), ip)

/-- `_ReadU32`. -/
def readU32 (code : List UInt8) (ip : Nat) : Except Stop (UInt32 × Nat) := do
  let (b0, ip) ← readU8 code ip
  let (b1, ip) ← readU8 code ip
  let (b2, ip) ← readU8 code ip
  let (b3, ip) ← readU8 code ip
  return (b0.toUInt32 ||| (b1.toUInt32 <<< 8) ||| (b2.toUInt32 <<< 16) |||
    (b3.toUInt32 <<< 24), ip)

/-- `_ReadU64`. -/
def readU64 (code : List UInt8) (ip : Nat) : Except Stop (UInt64 × Nat) := do
  let (b0, ip) ← readU8 code ip
  let (b1, ip) ← readU8 code ip
  let (b2, ip) ← readU8 code ip
  let (b3, ip) ← readU8 code ip
  let (b4, ip) ← readU8 code ip
  let (b5, ip) ← readU8 code ip
  let (b6, ip) ← readU8 code ip
  let (b7, ip) ← readU8 code ip
  return (b0.toUInt64 ||| (b1.toUInt64 <<< 8) ||| (b2.toUInt64 <<< 16) |||
    (b3.toUInt64 <<< 24) ||| (b4.toUInt64 <<< 32) |||
    (b5.toUInt64 <<< 40) ||| (b6.toUInt64 <<< 48) |||
    (b7.toUInt64 <<< 56), ip)

/-- Three register operands. -/
def readRegs3 (code : List UInt8) (ip : Nat)
    (instruction : UInt8 → UInt8 → UInt8 → Instruction) :
    Except Stop (Instruction × Nat) := do
  let (first, ip) ← readU8 code ip
  let (second, ip) ← readU8 code ip
  let (third, ip) ← readU8 code ip
  return (instruction first second third, ip)

/-- Two register operands. -/
def readRegs2 (code : List UInt8) (ip : Nat)
    (instruction : UInt8 → UInt8 → Instruction) :
    Except Stop (Instruction × Nat) := do
  let (first, ip) ← readU8 code ip
  let (second, ip) ← readU8 code ip
  return (instruction first second, ip)

/-- A register, a 16-bit offset and a register. -/
def readRegOffReg (code : List UInt8) (ip : Nat)
    (instruction : UInt8 → UInt16 → UInt8 → Instruction) :
    Except Stop (Instruction × Nat) := do
  let (first, ip) ← readU8 code ip
  let (offset, ip) ← readU16 code ip
  let (second, ip) ← readU8 code ip
  return (instruction first offset second, ip)

/-- Read one opcode and its operands. -/
def fetch (code : List UInt8) (ip : Nat) :
    Except Stop (Instruction × Nat) := do
  let (op, ip) ← readU8 code ip
  match Opcode.ofByte op with
  | some .ret => return (.ret, ip)
  | some .loadi8 => do
      let (val, ip) ← readU8 code ip
      let (reg, ip) ← readU8 code ip
      return (.loadi8 val reg, ip)
  | some .loadi16 => do
      let (val, ip) ← readU16 code ip
      let (reg, ip) ← readU8 code ip
      return (.loadi16 val reg, ip)
  | some .loadi32 => do
      let (val, ip) ← readU32 code ip
      let (reg, ip) ← readU8 code ip
      return (.loadi32 val reg, ip)
  | some .loadi64 => do
      let (val, ip) ← readU64 code ip
      let (reg, ip) ← readU8 code ip
      return (.loadi64 val reg, ip)
  | some .loada64 => readRegOffReg code ip .loada64
  | some .storea64 => readRegOffReg code ip .storea64
  | some .newClosure => readRegs2 code ip .newClosure
  | some .newTuple => readRegs2 code ip .newTuple
  | some .call => readRegs3 code ip .call
  | some .add => readRegs3 code ip .add
  | some .sub => readRegs3 code ip .sub
  | some .mul => readRegs3 code ip .mul
  | some .neg => readRegs2 code ip .neg
  | some .eq => readRegs3 code ip .eq
  | some .jmp => do
      let (offset, ip) ← readU16 code ip
      return (.jmp offset, ip)
  | some .jz => do
      let (testReg, ip) ← readU8 code ip
      let (offset, ip) ← readU16 code ip
      return (.jz testReg offset, ip)
  | some .mov => readRegs2 code ip .mov
  | none => return (.unknown op, ip)

/-! ## Registers and memory -/

/-- `frame.registers[reg]` as an operand. -/
def readReg (registers : List Word) (reg : UInt8) : Except Stop Word :=
  match registers[reg.toNat]? with
  | some word => .ok word
  | none => .error .undefinedBehaviour

/-- An assignment to `frame.registers[reg]`. -/
def writeReg (registers : List Word) (reg : UInt8) (word : Word) :
    Except Stop (List Word) :=
  if reg.toNat < registers.length then .ok (registers.set reg.toNat word)
  else .error .undefinedBehaviour

/-- The numeric value of a word. -/
def Word.toInt : Word → Except Stop UInt64
  | .int value => .ok value
  | _ => .error .undefinedBehaviour

/-- The value of a 64-bit number converted to `int`, when it is an index. -/
def toIndex (value : UInt64) : Except Stop Nat :=
  let low := value.toNat % 2 ^ 32
  if low < 2 ^ 31 then .ok low else .error .undefinedBehaviour

/-- The value of a 16-bit offset reinterpreted as `int16_t`. -/
def toInt16 (offset : UInt16) : Int :=
  if offset.toNat < 2 ^ 15 then offset.toNat else offset.toNat - 2 ^ 16

/-- `ip + offset`; a target before the code is no address in it. -/
def jumpTarget (ip : Nat) (offset : UInt16) : Except Stop Nat :=
  let target := (ip : Int) + toInt16 offset
  if 0 ≤ target then .ok target.toNat else .error .undefinedBehaviour

/-- An array offset that is not before the array. -/
def toOffset (offset : UInt16) : Except Stop Nat :=
  if 0 ≤ toInt16 offset then .ok (toInt16 offset).toNat
  else .error .undefinedBehaviour

/-- `module->functions[i]`. -/
def functionAt (module : Module) (i : Nat) :
    Except Stop CompiledExpression :=
  if i < module.functionCount then
    match module.entry i with
    | some entry => .ok entry
    | none => .error .undefinedBehaviour
  else .error .undefinedBehaviour

/-- `((uint64_t *)word)[offset]`.  A static closure has no slots. -/
def loadWord (module : Module) (memory : Memory) (word : Word)
    (offset : Nat) : Except Stop Word :=
  match word with
  | .block address =>
      match memory[address]? with
      | some cells =>
          match cells[offset]? with
          | some cell => .ok cell
          | none => .error .undefinedBehaviour
      | none => .error .undefinedBehaviour
  | .static functionId => do
      let entry ← functionAt module functionId
      match entry.closure, offset with
      | .staticClosure id, 0 => return .int (UInt64.ofNat id)
      | _, _ => .error .undefinedBehaviour
  | _ => .error .undefinedBehaviour

/-- `((uint64_t *)word)[offset] = value`. -/
def storeWord (memory : Memory) (word : Word) (offset : Nat)
    (value : Word) : Except Stop Memory :=
  match word with
  | .block address =>
      match memory[address]? with
      | some cells =>
          if offset < cells.length then
            .ok (memory.set address (cells.set offset value))
          else .error .undefinedBehaviour
      | none => .error .undefinedBehaviour
  | _ => .error .undefinedBehaviour

/-- A fresh block. -/
def allocateBlock (memory : Memory) (cells : List Word) : Word × Memory :=
  (.block memory.length, memory ++ [cells])

/-- `_AllocateClosure`. -/
def allocateClosure (memory : Memory) (funcId slotCount : Nat) :
    Word × Memory :=
  allocateBlock memory
    (.int (UInt64.ofNat funcId) :: List.replicate slotCount .uninit)

/-- `_AllocateTuple`. -/
def allocateTuple (memory : Memory) (size : UInt64) : Word × Memory :=
  allocateBlock memory (List.replicate size.toNat .uninit)

/-- The test of `OP_EQ`; a pointer and a number have no common value. -/
def wordsEqual : Word → Word → Except Stop Bool
  | .int left, .int right => .ok (left == right)
  | .block left, .block right => .ok (left == right)
  | .static left, .static right => .ok (left == right)
  | .block _, .static _ | .static _, .block _ => .ok false
  | _, _ => .error .undefinedBehaviour

/-- The test of `OP_JZ`; no pointer is null. -/
def isZero : Word → Except Stop Bool
  | .int value => .ok (value == 0)
  | .block _ | .static _ => .ok false
  | .uninit => .error .undefinedBehaviour

/-! ## Executing -/

/-- The registers, the instruction pointer and the memory of a frame. -/
structure FrameState where
  registers : List Word
  ip : Nat
  memory : Memory

/-- The frame set-up of `EvaluateCode`: a zeroed frame and two writes. -/
def enterFrame (code : CompiledExpression) (closure arg0 : Word) :
    Except Stop (List Word) := do
  let registers := List.replicate code.registerCount (Word.int 0)
  let registers ← writeReg registers 0 closure
  writeReg registers 1 arg0

/-- An arithmetic case of the switch. -/
def arithmetic (operation : UInt64 → UInt64 → UInt64)
    (leftReg rightReg retReg : UInt8) (frame : FrameState) :
    Except Stop FrameState := do
  let left ← (← readReg frame.registers leftReg).toInt
  let right ← (← readReg frame.registers rightReg).toInt
  let registers ← writeReg frame.registers retReg (.int (operation left right))
  return { frame with registers := registers }

/-- A load of an immediate. -/
def loadImmediate (value : UInt64) (reg : UInt8) (frame : FrameState) :
    Except Stop FrameState := do
  let registers ← writeReg frame.registers reg (.int value)
  return { frame with registers := registers }

/--
The cases of the switch other than `OP_RET` and `OP_CALL`.  The frame's
instruction pointer is already past the operands.  Where the code computes with
the bits of a pointer, in `OP_NEG` too, the model stops: it has no addresses.
-/
def perform (module : Module) (instruction : Instruction)
    (frame : FrameState) : Except Stop FrameState :=
  match instruction with
  | .loadi8 val reg => loadImmediate val.toUInt64 reg frame
  | .loadi16 val reg => loadImmediate val.toUInt64 reg frame
  | .loadi32 val reg => loadImmediate val.toUInt64 reg frame
  | .loadi64 val reg => loadImmediate val reg frame
  | .add leftReg rightReg retReg =>
      arithmetic (· + ·) leftReg rightReg retReg frame
  | .sub leftReg rightReg retReg =>
      arithmetic (· - ·) leftReg rightReg retReg frame
  | .mul leftReg rightReg retReg =>
      arithmetic (· * ·) leftReg rightReg retReg frame
  | .neg argReg retReg => do
      let arg ← (← readReg frame.registers argReg).toInt
      let registers ← writeReg frame.registers retReg (.int (-arg))
      return { frame with registers := registers }
  | .eq leftReg rightReg retReg => do
      let left ← readReg frame.registers leftReg
      let right ← readReg frame.registers rightReg
      let equal ← wordsEqual left right
      let registers ← writeReg frame.registers retReg
        (.int (if equal then 1 else 0))
      return { frame with registers := registers }
  | .jz testReg offset => do
      let zero ← isZero (← readReg frame.registers testReg)
      if zero then do
        let ip ← jumpTarget frame.ip offset
        return { frame with ip := ip }
      else
        return frame
  | .jmp offset => do
      let ip ← jumpTarget frame.ip offset
      return { frame with ip := ip }
  | .mov srcReg dstReg => do
      let word ← readReg frame.registers srcReg
      let registers ← writeReg frame.registers dstReg word
      return { frame with registers := registers }
  | .newClosure funcidReg dstReg => do
      let id ← (← readReg frame.registers funcidReg).toInt
      let funcId ← toIndex id
      let target ← functionAt module funcId
      let (closure, memory) :=
        if target.closureLength > 0 then
          allocateClosure frame.memory funcId target.closureLength
        else (.static funcId, frame.memory)
      let registers ← writeReg frame.registers dstReg closure
      return { frame with registers := registers, memory := memory }
  | .loada64 srcReg offset dstReg => do
      let array ← readReg frame.registers srcReg
      let result ← loadWord module frame.memory array (← toOffset offset)
      let registers ← writeReg frame.registers dstReg result
      return { frame with registers := registers }
  | .storea64 srcReg offset valReg => do
      let array ← readReg frame.registers srcReg
      let value ← readReg frame.registers valReg
      let memory ← storeWord frame.memory array (← toOffset offset) value
      return { frame with memory := memory }
  | .newTuple lenReg dstReg => do
      let size ← (← readReg frame.registers lenReg).toInt
      let (tuple, memory) := allocateTuple frame.memory size
      let registers ← writeReg frame.registers dstReg tuple
      return { frame with registers := registers, memory := memory }
  | .ret | .call _ _ _ | .unknown _ => .ok frame

/-- The function a closure pointer calls: `(int)((uint64_t *)closure)[0]`. -/
def calledFunction (module : Module) (memory : Memory) (closure : Word) :
    Except Stop CompiledExpression := do
  let id ← (← loadWord module memory closure 0).toInt
  let functionId ← toIndex id
  functionAt module functionId

/--
The loop of `EvaluateCode` in one frame.  An unknown instruction halts as
`OP_RET` does.  Every instruction takes one unit of fuel.
-/
def runFrame (module : Module) :
    Nat → CompiledExpression → FrameState → Except Stop (Word × Memory)
  | 0, _, _ => .error .outOfFuel
  | fuel + 1, code, frame => do
      let (instruction, ip) ← fetch code.code frame.ip
      match instruction with
      | .ret | .unknown _ => do
          let result ← readReg frame.registers code.resultRegister
          return (result, frame.memory)
      | .call funcReg argReg retReg => do
          let closure ← readReg frame.registers funcReg
          let callee ← calledFunction module frame.memory closure
          let arg ← readReg frame.registers argReg
          let registers ← enterFrame callee closure arg
          let (retval, memory) ←
            runFrame module fuel callee ⟨registers, 0, frame.memory⟩
          let registers ← writeReg frame.registers retReg retval
          runFrame module fuel code ⟨registers, ip, memory⟩
      | instruction => do
          let frame ← perform module instruction { frame with ip := ip }
          runFrame module fuel code frame

/-- `EvaluateCode`, on a memory. -/
def evaluateCode (module : Module) (fuel : Nat) (funcId : Nat)
    (closure arg0 : Word) (memory : Memory) : Except Stop (Word × Memory) := do
  let code ← functionAt module funcId
  let registers ← enterFrame code closure arg0
  runFrame module fuel code ⟨registers, 0, memory⟩

end Millie.Machine
