/-!
# Opcodes

The enumeration of `opcodes.inc`, numbered in the order of its lines.
-/

namespace Millie.Machine

/-- `MILLIE_OPCODE`. -/
inductive Opcode where
  | ret
  | loadi8
  | loadi16
  | loadi32
  | loadi64
  | loada64
  | storea64
  | newClosure
  | newTuple
  | call
  | add
  | sub
  | mul
  | neg
  | eq
  | jmp
  | jz
  | mov
deriving DecidableEq, Repr

/-- The byte the compiler writes for an opcode. -/
def Opcode.byte : Opcode → UInt8
  | ret => 0
  | loadi8 => 1
  | loadi16 => 2
  | loadi32 => 3
  | loadi64 => 4
  | loada64 => 5
  | storea64 => 6
  | newClosure => 7
  | newTuple => 8
  | call => 9
  | add => 10
  | sub => 11
  | mul => 12
  | neg => 13
  | eq => 14
  | jmp => 15
  | jz => 16
  | mov => 17

/-- The opcode that the virtual machine's switch selects for a byte. -/
def Opcode.ofByte : UInt8 → Option Opcode
  | 0 => some ret
  | 1 => some loadi8
  | 2 => some loadi16
  | 3 => some loadi32
  | 4 => some loadi64
  | 5 => some loada64
  | 6 => some storea64
  | 7 => some newClosure
  | 8 => some newTuple
  | 9 => some call
  | 10 => some add
  | 11 => some sub
  | 12 => some mul
  | 13 => some neg
  | 14 => some eq
  | 15 => some jmp
  | 16 => some jz
  | 17 => some mov
  | _ => none

@[simp]
theorem Opcode.ofByte_byte (opcode : Opcode) :
    Opcode.ofByte opcode.byte = some opcode := by
  cases opcode <;> rfl

end Millie.Machine
