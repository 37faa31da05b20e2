import Millie.Compiler.Generator
import Mathlib.Data.Nat.Bitwise
import Mathlib.Data.List.Induction

/-!
# Code in memory

Where the bytes of emitted code stand in a function's code, and that the
virtual machine fetches from there the instructions that were emitted.
-/

namespace Millie.Compiler

open Millie.Symbols Millie.Syntax Millie.Machine

/-! ## Bytes at an address -/

/-- The bytes stand in the code at an address. -/
def Placed (code : List UInt8) (ip : Nat) (bytes : List UInt8) : Prop :=
  ∃ rest, code.drop ip = bytes ++ rest

namespace Placed

variable {code : List UInt8} {ip : Nat}

theorem start (bytes rest : List UInt8) : Placed (bytes ++ rest) 0 bytes :=
  ⟨rest, rfl⟩

theorem append_iff {first second : List UInt8} :
    Placed code ip (first ++ second) ↔
      Placed code ip first ∧ Placed code (ip + first.length) second := by
  constructor
  · rintro ⟨rest, at_⟩
    refine ⟨⟨second ++ rest, by rw [at_, List.append_assoc]⟩, rest, ?_⟩
    rw [← List.drop_drop, at_, List.append_assoc, List.drop_left]
  · rintro ⟨⟨rest, at_⟩, rest', after⟩
    rw [← List.drop_drop, at_, List.drop_left] at after
    exact ⟨rest', by rw [at_, after, List.append_assoc]⟩

theorem left {first second : List UInt8}
    (placed : Placed code ip (first ++ second)) : Placed code ip first :=
  (append_iff.mp placed).1

theorem right {first second : List UInt8}
    (placed : Placed code ip (first ++ second)) :
    Placed code (ip + first.length) second :=
  (append_iff.mp placed).2

theorem readU8 {byte : UInt8} {bytes : List UInt8}
    (placed : Placed code ip (byte :: bytes)) :
    Machine.readU8 code ip = .ok (byte, ip + 1) := by
  rcases placed with ⟨rest, at_⟩
  have here : code[ip]? = some byte := by
    rw [← List.head?_drop, at_]
    rfl
  simp [Machine.readU8, here]

theorem tail {byte : UInt8} {bytes : List UInt8}
    (placed : Placed code ip (byte :: bytes)) :
    Placed code (ip + 1) bytes :=
  right (show Placed code ip ([byte] ++ bytes) from placed)

end Placed

/-! ## Little-endian values -/

/-- A byte or-ed above a smaller number is added to it. -/
theorem or_byte {low byte modulus : Nat} (bits shift : Nat)
    (shifted : shift = 2 ^ bits) (small : low < shift)
    (fits : byte * shift < modulus) :
    low ||| byte * shift % modulus = low + byte * shift := by
  rw [Nat.mod_eq_of_lt fits, shifted, ← Nat.shiftLeft_eq, Nat.or_comm,
    ← Nat.shiftLeft_add_eq_or_of_lt (shifted ▸ small), Nat.add_comm]

theorem joinU16 (value : UInt16) :
    value.toUInt8.toUInt16 ||| ((value >>> 8).toUInt8.toUInt16 <<< 8) =
      value := by
  have small := value.toNat_lt
  apply UInt16.toNat_inj.mp
  simp only [UInt16.toNat_or, UInt16.toNat_shiftLeft, UInt16.toNat_shiftRight,
    UInt8.toNat_toUInt16, UInt16.toNat_toUInt8, UInt16.reduceToNat,
    Nat.shiftLeft_eq, Nat.shiftRight_eq_div_pow, Nat.reduceMod, Nat.reducePow]
  rw [or_byte 8 256] <;> omega

theorem joinU32 (value : UInt32) :
    value.toUInt8.toUInt32 ||| ((value >>> 8).toUInt8.toUInt32 <<< 8) |||
        ((value >>> 16).toUInt8.toUInt32 <<< 16) |||
        ((value >>> 24).toUInt8.toUInt32 <<< 24) =
      value := by
  have small := value.toNat_lt
  apply UInt32.toNat_inj.mp
  simp only [UInt32.toNat_or, UInt32.toNat_shiftLeft, UInt32.toNat_shiftRight,
    UInt8.toNat_toUInt32, UInt32.toNat_toUInt8, UInt32.reduceToNat,
    Nat.shiftLeft_eq, Nat.shiftRight_eq_div_pow, Nat.reduceMod, Nat.reducePow]
  rw [or_byte 8 256, or_byte 16 65536, or_byte 24 16777216] <;> omega

theorem joinU64 (value : UInt64) :
    value.toUInt8.toUInt64 ||| ((value >>> 8).toUInt8.toUInt64 <<< 8) |||
        ((value >>> 16).toUInt8.toUInt64 <<< 16) |||
        ((value >>> 24).toUInt8.toUInt64 <<< 24) |||
        ((value >>> 32).toUInt8.toUInt64 <<< 32) |||
        ((value >>> 40).toUInt8.toUInt64 <<< 40) |||
        ((value >>> 48).toUInt8.toUInt64 <<< 48) |||
        ((value >>> 56).toUInt8.toUInt64 <<< 56) =
      value := by
  have small := value.toNat_lt
  apply UInt64.toNat_inj.mp
  simp only [UInt64.toNat_or, UInt64.toNat_shiftLeft, UInt64.toNat_shiftRight,
    UInt8.toNat_toUInt64, UInt64.toNat_toUInt8, UInt64.reduceToNat,
    Nat.shiftLeft_eq, Nat.shiftRight_eq_div_pow, Nat.reduceMod, Nat.reducePow]
  rw [or_byte 8 256, or_byte 16 65536, or_byte 24 16777216,
    or_byte 32 4294967296, or_byte 40 1099511627776,
    or_byte 48 281474976710656, or_byte 56 72057594037927936] <;> omega

namespace Placed

variable {code bytes : List UInt8} {ip : Nat}

theorem readU16 {value : UInt16}
    (placed : Placed code ip (bytesU16 value ++ bytes)) :
    Machine.readU16 code ip = .ok (value, ip + 2) := by
  simp only [Machine.readU16, placed.readU8, placed.tail.readU8, Stop.ok_bind]
  exact congrArg (fun value => Except.ok (value, ip + 2)) (joinU16 value)

theorem readU32 {value : UInt32}
    (placed : Placed code ip (bytesU32 value ++ bytes)) :
    Machine.readU32 code ip = .ok (value, ip + 4) := by
  have second := placed.tail.tail
  simp only [Machine.readU32, placed.readU8, placed.tail.readU8,
    second.readU8, second.tail.readU8, Stop.ok_bind]
  exact congrArg (fun value => Except.ok (value, ip + 4)) (joinU32 value)

theorem readU64 {value : UInt64}
    (placed : Placed code ip (bytesU64 value ++ bytes)) :
    Machine.readU64 code ip = .ok (value, ip + 8) := by
  have second := placed.tail.tail
  have fourth := second.tail.tail
  have sixth := fourth.tail.tail
  simp only [Machine.readU64, placed.readU8, placed.tail.readU8,
    second.readU8, second.tail.readU8, fourth.readU8, fourth.tail.readU8,
    sixth.readU8, sixth.tail.readU8, Stop.ok_bind]
  exact congrArg (fun value => Except.ok (value, ip + 8)) (joinU64 value)

theorem readRegs2 {first second : UInt8}
    (placed : Placed code ip (first :: second :: bytes))
    (instruction : UInt8 → UInt8 → Instruction) :
    Machine.readRegs2 code ip instruction =
      .ok (instruction first second, ip + 2) := by
  simp only [Machine.readRegs2, placed.readU8, placed.tail.readU8,
    Stop.ok_bind]
  rfl

theorem readRegs3 {first second third : UInt8}
    (placed : Placed code ip (first :: second :: third :: bytes))
    (instruction : UInt8 → UInt8 → UInt8 → Instruction) :
    Machine.readRegs3 code ip instruction =
      .ok (instruction first second third, ip + 3) := by
  simp only [Machine.readRegs3, placed.readU8, placed.tail.readU8,
    placed.tail.tail.readU8, Stop.ok_bind]
  rfl

theorem readRegOffReg {first second : UInt8} {offset : UInt16}
    (placed : Placed code ip
      (first :: (bytesU16 offset ++ second :: bytes)))
    (instruction : UInt8 → UInt16 → UInt8 → Instruction) :
    Machine.readRegOffReg code ip instruction =
      .ok (instruction first offset second, ip + 4) := by
  have last : Placed code (ip + 1 + 2) (second :: bytes) := placed.tail.right
  simp only [Machine.readRegOffReg, placed.readU8, placed.tail.readU16,
    last.readU8, Stop.ok_bind]
  rfl

end Placed

/-! ## Fetching -/

/-- The opcode of an instruction is one of the enumeration's. -/
def Known (instruction : Instruction) : Prop :=
  ∀ op, instruction ≠ .unknown op

/-- The machine fetches the instruction whose bytes stand at its pointer. -/
theorem fetch_placed {code : List UInt8} {ip : Nat}
    {instruction : Instruction} (known : Known instruction)
    (placed : Placed code ip (instructionBytes instruction)) :
    fetch code ip =
      .ok (instruction, ip + (instructionBytes instruction).length) := by
  unfold fetch
  cases instruction with
  | unknown op => exact absurd rfl (known op)
  | ret =>
      simp only [Placed.readU8 placed, Stop.ok_bind, Opcode.ofByte_byte]
      rfl
  | loadi8 val reg =>
      simp only [Placed.readU8 placed, placed.tail.readU8,
        placed.tail.tail.readU8, Stop.ok_bind, Opcode.ofByte_byte]
      rfl
  | loadi16 val reg =>
      have last : Placed code (ip + 1 + 2) [reg] := placed.tail.right
      simp only [Placed.readU8 placed, placed.tail.readU16, last.readU8,
        Stop.ok_bind, Opcode.ofByte_byte]
      rfl
  | loadi32 val reg =>
      have last : Placed code (ip + 1 + 4) [reg] := placed.tail.right
      simp only [Placed.readU8 placed, placed.tail.readU32, last.readU8,
        Stop.ok_bind, Opcode.ofByte_byte]
      rfl
  | loadi64 val reg =>
      have last : Placed code (ip + 1 + 8) [reg] := placed.tail.right
      simp only [Placed.readU8 placed, placed.tail.readU64, last.readU8,
        Stop.ok_bind, Opcode.ofByte_byte]
      rfl
  | loada64 srcReg offset dstReg =>
      simp only [Placed.readU8 placed, Stop.ok_bind, Opcode.ofByte_byte]
      exact placed.tail.readRegOffReg .loada64
  | storea64 srcReg offset valReg =>
      simp only [Placed.readU8 placed, Stop.ok_bind, Opcode.ofByte_byte]
      exact placed.tail.readRegOffReg .storea64
  | newClosure funcidReg dstReg =>
      simp only [Placed.readU8 placed, Stop.ok_bind, Opcode.ofByte_byte]
      exact placed.tail.readRegs2 .newClosure
  | newTuple lenReg dstReg =>
      simp only [Placed.readU8 placed, Stop.ok_bind, Opcode.ofByte_byte]
      exact placed.tail.readRegs2 .newTuple
  | call funcReg argReg retReg =>
      simp only [Placed.readU8 placed, Stop.ok_bind, Opcode.ofByte_byte]
      exact placed.tail.readRegs3 .call
  | add leftReg rightReg retReg =>
      simp only [Placed.readU8 placed, Stop.ok_bind, Opcode.ofByte_byte]
      exact placed.tail.readRegs3 .add
  | sub leftReg rightReg retReg =>
      simp only [Placed.readU8 placed, Stop.ok_bind, Opcode.ofByte_byte]
      exact placed.tail.readRegs3 .sub
  | mul leftReg rightReg retReg =>
      simp only [Placed.readU8 placed, Stop.ok_bind, Opcode.ofByte_byte]
      exact placed.tail.readRegs3 .mul
  | neg argReg retReg =>
      simp only [Placed.readU8 placed, Stop.ok_bind, Opcode.ofByte_byte]
      exact placed.tail.readRegs2 .neg
  | eq leftReg rightReg retReg =>
      simp only [Placed.readU8 placed, Stop.ok_bind, Opcode.ofByte_byte]
      exact placed.tail.readRegs3 .eq
  | jmp offset =>
      have last : Placed code (ip + 1) (bytesU16 offset ++ []) := by
        simpa using placed.tail
      simp only [Placed.readU8 placed, last.readU16, Stop.ok_bind,
        Opcode.ofByte_byte]
      rfl
  | jz testReg offset =>
      have last : Placed code (ip + 1 + 1) (bytesU16 offset ++ []) := by
        simpa using placed.tail.tail
      simp only [Placed.readU8 placed, placed.tail.readU8, last.readU16,
        Stop.ok_bind, Opcode.ofByte_byte]
      rfl
  | mov srcReg dstReg =>
      simp only [Placed.readU8 placed, Stop.ok_bind, Opcode.ofByte_byte]
      exact placed.tail.readRegs2 .mov

/-! ## The instructions of code -/

namespace Code

/-- The instructions of code, in the order of their bytes. -/
def instructions : Code → List Instruction
  | empty => []
  | instruction i => [i]
  | operands _ => []
  | seq first second => first.instructions ++ second.instructions
  | branch testReg thenCode elseCode =>
      .jz testReg (UInt16.ofNat (thenCode.bytes.length + 3)) ::
        (thenCode.instructions ++
          .jmp (UInt16.ofNat elseCode.bytes.length) :: elseCode.instructions)

/-- Every byte belongs to an instruction of the enumeration. -/
def Clean : Code → Prop
  | empty => True
  | instruction i => Known i
  | operands _ => False
  | seq first second => first.Clean ∧ second.Clean
  | branch _ thenCode elseCode => thenCode.Clean ∧ elseCode.Clean

theorem Clean.bytes_eq {code : Code} (clean : code.Clean) :
    code.bytes = code.instructions.flatMap instructionBytes := by
  induction code with
  | empty => rfl
  | instruction i => simp [bytes, instructions]
  | operands bytes => exact clean.elim
  | seq first second firstIh secondIh =>
      simp [bytes, instructions, firstIh clean.1, secondIh clean.2]
  | branch testReg thenCode elseCode thenIh elseIh =>
      rw [bytes, instructions, List.flatMap_cons, List.flatMap_append,
        List.flatMap_cons, ← thenIh clean.1, ← elseIh clean.2]
      simp only [List.append_assoc]

theorem Clean.known {code : Code} (clean : code.Clean) :
    ∀ i ∈ code.instructions, Known i := by
  induction code with
  | empty => exact nofun
  | instruction i =>
      intro other member
      rw [List.mem_singleton.mp member]
      exact clean
  | operands bytes => exact nofun
  | seq first second firstIh secondIh =>
      intro i member
      rcases List.mem_append.mp member with inFirst | inSecond
      · exact firstIh clean.1 i inFirst
      · exact secondIh clean.2 i inSecond
  | branch testReg thenCode elseCode thenIh elseIh =>
      intro i member
      rcases List.mem_cons.mp member with jz | member
      · subst jz
        exact nofun
      rcases List.mem_append.mp member with inThen | member
      · exact thenIh clean.1 i inThen
      rcases List.mem_cons.mp member with jmp | inElse
      · subst jmp
        exact nofun
      · exact elseIh clean.2 i inElse

end Code

/-- The addresses at which the instructions of a function's code start. -/
inductive Boundary (code : List UInt8) : Nat → Prop where
  | start : Boundary code 0
  | next {ip after : Nat} {instruction : Instruction} :
      Boundary code ip → fetch code ip = .ok (instruction, after) →
      Boundary code after

theorem fetch_end (code : List UInt8) {ip : Nat} (past : code.length ≤ ip) :
    fetch code ip = .error .undefinedBehaviour := by
  have none_ : code[ip]? = none := List.getElem?_eq_none past
  simp [fetch, readU8, none_]

/-- A boundary splits the instructions. -/
theorem Boundary.split {instructions : List Instruction} {ip : Nat}
    (known : ∀ i ∈ instructions, Known i)
    (boundary : Boundary (instructions.flatMap instructionBytes) ip) :
    ∃ before after, instructions = before ++ after ∧
      ip = (before.flatMap instructionBytes).length := by
  induction boundary with
  | start => exact ⟨[], instructions, rfl, rfl⟩
  | @next ip next instruction boundary fetched ih =>
      rcases ih with ⟨before, after, split, ipIs⟩
      cases after with
      | nil =>
          rw [fetch_end _ (by rw [split, ipIs, List.append_nil])] at fetched
          cases fetched
      | cons first after =>
          have placed : Placed (instructions.flatMap instructionBytes) ip
              (instructionBytes first) := by
            refine ⟨after.flatMap instructionBytes, ?_⟩
            rw [split, ipIs]
            simp
          rw [fetch_placed (known first (by simp [split])) placed] at fetched
          cases fetched
          refine ⟨before ++ [instruction], after, by simp [split], ?_⟩
          rw [ipIs]
          simp

/-- What is fetched at a boundary is one of the instructions. -/
theorem Boundary.fetch_mem {instructions : List Instruction}
    {instruction : Instruction} {ip after : Nat}
    (known : ∀ i ∈ instructions, Known i)
    (boundary : Boundary (instructions.flatMap instructionBytes) ip)
    (fetched : fetch (instructions.flatMap instructionBytes) ip =
      .ok (instruction, after)) :
    instruction ∈ instructions := by
  rcases boundary.split known with ⟨before, rest, split, ipIs⟩
  cases rest with
  | nil =>
      rw [fetch_end _ (by rw [split, ipIs, List.append_nil])] at fetched
      cases fetched
  | cons first rest =>
      have placed : Placed (instructions.flatMap instructionBytes) ip
          (instructionBytes first) := by
        refine ⟨rest.flatMap instructionBytes, ?_⟩
        rw [split, ipIs]
        simp
      rw [fetch_placed (known first (by simp [split])) placed] at fetched
      cases fetched
      simp [split]

/-- Where the instructions of a first part end, the next one starts. -/
theorem boundary_after {before after : List Instruction}
    (known : ∀ i ∈ before ++ after, Known i) :
    Boundary ((before ++ after).flatMap instructionBytes)
      (before.flatMap instructionBytes).length := by
  induction before using List.reverseRecOn generalizing after with
  | nil => exact .start
  | append_singleton before last ih =>
      rw [List.append_assoc, List.singleton_append] at known ⊢
      have placed : Placed ((before ++ last :: after).flatMap instructionBytes)
          (before.flatMap instructionBytes).length (instructionBytes last) :=
        ⟨after.flatMap instructionBytes, by simp⟩
      have next := (ih known).next (fetch_placed (known last (by simp)) placed)
      simpa using next

/-- Every instruction is fetched at a boundary. -/
theorem fetched_of_mem {instructions : List Instruction}
    (known : ∀ i ∈ instructions, Known i) {i : Instruction}
    (member : i ∈ instructions) :
    ∃ ip after, Boundary (instructions.flatMap instructionBytes) ip ∧
      fetch (instructions.flatMap instructionBytes) ip = .ok (i, after) := by
  rcases List.append_of_mem member with ⟨before, after, rfl⟩
  have placed : Placed ((before ++ i :: after).flatMap instructionBytes)
      (before.flatMap instructionBytes).length (instructionBytes i) :=
    ⟨after.flatMap instructionBytes, by simp⟩
  exact ⟨_, _, boundary_after known, fetch_placed (known i member) placed⟩

end Millie.Compiler
