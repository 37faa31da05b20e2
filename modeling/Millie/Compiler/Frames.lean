import Millie.Compiler.Trace
import Millie.Compiler.GeneratorSound

/-!
# Register frames

A function's frame has as many registers as code generation has taken for it,
and the virtual machine writes the first two before it starts.  This module says
what it is for a function to stay inside its frame, and what is known of the
registers of single instructions and of the bindings a function starts with.
-/

namespace Millie.Compiler

open Millie.Symbols Millie.Syntax Millie.Machine

/-! ## Frames -/

/-- Every register the machine touches while running a function is in its frame. -/
structure FrameFits (entry : CompiledExpression) : Prop where
  entered : 1 < entry.registerCount
  operands : ∀ ip instruction after, Boundary entry.code ip →
    fetch entry.code ip = .ok (instruction, after) →
    ∀ reg ∈ instruction.registers, reg.toNat < entry.registerCount
  result : entry.resultRegister.toNat < entry.registerCount

/-! ## Registers that were taken -/

theorem nextReg_lt {view : View} {size : Nat}
    (room : view.take.registers ≤ size) : view.nextReg.toNat < size := by
  refine Nat.lt_of_le_of_lt ?_ room
  simp only [View.nextReg, UInt8.toNat_ofNat']
  exact Nat.mod_le _ _

theorem functionView_registers (input : CompileInput)
    (lambdaId selfId : Symbol) (funcId : Nat) (view : View) :
    (functionView input lambdaId selfId funcId view).registers = 2 := by
  unfold functionView
  by_cases named : selfId ≠ invalidSymbol
  · simp only [if_pos named]
    rfl
  · simp only [if_neg named]
    rfl

/-- A function starts with its own name and its parameter in registers 0, 1. -/
theorem functionView_live {input : CompileInput} {lambdaId selfId : Symbol}
    {funcId size : Nat} {view : View} (room : 1 < size) :
    ∀ i < (functionView input lambdaId selfId funcId view).top,
      ((functionView input lambdaId selfId funcId view).bindings i).reg.toNat <
        size := by
  have zero : (0 : UInt8).toNat < size := by
    rw [UInt8.toNat_zero]
    omega
  have one : (1 : UInt8).toNat < size := room
  unfold functionView
  by_cases named : selfId ≠ invalidSymbol
  · simp only [if_pos named, View.push]
    intro i below
    have cases_ : i = 1 ∨ i = 0 := by omega
    rcases cases_ with arg | self
    · simpa [arg] using one
    · simpa [self, Function.update_apply] using zero
  · simp only [if_neg named, View.push]
    intro i below
    have arg : i = 0 := by omega
    simpa [arg] using one

theorem errors_nil {view after : View} (continues : Continues view after)
    (quiet : after.errors = []) : view.errors = [] :=
  List.prefix_nil.mp (quiet ▸ continues.errors)

/-- The live bindings of a later state lie in the frame as well. -/
theorem Continues.live {view after : View} {size : Nat}
    (continues : Continues view after)
    (live : ∀ i < view.top, (view.bindings i).reg.toNat < size) :
    ∀ i < after.top, (after.bindings i).reg.toNat < size := by
  intro i below
  rw [continues.top] at below
  rw [continues.bindings i below]
  exact live i below

theorem push_live {view : View} {size : Nat} {symbol : Symbol} {reg : UInt8}
    (inside : reg.toNat < size)
    (live : ∀ i < view.top, (view.bindings i).reg.toNat < size) :
    ∀ i < (view.push symbol reg).top,
      ((view.push symbol reg).bindings i).reg.toNat < size := by
  intro i below
  simp only [View.push, Function.update_apply]
  split
  · exact inside
  · exact live i (by simp only [View.push] at below; omega)

/-! ## Instructions of literals and operators -/

theorem literalInstruction_registers (value : UInt64) (reg : UInt8) :
    (literalInstruction value reg).registers = [reg] := by
  unfold literalInstruction
  split
  · rfl
  split
  · rfl
  split
  · rfl
  · rfl

theorem binaryInstruction_known {operator : TokenType}
    {left right out : UInt8} {instruction : Instruction}
    (chosen : binaryInstruction operator left right out = some instruction) :
    Known instruction := by
  cases operator <;> simp [binaryInstruction] at chosen <;> subst chosen <;>
    simp [Known]

theorem binaryInstruction_registers {operator : TokenType}
    {left right out : UInt8} {instruction : Instruction}
    (chosen : binaryInstruction operator left right out = some instruction) :
    instruction.registers = [left, right, out] := by
  cases operator <;> simp [binaryInstruction] at chosen <;> subst chosen <;>
    rfl

theorem unaryInstruction_known {operator : TokenType} {arg out : UInt8}
    {instruction : Instruction}
    (chosen : unaryInstruction operator arg out = some instruction) :
    Known instruction := by
  cases operator with
  | tokMinus =>
      cases chosen
      exact nofun
  | _ => cases chosen

theorem unaryInstruction_registers {operator : TokenType} {arg out : UInt8}
    {instruction : Instruction}
    (chosen : unaryInstruction operator arg out = some instruction) :
    instruction.registers = [arg, out] := by
  cases operator with
  | tokMinus =>
      cases chosen
      rfl
  | _ => cases chosen

end Millie.Compiler
