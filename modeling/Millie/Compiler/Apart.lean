import Millie.Compiler.Clobber
import Millie.Compiler.Operations

/-!
# Registers that code leaves out

Code generation hands the registers out in order, and apart from new ones it
names only register 0 and those of the bindings.  A register that is taken
already and that no entry has which a search can reach is therefore named
nowhere in the code that follows.  Searches start one entry above the live
bindings, so an expression reaches as many more as it nests bindings.
-/

namespace Millie.Compiler

open Millie.Symbols Millie.Syntax Millie.Machine

/-! ## Code -/

/-- No instruction names a register. -/
def Code.Omits (apart : UInt8) (code : Code) : Prop :=
  ∀ i ∈ code.instructions, apart ∉ i.registers

namespace Code

variable {apart : UInt8}

theorem Omits.empty : Code.empty.Omits apart :=
  nofun

theorem Omits.operands (bytes : List UInt8) : (operands bytes).Omits apart :=
  nofun

theorem Omits.instruction {i : Instruction} (absent : apart ∉ i.registers) :
    (instruction i).Omits apart :=
  fun _ member => List.mem_singleton.mp member ▸ absent

theorem Omits.branch {testReg : UInt8} {thenCode elseCode : Code}
    (test : testReg ≠ apart) (thenOmits : thenCode.Omits apart)
    (elseOmits : elseCode.Omits apart) :
    (branch testReg thenCode elseCode).Omits apart := by
  intro i member
  rcases List.mem_cons.mp member with rfl | member
  · simpa [Instruction.registers] using test.symm
  rcases List.mem_append.mp member with inThen | member
  · exact thenOmits i inThen
  rcases List.mem_cons.mp member with rfl | inElse
  · exact List.not_mem_nil
  · exact elseOmits i inElse

/-- Code that does not name a register does not write it. -/
theorem Omits.spares {code : Code} (omits : code.Omits apart) :
    code.Spares (· = apart) := by
  rintro i member reg writes rfl
  apply omits i member
  cases i with
  | ret | storea64 | jmp | jz | unknown => cases writes
  | _ =>
      cases writes
      simp [Instruction.registers]

end Code

/-! ## Emissions -/

/-- The most bindings that an expression has pushed at once, in its function. -/
def bindingDepth : Expression → Nat
  | .let_ _ _ value body => max (bindingDepth value) (bindingDepth body + 1)
  | .letrec _ _ value body =>
      match value with
      | .lambda _ _ _ => bindingDepth body + 1
      | _ => 0
  | .apply _ first second | .binary _ _ first second =>
      max (bindingDepth first) (bindingDepth second)
  | .unary _ _ arg => bindingDepth arg
  | .if_ _ test thenArm elseArm =>
      max (bindingDepth test)
        (max (bindingDepth thenArm) (bindingDepth elseArm))
  | .tuple _ first _ length => if length = 0 then 0 else bindingDepth first
  | .integerConstant _ _ | .true_ _ | .false_ _ | .identifier _ _
  | .lambda _ _ _ | .error _ | .invalid _ | .tupleFinal _ _ => 0

theorem bindingDepth_letrec_other {value : Expression}
    (notLambda : ¬value.IsLambda) (range : TokenRange) (id : Symbol)
    (body : Expression) : bindingDepth (.letrec range id value body) = 0 := by
  cases value with
  | lambda range id body => exact absurd trivial notLambda
  | _ => rfl

/-- No entry has a register, up to some above the first that is not live. -/
def View.Omits (apart : UInt8) (depth : Nat) (view : View) : Prop :=
  ∀ i ≤ view.top + depth, (view.bindings i).reg ≠ apart

/-- Code, result and bindings leave a register out. -/
structure Emission.Omits (apart : UInt8) (depth : Nat) (emission : Emission) :
    Prop where
  code : emission.code.Omits apart
  reg : emission.reg ≠ apart
  view : emission.view.Omits apart depth

theorem View.Omits.push {apart : UInt8} {depth : Nat} {view : View}
    (omits : view.Omits apart (depth + 1)) (symbol : Symbol) {reg : UInt8}
    (differs : reg ≠ apart) : (view.push symbol reg).Omits apart depth := by
  intro i reached
  simp only [View.push, Function.update_apply] at reached ⊢
  split
  · exact differs
  · exact omits i (by omega)

/-- The scope of a binding ends. -/
theorem View.Omits.pop {apart : UInt8} {depth : Nat} {view : View}
    (omits : view.Omits apart depth) (live : 0 < view.top) :
    view.pop.Omits apart (depth + 1) := by
  intro i reached
  simp only [View.pop] at reached ⊢
  exact omits i (by omega)

theorem View.Omits.search {apart : UInt8} {depth : Nat} {view : View}
    (omits : view.Omits apart depth) {id : Symbol} {reg : UInt8}
    (found : View.search view.bindings id view.top = some reg) :
    reg ≠ apart := by
  have reaches : ∀ top ≤ view.top,
      View.search view.bindings id top = some reg → reg ≠ apart := by
    intro top below found
    induction top with
    | zero =>
        unfold View.search at found
        split at found
        · exact Option.some.inj found ▸ omits 0 (Nat.zero_le _)
        · cases found
    | succ top ih =>
        unfold View.search at found
        split at found
        · exact Option.some.inj found ▸ omits (top + 1) (by omega)
        · exact ih (Nat.le_of_succ_le below) found
  exact reaches view.top (Nat.le_refl _) found

section

variable {apart : UInt8} {depth : Nat} (positive : apart ≠ 0)

include positive

end

end Millie.Compiler
