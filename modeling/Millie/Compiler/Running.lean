import Millie.Compiler.Blocks
import Millie.Machine.Exhaustion

/-!
# Running generated code

What a block of generated code makes of the registers and the memory, as a
relation that follows the structure of the code, and the ways in which a block
runs out of fuel.  A frame whose code holds the bytes of the block takes the
corresponding steps.
-/

namespace Millie.Compiler

open Relation
open Millie.Machine

instance decidableShort : DecidablePred Code.Short
  | .empty | .instruction _ | .operands _ => isTrue trivial
  | .seq first second =>
      @instDecidableAnd _ _ (decidableShort first) (decidableShort second)
  | .branch _ thenCode elseCode =>
      @instDecidableAnd _ _ inferInstance (@instDecidableAnd _ _ inferInstance
        (@instDecidableAnd _ _ (decidableShort thenCode)
          (decidableShort elseCode)))

/-- The registers of a frame and the memory. -/
structure Contents where
  registers : List Word
  memory : Memory

/-- The frame with these contents at an address. -/
def Contents.frame (contents : Contents) (ip : Nat) : FrameState :=
  ⟨contents.registers, ip, contents.memory⟩

/-- Running a block from its first byte to its end. -/
inductive Runs (module : Module) : Code → Contents → Contents → Prop where
  | empty (contents : Contents) : Runs module .empty contents contents
  | perform {i : Instruction} {before after : Contents} (plain : i.Plain)
      (performed : ∀ ip, perform module i (before.frame ip) =
        .ok (after.frame ip)) :
      Runs module (.instruction i) before after
  | call {funcReg argReg retReg : UInt8} {before : Contents}
      {callee : CompiledExpression} {entry registers : List Word}
      {retval : Word} {memory : Memory}
      (calls : Calls module (before.frame 0) funcReg argReg callee entry)
      (returns : Evaluates module callee ⟨entry, 0, before.memory⟩
        (retval, memory))
      (written : writeReg before.registers retReg retval = .ok registers) :
      Runs module (.instruction (.call funcReg argReg retReg)) before
        ⟨registers, memory⟩
  | seq {first second : Code} {before middle after : Contents}
      (firstRuns : Runs module first before middle)
      (secondRuns : Runs module second middle after) :
      Runs module (.seq first second) before after
  | taken {testReg : UInt8} {thenCode elseCode : Code}
      {before after : Contents}
      (test : readReg before.registers testReg >>= isZero = .ok false)
      (runs : Runs module thenCode before after) :
      Runs module (.branch testReg thenCode elseCode) before after
  | skipped {testReg : UInt8} {thenCode elseCode : Code}
      {before after : Contents}
      (test : readReg before.registers testReg >>= isZero = .ok true)
      (runs : Runs module elseCode before after) :
      Runs module (.branch testReg thenCode elseCode) before after

/-- Running a block up to a call that runs out of fuel. -/
inductive Stalls (module : Module) (bound : Nat) : Code → Contents → Prop where
  | call {funcReg argReg retReg : UInt8} {before : Contents}
      {callee : CompiledExpression} {entry : List Word}
      (calls : Calls module (before.frame 0) funcReg argReg callee entry)
      (exhausts : Exhausts module callee ⟨entry, 0, before.memory⟩ bound) :
      Stalls module bound (.instruction (.call funcReg argReg retReg)) before
  | first {first second : Code} {before : Contents}
      (stalls : Stalls module bound first before) :
      Stalls module bound (.seq first second) before
  | second {first second : Code} {before middle : Contents}
      (runs : Runs module first before middle)
      (stalls : Stalls module bound second middle) :
      Stalls module bound (.seq first second) before
  | taken {testReg : UInt8} {thenCode elseCode : Code} {before : Contents}
      (test : readReg before.registers testReg >>= isZero = .ok false)
      (stalls : Stalls module bound thenCode before) :
      Stalls module bound (.branch testReg thenCode elseCode) before
  | skipped {testReg : UInt8} {thenCode elseCode : Code} {before : Contents}
      (test : readReg before.registers testReg >>= isZero = .ok true)
      (stalls : Stalls module bound elseCode before) :
      Stalls module bound (.branch testReg thenCode elseCode) before

section

variable {module : Module} {function : CompiledExpression}
  {contents : Contents} {start : Nat}

/-- A test that is not zero goes on with the then arm. -/
theorem steps_taken {testReg : UInt8} {offset : UInt16}
    (test : readReg contents.registers testReg >>= isZero = .ok false)
    (placed : Placed function.code start
      (instructionBytes (.jz testReg offset))) :
    Step module function (contents.frame start) (contents.frame (start + 4)) := by
  have fetched : fetch function.code (contents.frame start).ip =
      .ok (.jz testReg offset, start + 4) := fetch_placed nofun placed
  rcases Stop.bind_eq_ok_iff.mp test with ⟨word, read, zero⟩
  refine .perform fetched trivial ?_
  simp only [perform, Contents.frame, read, zero, Stop.ok_bind]
  rfl

/-- A test that is zero jumps. -/
theorem steps_skipped {testReg : UInt8} {distance : Nat}
    (short : distance < 2 ^ 15)
    (test : readReg contents.registers testReg >>= isZero = .ok true)
    (placed : Placed function.code start
      (instructionBytes (.jz testReg (UInt16.ofNat distance)))) :
    Step module function (contents.frame start)
      (contents.frame (start + 4 + distance)) := by
  have fetched : fetch function.code (contents.frame start).ip =
      .ok (.jz testReg (UInt16.ofNat distance), start + 4) :=
    fetch_placed nofun placed
  rcases Stop.bind_eq_ok_iff.mp test with ⟨word, read, zero⟩
  refine .perform fetched trivial ?_
  simp only [perform, Contents.frame, read, zero, jumpTarget_short short,
    Stop.ok_bind]
  rfl

/-- The jump over the else arm. -/
theorem steps_leave {distance : Nat} (short : distance < 2 ^ 15)
    (placed : Placed function.code start
      (instructionBytes (.jmp (UInt16.ofNat distance)))) :
    Step module function (contents.frame start)
      (contents.frame (start + 3 + distance)) := by
  have fetched : fetch function.code (contents.frame start).ip =
      .ok (.jmp (UInt16.ofNat distance), start + 3) :=
    fetch_placed nofun placed
  refine .perform fetched trivial ?_
  simp only [perform, Contents.frame, jumpTarget_short short, Stop.ok_bind]
  rfl

/-- A frame that holds a block takes the steps of its run. -/
theorem Runs.steps {code : Code} {before after : Contents}
    (runs : Runs module code before after) (structured : code.Structured)
    (short : code.Short) (placed : Placed function.code start code.bytes) :
    Steps module function (before.frame start)
      (after.frame (start + code.bytes.length)) := by
  induction runs generalizing start with
  | empty contents => exact .refl
  | perform plain performed =>
      have fetched := fetch_placed (Code.straight_known structured) placed
      exact .single (.perform fetched plain (performed _))
  | call calls returns written =>
      have fetched := fetch_placed (Code.straight_known structured) placed
      exact .single (.call fetched calls returns written)
  | @seq first second before middle after firstRuns secondRuns firstIh
      secondIh =>
      have toMiddle := firstIh structured.1 short.1 placed.left
      have toEnd := secondIh structured.2 short.2 placed.right
      rw [Nat.add_assoc, ← List.length_append] at toEnd
      exact toMiddle.trans toEnd
  | @taken testReg thenCode elseCode before after test runs ih =>
      rcases short with ⟨shortThen, shortElse, thenShort, elseShort⟩
      rcases Code.placed_branch placed with ⟨jz, thenPlaced, jmp, elsePlaced⟩
      have toThen : Step module function (before.frame start)
          (before.frame (start + 4)) := steps_taken test jz
      have toJump := ih structured.1 thenShort thenPlaced
      have leave : Step module function _ (after.frame _) :=
        steps_leave shortElse jmp
      rw [Code.length_branch, ← Nat.add_assoc, ← Nat.add_assoc,
        ← Nat.add_assoc]
      exact .head toThen (toJump.tail leave)
  | @skipped testReg thenCode elseCode before after test runs ih =>
      rcases short with ⟨shortThen, shortElse, thenShort, elseShort⟩
      rcases Code.placed_branch placed with ⟨jz, thenPlaced, jmp, elsePlaced⟩
      have toElse : Step module function (before.frame start) _ :=
        steps_skipped shortThen test jz
      have toEnd := ih structured.2 elseShort elsePlaced
      rw [Code.length_branch, ← Nat.add_assoc, ← Nat.add_assoc,
        ← Nat.add_assoc]
      exact .head toElse toEnd

/-- A frame that holds a block runs out of fuel where the block does. -/
theorem Stalls.exhausts {bound : Nat} {code : Code} {before : Contents}
    (stalls : Stalls module bound code before) (structured : code.Structured)
    (short : code.Short) (placed : Placed function.code start code.bytes) :
    Exhausts module function (before.frame start) (bound + 1) := by
  induction stalls generalizing start with
  | call calls exhausts =>
      have fetched := fetch_placed (Code.straight_known structured) placed
      exact exhausts_call fetched calls exhausts
  | first stalls ih => exact ih structured.1 short.1 placed.left
  | second runs stalls ih =>
      have toMiddle := runs.steps structured.1 short.1 placed.left
      exact toMiddle.exhausts (ih structured.2 short.2 placed.right)
  | taken test stalls ih =>
      rcases short with ⟨shortThen, shortElse, thenShort, elseShort⟩
      rcases Code.placed_branch placed with ⟨jz, thenPlaced, jmp, elsePlaced⟩
      exact (steps_taken test jz).exhausts (ih structured.1 thenShort thenPlaced)
  | skipped test stalls ih =>
      rcases short with ⟨shortThen, shortElse, thenShort, elseShort⟩
      rcases Code.placed_branch placed with ⟨jz, thenPlaced, jmp, elsePlaced⟩
      exact (steps_skipped shortThen test jz).exhausts
        (ih structured.2 elseShort elsePlaced)

end

/-! ## Whole functions -/

section

variable {module : Module} {funcId : Nat} {body : Emission}
  {before after : Contents}

/-- A function whose body runs returns what its result register holds. -/
theorem Runs.evaluates {result : Word}
    (runs : Runs module body.code before after)
    (structured : body.code.Structured) (short : body.code.Short)
    (read : readReg after.registers body.reg = .ok result) :
    Evaluates module (finishedEntry funcId body) (before.frame 0)
      (result, after.memory) := by
  have placed : Placed (finishedEntry funcId body).code 0
      (body.code.bytes ++ instructionBytes .ret) := ⟨[], by simp [finishedEntry]⟩
  have steps := runs.steps structured short placed.left
  have known : Known .ret := nofun
  have fetched := fetch_placed known placed.right
  exact evaluates_iff.mpr ⟨_, steps, _, _, fetched, trivial, read, rfl⟩

/-- A function whose body runs out of fuel does. -/
theorem Stalls.function {bound : Nat}
    (stalls : Stalls module bound body.code before)
    (structured : body.code.Structured) (short : body.code.Short) :
    Exhausts module (finishedEntry funcId body) (before.frame 0)
      (bound + 1) := by
  have placed : Placed (finishedEntry funcId body).code 0
      (body.code.bytes ++ instructionBytes .ret) := ⟨[], by simp [finishedEntry]⟩
  exact stalls.exhausts structured short placed.left

end

end Millie.Compiler
