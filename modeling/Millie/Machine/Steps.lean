import Millie.Machine.Evaluate
import Mathlib.Logic.Relation

/-!
# Steps of a frame

`EvaluateCode` in one frame as a relation: one step for each instruction, a call
being one step of the frame that makes it.  Evaluating a frame is taking steps
up to the instruction that ends it.
-/

namespace Millie.Machine

open Relation
open Millie.Compiler

/-! ## Fuel -/

/-- A frame evaluates to a result with enough fuel. -/
def Evaluates (module : Module) (code : CompiledExpression)
    (frame : FrameState) (result : Word × Memory) : Prop :=
  ∃ fuel, runFrame module fuel code frame = .ok result

/-- An instruction that only changes its frame. -/
def Instruction.Plain : Instruction → Prop
  | .ret | .unknown _ | .call _ _ _ => False
  | _ => True

/-- An instruction that ends its frame. -/
def Instruction.Halts : Instruction → Prop
  | .ret | .unknown _ => True
  | _ => False

section

variable {module : Module} {fuel ip : Nat} {code : CompiledExpression}
    {frame : FrameState} {instruction : Instruction}

theorem runFrame_plain (fetched : fetch code.code frame.ip = .ok (instruction, ip))
    (plain : instruction.Plain) :
    runFrame module (fuel + 1) code frame =
      (perform module instruction { frame with ip := ip } >>=
        runFrame module fuel code) := by
  rw [runFrame, fetched, Stop.ok_bind]
  cases instruction <;> first | exact plain.elim | rfl

theorem runFrame_halts (fetched : fetch code.code frame.ip = .ok (instruction, ip))
    (halts : instruction.Halts) :
    runFrame module (fuel + 1) code frame =
      (readReg frame.registers code.resultRegister >>= fun result =>
        .ok (result, frame.memory)) := by
  rw [runFrame, fetched, Stop.ok_bind]
  cases instruction <;> first | exact halts.elim | rfl

/-- What a call does before it runs the callee. -/
def Calls (module : Module) (frame : FrameState) (funcReg argReg : UInt8)
    (callee : CompiledExpression) (entry : List Word) : Prop :=
  ∃ closure arg, readReg frame.registers funcReg = .ok closure ∧
    calledFunction module frame.memory closure = .ok callee ∧
    readReg frame.registers argReg = .ok arg ∧
    enterFrame callee closure arg = .ok entry

theorem runFrame_call {funcReg argReg retReg : UInt8} {result : Word × Memory}
    (fetched : fetch code.code frame.ip =
      .ok (.call funcReg argReg retReg, ip)) :
    runFrame module (fuel + 1) code frame = .ok result ↔
      ∃ callee entry retval memory registers,
        Calls module frame funcReg argReg callee entry ∧
        runFrame module fuel callee ⟨entry, 0, frame.memory⟩ =
          .ok (retval, memory) ∧
        writeReg frame.registers retReg retval = .ok registers ∧
        runFrame module fuel code ⟨registers, ip, memory⟩ = .ok result := by
  rw [runFrame, fetched, Stop.ok_bind]
  dsimp only
  simp only [Stop.bind_eq_ok_iff]
  constructor
  · rintro ⟨closure, closureIs, callee, calleeIs, arg, argIs, entry, entered,
      ⟨retval, memory⟩, returns, registers, written, rest⟩
    exact ⟨callee, entry, retval, memory, registers,
      ⟨closure, arg, closureIs, calleeIs, argIs, entered⟩, returns, written,
      rest⟩
  · rintro ⟨callee, entry, retval, memory, registers,
      ⟨closure, arg, closureIs, calleeIs, argIs, entered⟩, returns, written,
      rest⟩
    exact ⟨closure, closureIs, callee, calleeIs, arg, argIs, entry, entered,
      (retval, memory), returns, registers, written, rest⟩

end

theorem Instruction.kinds (instruction : Instruction) :
    instruction.Plain ∨ instruction.Halts ∨
      ∃ funcReg argReg retReg, instruction = .call funcReg argReg retReg := by
  cases instruction with
  | ret => exact .inr (.inl trivial)
  | unknown op => exact .inr (.inl trivial)
  | call funcReg argReg retReg => exact .inr (.inr ⟨_, _, _, rfl⟩)
  | _ => exact .inl trivial

/-- More fuel changes no result. -/
theorem runFrame_mono {module : Module} {fuel more : Nat}
    {code : CompiledExpression} {frame : FrameState} {result : Word × Memory}
    (runs : runFrame module fuel code frame = .ok result)
    (enough : fuel ≤ more) : runFrame module more code frame = .ok result := by
  induction fuel generalizing more code frame result with
  | zero => cases runs
  | succ fuel ih =>
      rcases Nat.exists_eq_add_of_le' (Nat.le_trans (Nat.le_add_left 1 fuel)
        enough) with ⟨more, rfl⟩
      have enough := Nat.le_of_succ_le_succ enough
      cases fetched : fetch code.code frame.ip with
      | error stop =>
          rw [runFrame, fetched] at runs
          cases runs
      | ok next =>
          rcases next with ⟨instruction, ip⟩
          rcases instruction.kinds with plain | halts |
            ⟨funcReg, argReg, retReg, rfl⟩
          · rw [runFrame_plain fetched plain] at runs ⊢
            rcases Stop.bind_eq_ok_iff.mp runs with ⟨after, performed, rest⟩
            rw [performed]
            exact ih rest enough
          · rw [runFrame_halts fetched halts] at runs ⊢
            exact runs
          · rcases (runFrame_call fetched).mp runs with
              ⟨callee, entry, retval, memory, registers, calls, returns,
                written, rest⟩
            exact (runFrame_call fetched).mpr
              ⟨callee, entry, retval, memory, registers, calls,
                ih returns enough, written, ih rest enough⟩

/-! ## Steps -/

/-- One instruction of a frame that does not end it. -/
inductive Step (module : Module) (code : CompiledExpression) :
    FrameState → FrameState → Prop where
  | perform {frame after : FrameState} {instruction : Instruction} {ip : Nat}
      (fetched : fetch code.code frame.ip = .ok (instruction, ip))
      (plain : instruction.Plain)
      (performed : perform module instruction { frame with ip := ip } =
        .ok after) : Step module code frame after
  | call {frame : FrameState} {funcReg argReg retReg : UInt8} {ip : Nat}
      {callee : CompiledExpression} {entry registers : List Word}
      {retval : Word} {memory : Memory}
      (fetched : fetch code.code frame.ip =
        .ok (.call funcReg argReg retReg, ip))
      (calls : Calls module frame funcReg argReg callee entry)
      (returns : Evaluates module callee ⟨entry, 0, frame.memory⟩
        (retval, memory))
      (written : writeReg frame.registers retReg retval = .ok registers) :
      Step module code frame ⟨registers, ip, memory⟩

/-- Steps in one frame. -/
abbrev Steps (module : Module) (code : CompiledExpression) :
    FrameState → FrameState → Prop :=
  ReflTransGen (Step module code)

/-- The frame ends here with a result. -/
def Ends (code : CompiledExpression) (frame : FrameState)
    (result : Word × Memory) : Prop :=
  ∃ instruction ip, fetch code.code frame.ip = .ok (instruction, ip) ∧
    instruction.Halts ∧
    readReg frame.registers code.resultRegister = .ok result.1 ∧
    frame.memory = result.2

theorem Step.evaluates {module : Module} {code : CompiledExpression}
    {frame after : FrameState} {result : Word × Memory}
    (step : Step module code frame after)
    (rest : Evaluates module code after result) :
    Evaluates module code frame result := by
  rcases rest with ⟨fuel, rest⟩
  cases step with
  | perform fetched plain performed =>
      refine ⟨fuel + 1, ?_⟩
      rw [runFrame_plain fetched plain, performed]
      exact rest
  | call fetched calls returns written =>
      rcases returns with ⟨callFuel, returns⟩
      refine ⟨max callFuel fuel + 1, (runFrame_call fetched).mpr ?_⟩
      exact ⟨_, _, _, _, _, calls, runFrame_mono returns (Nat.le_max_left _ _),
        written, runFrame_mono rest (Nat.le_max_right _ _)⟩

/-- Evaluating a frame is stepping to its end. -/
theorem evaluates_iff {module : Module} {code : CompiledExpression}
    {frame : FrameState} {result : Word × Memory} :
    Evaluates module code frame result ↔
      ∃ last, Steps module code frame last ∧ Ends code last result := by
  constructor
  · rintro ⟨fuel, runs⟩
    induction fuel generalizing frame with
    | zero => cases runs
    | succ fuel ih =>
        cases fetched : fetch code.code frame.ip with
        | error stop =>
            rw [runFrame, fetched] at runs
            cases runs
        | ok next =>
            rcases next with ⟨instruction, ip⟩
            rcases instruction.kinds with plain | halts |
              ⟨funcReg, argReg, retReg, rfl⟩
            · rw [runFrame_plain fetched plain] at runs
              rcases Stop.bind_eq_ok_iff.mp runs with ⟨after, performed, rest⟩
              rcases ih rest with ⟨last, steps, ends⟩
              exact ⟨last, .head (.perform fetched plain performed) steps, ends⟩
            · rw [runFrame_halts fetched halts] at runs
              rcases Stop.bind_eq_ok_iff.mp runs with ⟨word, read, same⟩
              cases same
              exact ⟨frame, .refl, instruction, ip, fetched, halts, read, rfl⟩
            · rcases (runFrame_call fetched).mp runs with
                ⟨callee, entry, retval, memory, registers, calls, returns,
                  written, rest⟩
              rcases ih rest with ⟨last, steps, ends⟩
              exact ⟨last, .head (.call fetched calls ⟨fuel, returns⟩ written)
                steps, ends⟩
  · rintro ⟨last, steps, instruction, ip, fetched, halts, read, memory⟩
    induction steps using ReflTransGen.head_induction_on with
    | refl =>
        refine ⟨1, ?_⟩
        rw [runFrame_halts fetched halts, read, memory]
        rfl
    | head step _ ih => exact step.evaluates ih

end Millie.Machine
