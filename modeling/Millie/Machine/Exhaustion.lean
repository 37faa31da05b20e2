import Millie.Machine.Steps

/-!
# Running out of fuel

A run that stops for another reason than its fuel stops in the same way with any
more of it.  A frame that runs out of fuel does so from every frame that steps
to it, and from every frame that calls it.
-/

namespace Millie.Machine

open Relation
open Millie.Compiler

/-! ## Settled runs -/

/-- More fuel changes nothing about a run that does not run out of it. -/
theorem runFrame_settled {module : Module} {fuel more : Nat}
    {code : CompiledExpression} {frame : FrameState}
    (settled : runFrame module fuel code frame ≠ .error .outOfFuel)
    (enough : fuel ≤ more) :
    runFrame module more code frame = runFrame module fuel code frame := by
  induction fuel generalizing more code frame with
  | zero => exact absurd rfl settled
  | succ fuel ih =>
      rcases Nat.exists_eq_add_of_le' (Nat.le_trans (Nat.le_add_left 1 fuel)
        enough) with ⟨more, rfl⟩
      have enough := Nat.le_of_succ_le_succ enough
      cases fetched : fetch code.code frame.ip with
      | error stop =>
          rw [runFrame, runFrame, fetched, Stop.error_bind, Stop.error_bind]
      | ok next =>
          rcases next with ⟨instruction, ip⟩
          rcases instruction.kinds with plain | halts |
            ⟨funcReg, argReg, retReg, rfl⟩
          · rw [runFrame_plain fetched plain] at settled ⊢
            rw [runFrame_plain fetched plain]
            refine Stop.bind_settled settled (fun _ => rfl) fun after rest => ?_
            exact ih rest enough
          · rw [runFrame_halts fetched halts, runFrame_halts fetched halts]
          · rw [runFrame, fetched, Stop.ok_bind] at settled ⊢
            rw [runFrame, fetched, Stop.ok_bind]
            refine Stop.bind_settled settled (fun _ => rfl)
              fun closure rest => ?_
            refine Stop.bind_settled rest (fun _ => rfl) fun callee rest => ?_
            refine Stop.bind_settled rest (fun _ => rfl) fun arg rest => ?_
            refine Stop.bind_settled rest (fun _ => rfl) fun entry rest => ?_
            refine Stop.bind_settled rest (fun callee => ih callee enough)
              fun result rest => ?_
            refine Stop.bind_settled rest (fun _ => rfl) fun registers rest => ?_
            exact ih rest enough

/-- With less fuel a run that has a result gives it or runs out. -/
theorem Evaluates.cut {module : Module} {code : CompiledExpression}
    {frame : FrameState} {result : Word × Memory}
    (evaluates : Evaluates module code frame result) (fuel : Nat) :
    runFrame module fuel code frame = .ok result ∨
      runFrame module fuel code frame = .error .outOfFuel := by
  rcases evaluates with ⟨enough, returns⟩
  by_cases settled : runFrame module fuel code frame = .error .outOfFuel
  · exact .inr settled
  · have more := runFrame_settled settled (Nat.le_max_left fuel enough)
    rw [runFrame_mono returns (Nat.le_max_right fuel enough)] at more
    exact .inl more.symm

/-! ## Exhausted frames -/

/-- A frame runs out of every amount of fuel up to a bound. -/
def Exhausts (module : Module) (code : CompiledExpression)
    (frame : FrameState) (bound : Nat) : Prop :=
  ∀ fuel ≤ bound, runFrame module fuel code frame = .error .outOfFuel

section

variable {module : Module} {code : CompiledExpression}
  {frame after : FrameState} {bound : Nat}

/-- A step before a frame that runs out of fuel. -/
theorem Step.exhausts (step : Step module code frame after)
    (rest : Exhausts module code after bound) :
    Exhausts module code frame bound := by
  intro fuel enough
  cases fuel with
  | zero => rfl
  | succ fuel =>
      have later := rest fuel (Nat.le_of_succ_le enough)
      cases step with
      | perform fetched plain performed =>
          rw [runFrame_plain fetched plain, performed]
          exact later
      | call fetched calls returns written =>
          rcases calls with ⟨closure, arg, closureIs, calleeIs, argIs, entered⟩
          rw [runFrame, fetched, Stop.ok_bind]
          simp only [closureIs, calleeIs, argIs, entered, Stop.ok_bind]
          rcases returns.cut fuel with result | stops
          · simp only [result, written, Stop.ok_bind]
            exact later
          · rw [stops, Stop.error_bind]

theorem Steps.exhausts (steps : Steps module code frame after)
    (rest : Exhausts module code after bound) :
    Exhausts module code frame bound := by
  induction steps using ReflTransGen.head_induction_on with
  | refl => exact rest
  | head step _ ih => exact step.exhausts ih

/-- A call of a function that runs out of fuel takes one unit itself. -/
theorem exhausts_call {funcReg argReg retReg : UInt8} {ip : Nat}
    {callee : CompiledExpression} {entry : List Word}
    (fetched : fetch code.code frame.ip =
      .ok (.call funcReg argReg retReg, ip))
    (calls : Calls module frame funcReg argReg callee entry)
    (stalls : Exhausts module callee ⟨entry, 0, frame.memory⟩ bound) :
    Exhausts module code frame (bound + 1) := by
  intro fuel enough
  cases fuel with
  | zero => rfl
  | succ fuel =>
      rcases calls with ⟨closure, arg, closureIs, calleeIs, argIs, entered⟩
      rw [runFrame, fetched, Stop.ok_bind]
      simp only [closureIs, calleeIs, argIs, entered, Stop.ok_bind]
      rw [stalls fuel (Nat.le_of_succ_le_succ enough), Stop.error_bind]

end

end Millie.Machine
