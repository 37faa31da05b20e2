import Millie.Compiler.Closures
import Millie.Pipeline.Resolution

/-!
# Closure layouts of accepted expressions

An expression that the type checker accepts is closed, so every symbol that a
function captures is bound in one around it.
-/

namespace Millie.Pipeline

open Millie.Symbols Millie.Syntax Millie.Types Millie.Compiler

/--
For an expression that the type checker accepts and the compiler compiles without
an error, creators and callees agree on every closure if and only if nothing gets
in the way of filling one.
-/
theorem closures_agree_iff {input : CompileInput} {expression : Expression}
    {funcId : Nat} {after : CompileState}
    (accepts : Accepts input.tokens expression)
    (returns : compileModule input expression = .ok (funcId, after))
    (quiet : after.errors = []) :
    ClosuresAgree input expression after ↔
      ∀ f ∈ moduleFunctions input expression, ∀ c ∈ f.creations input,
        c.Undisturbed input :=
  closed_closures_agree_iff returns quiet accepts.closed

/-- What acceptance by both means. -/
theorem accepted_spec {fuel : Nat} {expression : Expression}
    (both : accepted fuel expression = true) :
    Accepts zeroedInput.tokens expression ∧ ∃ funcId after,
      compileModule zeroedInput expression = .ok (funcId, after) ∧
        after.errors = [] := by
  rcases accepted_runs both with
    ⟨type, checked, funcId, after, checks, accepts, compiles, quiet⟩
  exact ⟨⟨fuel, type, checked, checks, accepts⟩, funcId, after, compiles, quiet⟩

/-- `fn x => fn y => fn z => x + (y + z)`. -/
def nestedCapture : Expression :=
  .lambda ⟨0, 0⟩ 1 (.lambda ⟨0, 0⟩ 2 (.lambda ⟨0, 0⟩ 3
    (.binary ⟨0, 0⟩ .tokPlus (.identifier ⟨0, 0⟩ 1)
      (.binary ⟨0, 0⟩ .tokPlus (.identifier ⟨0, 0⟩ 2)
        (.identifier ⟨0, 0⟩ 3)))))

/-- The closures of `fn x => fn y => fn z => x + (y + z)` agree. -/
theorem closures_agree_nested : ∃ funcId after,
    Accepts zeroedInput.tokens nestedCapture ∧
      compileModule zeroedInput nestedCapture = .ok (funcId, after) ∧
      after.errors = [] ∧ ClosuresAgree zeroedInput nestedCapture after := by
  have both : accepted 20 nestedCapture = true := by decide +kernel
  rcases accepted_spec both with ⟨accepts, funcId, after, returns, quiet⟩
  exact ⟨funcId, after, accepts, returns, quiet,
    (closures_agree_iff accepts returns quiet).mpr (by decide +kernel)⟩

/-- `let y = 5 in (let y = 1 in y) + (fn x => x + y) 2`. -/
def shadowedCapture : Expression :=
  .let_ ⟨0, 0⟩ 1 (.integerConstant ⟨0, 0⟩ 5)
    (.binary ⟨0, 0⟩ .tokPlus
      (.let_ ⟨0, 0⟩ 1 (.integerConstant ⟨0, 0⟩ 1) (.identifier ⟨0, 0⟩ 1))
      (.apply ⟨0, 0⟩
        (.lambda ⟨0, 0⟩ 2 (.binary ⟨0, 0⟩ .tokPlus (.identifier ⟨0, 0⟩ 2)
          (.identifier ⟨0, 0⟩ 1)))
        (.integerConstant ⟨0, 0⟩ 2)))

/--
In `let y = 5 in (let y = 1 in y) + (fn x => x + y) 2` the closure's slot is
filled from the ended binding.
-/
theorem closures_shadowed : ∃ funcId after,
    Accepts zeroedInput.tokens shadowedCapture ∧
      compileModule zeroedInput shadowedCapture = .ok (funcId, after) ∧
      after.errors = [] ∧
      ¬ClosuresAgree zeroedInput shadowedCapture after := by
  have both : accepted 20 shadowedCapture = true := by decide +kernel
  rcases accepted_spec both with ⟨accepts, funcId, after, returns, quiet⟩
  refine ⟨funcId, after, accepts, returns, quiet, fun agree => ?_⟩
  rw [closed_closures_agree_iff returns quiet accepts.closed] at agree
  exact absurd agree (by decide +kernel)

end Millie.Pipeline
