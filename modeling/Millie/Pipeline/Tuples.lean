import Millie.Compiler.Tuples
import Millie.Pipeline.Printing
import Millie.Types.Check

/-!
# Tuples from source to text

The compiler never builds a tuple from its components, but what is in the slots
of an array prints component by component.
-/

namespace Millie.Pipeline

open Millie.Compiler Millie.Machine Millie.Symbols Millie.Syntax
open Millie.Types

/-- The memory and the text that the driver leaves. -/
def printed (fuel : Nat) (expression : Expression) :
    Option (Memory × String) :=
  match getExpressionType zeroedInput.tokens fuel expression,
      compileModule zeroedInput expression with
  | (.ok type, checked), .ok (funcId, after) =>
      match evaluateCode after.module fuel funcId (.int 0) (.int 0) [] with
      | .ok (value, memory) =>
          match formatValue checked.graph after.module memory fuel value
            type with
          | .ok text =>
              if checked.errors.isEmpty && after.errors.isEmpty then
                some (memory, text)
              else none
          | .error _ => none
      | .error _ => none
  | _, _ => none

/-- `(1, last)`. -/
def pair (last : Expression) : Expression :=
  .tuple ⟨0, 0⟩ (.integerConstant ⟨0, 0⟩ 1) (.tupleFinal ⟨0, 0⟩ last) 2

end Millie.Pipeline
