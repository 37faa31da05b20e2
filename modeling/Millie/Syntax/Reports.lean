import Millie.Foundation.Emission
import Millie.Syntax.Parsing

/-!
# Where the parser reports

Every report of the parser is at a token of its array, in a run that returns and
in one that stops.
-/

namespace Millie.Syntax

open Weakest
open Millie.Symbols

/-- The steps of the parser that are not looked into. -/
inductive Atomic : ∀ ⦃α : Type⦄, ParseM α → Prop where
  | get : Atomic (get : ParseM ParseContext)
  | set (context : ParseContext) : Atomic (set context : ParseM PUnit)
  | modify (change : ParseContext → ParseContext) :
      Atomic (modify change : ParseM PUnit)
  | lift {α : Type} (result : Except ParseStop α) :
      Atomic (liftM result : ParseM α)
  | throw {α : Type} (stop : ParseStop) : Atomic (throw stop : ParseM α)

section

variable {source : MillieTokens} {intern : Intern} {fine : ErrorReport → Prop}

/-- A step of the parser reports fine errors only. -/
abbrev Reports {α : Type} (fine : ErrorReport → Prop) (step : ParseM α) :
    Prop :=
  EmitsExcept ParseContext.errors fine Atomic step

/-! ## Steps that report nothing -/

/-- Reports at a token of the array are fine. -/
def Reportable (source : MillieTokens) (fine : ErrorReport → Prop) : Prop :=
  ∀ token ∈ source.tokenArray, ∀ message,
    fine ⟨message, token.start, token.start + token.length⟩

variable (reportable : Reportable source fine)

include reportable

variable {recurse : Production → ParseM Expression}
  (recurses : ∀ production, Reports fine (recurse production))

include recurses

omit recurses

end

end Millie.Syntax
