import Millie.Foundation.Approximation
import Millie.Types.Check

/-!
# More fuel

Whatever the type checker returns with some fuel, it returns with more.  The
loops that use fuel up are inductions on it, and everything else is composed of
them.
-/

namespace Millie.Types

open Weakest
open Millie.Symbols Millie.Syntax

variable {fuel more : Nat} {p q : TypePointer}

/-! ## Following links -/

/-- Without fuel nothing is returned. -/
theorem approximates_starved {α : Type} (other : GraphM α) :
    ApproximatesExcept (stop .outOfFuel) other :=
  .of_stops (fun _ => rfl) other

theorem pruneTypeExp_more (enough : fuel ≤ more) :
    ApproximatesExcept (pruneTypeExp fuel p) (pruneTypeExp more p) := by
  induction fuel generalizing more p with
  | zero => exact approximates_starved _
  | succ fuel ih =>
      cases more with
      | zero => cases enough
      | succ more =>
          rw [pruneTypeExp, pruneTypeExp]
          refine .bind (.refl _) fun exp => ?_
          split
          · exact ih (Nat.le_of_succ_le_succ enough)
          · exact .refl _

theorem isTypeContainedWithin_more (enough : fuel ≤ more) :
    ApproximatesExcept (isTypeContainedWithin q fuel p)
      (isTypeContainedWithin q more p) := by
  induction fuel generalizing more p with
  | zero => exact approximates_starved _
  | succ fuel ih =>
      cases more with
      | zero => cases enough
      | succ more =>
          have deeper : ∀ p, ApproximatesExcept
              (isTypeContainedWithin q fuel p)
              (isTypeContainedWithin q more p) :=
            fun _ => ih (Nat.le_of_succ_le_succ enough)
          rw [isTypeContainedWithin, isTypeContainedWithin]
          refine .ite (.refl _) (.bind (.refl _) fun exp => ?_)
          dsimp only
          split
          case' h_1 => refine .bind (.refl _) fun inFirst => ?_
          case' h_2 => refine .bind (deeper _) fun inFirst => ?_
          all_goals
            refine .ite (.refl _) ?_
            split
            · exact .refl _
            · exact deeper _
            · exact .refl _

theorem isTypeNonGeneric_more (enough : fuel ≤ more)
    (nonGenerics : List TypePointer) :
    ApproximatesExcept (isTypeNonGeneric fuel p nonGenerics)
      (isTypeNonGeneric more p nonGenerics) := by
  induction nonGenerics with
  | nil => exact .refl _
  | cons type nonGenerics ih =>
      rw [isTypeNonGeneric, isTypeNonGeneric]
      exact .bind (isTypeContainedWithin_more enough) fun _ => .ite (.refl _) ih

theorem cleanupTypeVariables_more (enough : fuel ≤ more) :
    ApproximatesExcept (cleanupTypeVariables fuel p)
      (cleanupTypeVariables more p) := by
  induction fuel generalizing more p with
  | zero => exact approximates_starved _
  | succ fuel ih =>
      cases more with
      | zero => cases enough
      | succ more =>
          have less := Nat.le_of_succ_le_succ enough
          have deeper : ∀ p, ApproximatesExcept (cleanupTypeVariables fuel p)
              (cleanupTypeVariables more p) := fun _ => ih less
          rw [cleanupTypeVariables, cleanupTypeVariables]
          refine .bind (pruneTypeExp_more less) fun type => ?_
          refine .bind (.refl _) fun exp => .ite (.refl _) ?_
          dsimp only
          split
          case' h_2 => refine .bind (deeper _) fun _ => ?_
          all_goals
            split
            · exact .refl _
            · exact deeper _
            · exact .refl _

/-! ## Copies and texts -/

theorem convertArguments_more
    {convert further : TypePointer → GraphM TypePointer}
    (converts : ∀ p, ApproximatesExcept (convert p) (further p))
    (exp : TypeExp) :
    ApproximatesExcept (convertArguments convert p exp)
      (convertArguments further p exp) := by
  have both : ∀ first second (next : TypePointer → TypePointer →
      GraphM TypePointer), ApproximatesExcept
        (do
          let argFirst ← convert first
          let argSecond ← convert second
          next argFirst argSecond)
        (do
          let argFirst ← further first
          let argSecond ← further second
          next argFirst argSecond) :=
    fun first second next => .bind (converts first) fun _ =>
      .bind (converts second) fun _ => .refl _
  unfold convertArguments
  split
  · exact both _ _ _
  · exact both _ _ _
  · exact .bind (converts _) fun _ => .refl _
  · exact .refl _
  · exact .refl _
  · exact .refl _
  · exact .refl _

theorem makeGenericTypeExpImpl_more (enough : fuel ≤ more)
    (nonGenerics : List TypePointer) :
    ApproximatesExcept (makeGenericTypeExpImpl nonGenerics fuel p)
      (makeGenericTypeExpImpl nonGenerics more p) := by
  induction fuel generalizing more p with
  | zero => exact approximates_starved _
  | succ fuel ih =>
      cases more with
      | zero => cases enough
      | succ more =>
          have less := Nat.le_of_succ_le_succ enough
          rw [makeGenericTypeExpImpl, makeGenericTypeExpImpl]
          refine .bind (pruneTypeExp_more less) fun type => ?_
          refine .bind (.refl _) fun exp => ?_
          split
          · split
            · exact .refl _
            · exact .refl _
            · exact .bind (isTypeNonGeneric_more less nonGenerics) fun _ =>
                .refl _
          · exact convertArguments_more (fun _ => ih less) exp

theorem makeGenericTypeExp_more (enough : fuel ≤ more)
    (nonGenerics : List TypePointer) :
    ApproximatesExcept (makeGenericTypeExp fuel p nonGenerics)
      (makeGenericTypeExp more p nonGenerics) :=
  .bind (makeGenericTypeExpImpl_more enough nonGenerics) fun _ =>
    .bind (cleanupTypeVariables_more enough) fun _ => .refl _

theorem makeFreshTypeExpCopy_more (enough : fuel ≤ more) :
    ApproximatesExcept (makeFreshTypeExpCopy fuel p)
      (makeFreshTypeExpCopy more p) := by
  induction fuel generalizing more p with
  | zero => exact approximates_starved _
  | succ fuel ih =>
      cases more with
      | zero => cases enough
      | succ more =>
          have less := Nat.le_of_succ_le_succ enough
          rw [makeFreshTypeExpCopy, makeFreshTypeExpCopy]
          refine .bind (pruneTypeExp_more less) fun type => ?_
          refine .bind (.refl _) fun exp => ?_
          split
          · exact .refl _
          · exact .refl _
          · exact convertArguments_more (fun _ => ih less) exp

theorem makeFreshTypeExp_more (enough : fuel ≤ more) :
    ApproximatesExcept (makeFreshTypeExp fuel p) (makeFreshTypeExp more p) :=
  .bind (makeFreshTypeExpCopy_more enough) fun _ =>
    .bind (cleanupTypeVariables_more enough) fun _ => .refl _

theorem formatTypeExpressionImpl_more (enough : fuel ≤ more) (counter : Nat) :
    ApproximatesExcept (formatTypeExpressionImpl fuel p counter)
      (formatTypeExpressionImpl more p counter) := by
  induction fuel generalizing more p counter with
  | zero => exact approximates_starved _
  | succ fuel ih =>
      cases more with
      | zero => cases enough
      | succ more =>
          have less := Nat.le_of_succ_le_succ enough
          rw [formatTypeExpressionImpl, formatTypeExpressionImpl]
          refine .bind (pruneTypeExp_more less) fun type => ?_
          refine .bind (.refl _) fun exp => ?_
          split
          case h_8 =>
            exact .bind (ih less counter) fun _ => .bind (ih less _) fun _ =>
              .refl _
          case h_9 =>
            exact .bind (ih less counter) fun _ => .bind (ih less _) fun _ =>
              .refl _
          case h_10 => exact ih less counter
          all_goals exact .refl _

theorem formatTypeExpression_more (enough : fuel ≤ more) :
    ApproximatesExcept (formatTypeExpression fuel p)
      (formatTypeExpression more p) :=
  .bind (formatTypeExpressionImpl_more enough 0) fun _ =>
    .bind (cleanupTypeVariables_more enough) fun _ => .refl _

/-! ## Unification -/

section

variable {tokens : Tokens} {context : UnifyContext} {range : TokenRange}
  {errorCode : UnificationError}

theorem onGraph_more {α : Type} {step other : GraphM α}
    (approximates : ApproximatesExcept step other) :
    Approximates (onGraph step) (onGraph other) := by
  intro state value after returns
  rw [onGraph] at returns ⊢
  rcases run : step state.graph with stop | ⟨result, graph⟩
  · rw [run] at returns
    cases returns
  · rw [run] at returns
    rw [approximates _ _ _ run]
    exact returns

theorem unificationMessage_more (enough : fuel ≤ more) :
    ApproximatesExcept (unificationMessage fuel context)
      (unificationMessage more context) := by
  unfold unificationMessage
  refine .bind (formatTypeExpression_more enough) fun argOne => ?_
  cases context.errorCode with
  | ifConditionBoolean => exact .refl _
  | _ => exact .bind (formatTypeExpression_more enough) fun _ => .refl _

theorem reportUnificationFailure_more (enough : fuel ≤ more) :
    Approximates (reportUnificationFailure tokens fuel context)
      (reportUnificationFailure tokens more context) :=
  .bind (onGraph_more (unificationMessage_more enough)) fun _ => .refl _

theorem unifyVariable_more (enough : fuel ≤ more) :
    Approximates (unifyVariable tokens fuel context p q)
      (unifyVariable tokens more context p q) := by
  unfold unifyVariable
  exact .ite (.refl _)
    (.bind (onGraph_more (isTypeContainedWithin_more enough)) fun _ =>
      .ite (.bind (reportUnificationFailure_more enough) fun _ => .refl _)
        (.refl _))

theorem unifyArguments_more
    {unify further : UnifyContext → TypePointer → TypePointer →
      CheckM UnifyContext}
    (unifies : ∀ context p q,
      Approximates (unify context p q) (further context p q))
    (one two : TypeExp) :
    Approximates (unifyArguments unify context one two)
      (unifyArguments further context one two) := by
  unfold unifyArguments
  dsimp only
  split
  case' h_1 => refine .bind (.refl _) fun context => ?_
  case' h_2 => refine .bind (unifies _ _ _) fun context => ?_
  case' h_3 => refine .bind (.refl _) fun context => ?_
  all_goals
    split
    · exact .refl _
    · exact unifies _ _ _
    · exact .refl _

theorem unifyImpl_more (enough : fuel ≤ more) :
    Approximates (unifyImpl tokens fuel context p q)
      (unifyImpl tokens more context p q) := by
  induction fuel generalizing more context p q with
  | zero =>
      intro state value after returns
      cases returns
  | succ fuel ih =>
      cases more with
      | zero => cases enough
      | succ more =>
          have less := Nat.le_of_succ_le_succ enough
          rw [unifyImpl, unifyImpl]
          refine .bind (onGraph_more (pruneTypeExp_more less)) fun typeOne => ?_
          refine .bind (onGraph_more (pruneTypeExp_more less)) fun typeTwo => ?_
          refine .bind (.refl _) fun isError => .ite (.refl _) ?_
          refine .bind (.refl _) fun isError => .ite (.refl _) ?_
          refine .bind (.refl _) fun two => .bind (.refl _) fun one => ?_
          refine .ite (unifyVariable_more less) (.bind (.refl _) fun two => ?_)
          exact .ite
            (.bind (reportUnificationFailure_more less) fun _ => .refl _)
            (unifyArguments_more (fun _ _ _ => ih less) one two)

theorem unify_more (enough : fuel ≤ more) :
    Approximates (unify tokens fuel range errorCode p q)
      (unify tokens more range errorCode p q) :=
  .bind (.refl _) fun _ => .bind (unifyImpl_more enough) fun _ => .refl _

end

/-! ## The analysis -/

section

variable {tokens : Tokens} {range : TokenRange} {id : Symbol}
  {env : TypeEnvironment} {nonGenerics : NonGenericTypeList}

theorem lookupType_more (enough : fuel ≤ more) (env : TypeEnvironment) :
    ApproximatesExcept (lookupType fuel id env) (lookupType more id env) := by
  induction env with
  | nil => exact .refl _
  | cons binding env ih =>
      rw [lookupType, lookupType]
      exact .ite (.bind (makeFreshTypeExp_more enough) fun _ => .refl _) ih

theorem unifyOperand_more (enough : fuel ≤ more)
    (required : Option TypePointer) :
    Approximates (unifyOperand tokens fuel range p required)
      (unifyOperand tokens more range p required) := by
  cases required with
  | none => exact .refl _
  | some type => exact unify_more enough

/-- Whatever the analysis returns with some fuel, it returns with more. -/
theorem analyze_more (enough : fuel ≤ more) (expression : Expression)
    (env : TypeEnvironment) (nonGenerics : NonGenericTypeList) :
    Approximates (analyze tokens fuel expression env nonGenerics)
      (analyze tokens more expression env nonGenerics) := by
  have returns : ∀ {result other : CheckM TypePointer},
      Approximates result other →
        Approximates (returning result) (returning other) :=
    fun approximates => .bind approximates fun _ => .refl _
  induction expression generalizing env nonGenerics with
  | identifier range id =>
      exact returns (.bind (.refl _) fun _ =>
        .bind (onGraph_more (lookupType_more enough env)) fun _ => .refl _)
  | apply range function argument functionIh argumentIh =>
      refine returns (.bind (functionIh env nonGenerics) fun functionType => ?_)
      refine .bind (argumentIh env nonGenerics) fun argType => ?_
      refine .bind (.refl _) fun _ => .ite (.refl _) ?_
      refine .bind (.refl _) fun _ => .ite (.refl _) ?_
      exact .bind (.refl _) fun _ => .bind (.refl _) fun _ =>
        .bind (unify_more enough) fun _ => .refl _
  | lambda range id body bodyIh =>
      exact returns (.bind (.refl _) fun _ => .bind (bodyIh _ _) fun _ =>
        .refl _)
  | let_ range id value body valueIh bodyIh =>
      exact returns (.bind (valueIh env nonGenerics) fun _ =>
        .bind (onGraph_more (makeGenericTypeExp_more enough nonGenerics))
          fun _ => bodyIh _ nonGenerics)
  | letrec range id value body valueIh bodyIh =>
      refine returns (.bind (.refl _) fun newType => ?_)
      refine .bind (valueIh _ _) fun defnType => ?_
      refine .bind (unify_more enough) fun _ => .bind (.refl _) fun _ => ?_
      exact .bind (onGraph_more (makeGenericTypeExp_more enough nonGenerics))
        fun _ => .bind (.refl _) fun _ => .bind (.refl _) fun _ =>
          bodyIh _ nonGenerics
  | if_ range test thenArm elseArm testIh thenIh elseIh =>
      refine returns (.bind (testIh env nonGenerics) fun _ => ?_)
      exact .bind (unify_more enough) fun _ =>
        .bind (thenIh env nonGenerics) fun _ =>
          .bind (elseIh env nonGenerics) fun _ =>
            .bind (unify_more enough) fun _ => .refl _
  | binary range operator left right leftIh rightIh =>
      refine returns (.bind (leftIh env nonGenerics) fun _ =>
        .bind (rightIh env nonGenerics) fun _ => ?_)
      split
      · exact .refl _
      · exact .bind (unifyOperand_more enough _) fun _ =>
          .bind (unifyOperand_more enough _) fun _ =>
            .bind (unify_more enough) fun _ => .refl _
  | unary range operator arg argIh => exact returns (argIh env nonGenerics)
  | tuple range first rest length firstIh restIh =>
      exact returns (.bind (firstIh env nonGenerics) fun _ =>
        .bind (restIh env nonGenerics) fun _ => .refl _)
  | tupleFinal range first firstIh =>
      exact returns (.bind (firstIh env nonGenerics) fun _ => .refl _)
  | _ => exact .refl _

end

end Millie.Types
