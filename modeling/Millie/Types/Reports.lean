import Millie.Foundation.Emission
import Millie.Syntax.Parsing
import Millie.Types.Check

/-!
# Where the type checker reports

Every report of the type checker is at the token range of a node of the
expression that it analyses, in a run that returns and in one that stops.
-/

namespace Millie.Types

open Weakest
open Millie.Symbols Millie.Syntax

/-- Reports at a token range are fine. -/
def Reportable (tokens : Tokens) (fine : ErrorReport → Prop)
    (range : TokenRange) : Prop :=
  ∀ message, fine ⟨message, (tokens range.startToken).start,
    (tokens range.endToken).start + (tokens range.endToken).length⟩

section

variable {tokens : Tokens} {fine : ErrorReport → Prop} {range : TokenRange}

/-- A step of the type checker reports fine errors only. -/
abbrev Reports {α : Type} (fine : ErrorReport → Prop) (step : CheckM α) :
    Prop :=
  Emits CheckState.errors fine (fun _ => True) step

theorem reports_onGraph {α : Type} (step : GraphM α) :
    Reports fine (onGraph step) := by
  intro state
  rw [wp, onGraph]
  cases step state.graph with
  | ok result => exact ⟨trivial, .refl _⟩
  | error stop => exact .refl _

theorem reports_record (event : TypeGraph → CheckEvent) :
    Reports fine (record event) :=
  fun _ => ⟨trivial, .refl _⟩

theorem reports_reportTypeError (reportable : Reportable tokens fine range)
    (message : String) :
    Reports fine (reportTypeError tokens range message) :=
  fun state => ⟨trivial, .single (reportable message) state.errors⟩

/-! ## Unification -/

theorem reports_reportUnificationFailure (fuel : Nat) (context : UnifyContext)
    (reportable : Reportable tokens fine context.range) :
    Reports fine (reportUnificationFailure tokens fuel context) :=
  (reports_onGraph _).bind fun message _ =>
    reports_reportTypeError reportable message

/-- A step that returns a context with the same range. -/
abbrev Unifying (fine : ErrorReport → Prop) (range : TokenRange)
    (step : CheckM UnifyContext) : Prop :=
  Emits CheckState.errors fine (fun context => context.range = range) step

theorem Unifying.bind {step : CheckM UnifyContext}
    {next : UnifyContext → CheckM UnifyContext}
    (first : Unifying fine range step)
    (second : ∀ context, context.range = range →
      Unifying fine range (next context)) :
    Unifying fine range (step >>= next) :=
  Emits.bind first second

theorem unifying_unifyVariable (fuel : Nat) (context : UnifyContext)
    (reportable : Reportable tokens fine context.range)
    (typeOne typeTwo : TypePointer) :
    Unifying fine context.range
      (unifyVariable tokens fuel context typeOne typeTwo) := by
  rw [unifyVariable]
  split
  · exact .pure rfl
  · refine (reports_onGraph _).bind fun contained _ => ?_
    split
    · refine (reports_reportUnificationFailure fuel _ ?_).bind
        fun _ _ => .pure ?_
      · exact reportable
      · rfl
    · exact (reports_onGraph _).bind fun _ _ => .pure rfl

theorem unifying_unifyArguments
    {unify : UnifyContext → TypePointer → TypePointer → CheckM UnifyContext}
    (unifying : ∀ context typeOne typeTwo, context.range = range →
      Unifying fine range (unify context typeOne typeTwo))
    (context : UnifyContext) (same : context.range = range)
    (one two : TypeExp) :
    Unifying fine range (unifyArguments unify context one two) := by
  have stops : Unifying fine range (onGraph (stop .undefinedBehaviour)) :=
    fun _ => .refl _
  rw [unifyArguments]
  split
  case' h_1 => refine Unifying.bind (.pure same) fun context same => ?_
  case' h_2 =>
    refine Unifying.bind (unifying _ _ _ same) fun context same => ?_
  case' h_3 => refine Unifying.bind stops fun context same => ?_
  all_goals
    dsimp only
    split
    · exact .pure same
    · exact unifying _ _ _ same
    · exact stops

theorem unifying_unifyImpl (reportable : Reportable tokens fine range)
    (fuel : Nat) (context : UnifyContext) (typeOne typeTwo : TypePointer)
    (same : context.range = range) :
    Unifying fine range (unifyImpl tokens fuel context typeOne typeTwo) := by
  induction fuel generalizing context typeOne typeTwo with
  | zero => exact fun _ => .refl _
  | succ fuel ih =>
      rw [unifyImpl]
      refine (reports_onGraph _).bind fun one _ => ?_
      refine (reports_onGraph _).bind fun two _ => ?_
      refine (reports_onGraph _).bind fun failed _ => ?_
      split
      · exact .pure same
      refine (reports_onGraph _).bind fun failed _ => ?_
      split
      · exact .pure same
      refine (reports_onGraph _).bind fun node _ => ?_
      refine (reports_onGraph _).bind fun first _ => ?_
      split
      · subst same
        exact unifying_unifyVariable fuel context reportable _ _
      refine (reports_onGraph _).bind fun second _ => ?_
      split
      · exact (reports_reportUnificationFailure fuel context
          (same ▸ reportable)).bind fun _ _ => .pure same
      · exact unifying_unifyArguments ih context same first second

theorem reports_unify (reportable : Reportable tokens fine range) (fuel : Nat)
    (errorCode : UnificationError) (typeOne typeTwo : TypePointer) :
    Reports fine (unify tokens fuel range errorCode typeOne typeTwo) := by
  rw [unify]
  refine (reports_record _).bind fun _ _ => ?_
  exact Emits.bind (unifying_unifyImpl reportable fuel _ _ _ rfl)
    fun _ _ => reports_record _

theorem reports_unifyOperand (reportable : Reportable tokens fine range)
    (fuel : Nat) (operand : TypePointer) (required : Option TypePointer) :
    Reports fine (unifyOperand tokens fuel range operand required) := by
  cases required with
  | none => exact .pure trivial
  | some type => exact reports_unify reportable fuel _ _ _

/-! ## The cases of the analysis -/

theorem reports_returning {result : CheckM TypePointer}
    (reports : Reports fine result) : Reports fine (returning result) :=
  reports.bind fun _ _ => (reports_record _).bind fun _ _ => .pure trivial

theorem reports_analyzeIdentifier (reportable : Reportable tokens fine range)
    (fuel : Nat) (id : Symbol) (env : TypeEnvironment) :
    Reports fine (analyzeIdentifier tokens fuel range id env) := by
  rw [analyzeIdentifier]
  refine (reports_record _).bind fun _ _ => ?_
  refine (reports_onGraph _).bind fun found _ => ?_
  split
  · exact .pure trivial
  · exact (reports_reportTypeError reportable _).bind fun _ _ => .pure trivial

theorem reports_analyzeApply (reportable : Reportable tokens fine range)
    (fuel : Nat) {function argument : CheckM TypePointer}
    (functionReports : Reports fine function)
    (argumentReports : Reports fine argument) :
    Reports fine (analyzeApply tokens fuel range function argument) := by
  rw [analyzeApply]
  refine functionReports.bind fun functionType _ => ?_
  refine argumentReports.bind fun argType _ => ?_
  refine (reports_onGraph _).bind fun failed _ => ?_
  split
  · exact .pure trivial
  refine (reports_onGraph _).bind fun failed _ => ?_
  split
  · exact .pure trivial
  refine (reports_onGraph _).bind fun resultType _ => ?_
  refine (reports_onGraph _).bind fun wanted _ => ?_
  exact (reports_unify reportable fuel _ _ _).bind fun _ _ => .pure trivial

theorem reports_analyzeLetRec (reportable : Reportable tokens fine range)
    (fuel : Nat) (id : Symbol)
    {value body : TypeEnvironment → NonGenericTypeList → CheckM TypePointer}
    (valueReports : ∀ env nonGenerics, Reports fine (value env nonGenerics))
    (bodyReports : ∀ env nonGenerics, Reports fine (body env nonGenerics))
    (env : TypeEnvironment) (nonGenerics : NonGenericTypeList) :
    Reports fine
      (analyzeLetRec tokens fuel range id value body env nonGenerics) := by
  rw [analyzeLetRec]
  refine (reports_onGraph _).bind fun newType _ => ?_
  refine (valueReports _ _).bind fun defnType _ => ?_
  refine (reports_unify reportable fuel _ _ _).bind fun _ _ => ?_
  refine (reports_record _).bind fun _ _ => ?_
  refine (reports_onGraph _).bind fun generic _ => ?_
  refine (reports_onGraph _).bind fun _ _ => ?_
  exact (reports_record _).bind fun _ _ => bodyReports _ _

theorem reports_analyzeIf {testRange : TokenRange}
    (reportable : Reportable tokens fine range)
    (testReportable : Reportable tokens fine testRange) (fuel : Nat)
    {test thenArm elseArm : CheckM TypePointer}
    (testReports : Reports fine test) (thenReports : Reports fine thenArm)
    (elseReports : Reports fine elseArm) :
    Reports fine
      (analyzeIf tokens fuel range testRange test thenArm elseArm) := by
  rw [analyzeIf]
  refine testReports.bind fun condType _ => ?_
  refine (reports_unify testReportable fuel _ _ _).bind fun _ _ => ?_
  refine thenReports.bind fun thenType _ => ?_
  refine elseReports.bind fun elseType _ => ?_
  exact (reports_unify reportable fuel _ _ _).bind fun _ _ => .pure trivial

theorem reports_analyzeBinary (reportable : Reportable tokens fine range)
    (fuel : Nat) (operator : TokenType) {left right : CheckM TypePointer}
    (leftReports : Reports fine left) (rightReports : Reports fine right) :
    Reports fine (analyzeBinary tokens fuel range operator left right) := by
  rw [analyzeBinary]
  refine leftReports.bind fun leftType _ => ?_
  refine rightReports.bind fun rightType _ => ?_
  split
  · exact reports_onGraph _
  · refine (reports_unifyOperand reportable fuel _ _).bind fun _ _ => ?_
    refine (reports_unifyOperand reportable fuel _ _).bind fun _ _ => ?_
    exact (reports_unify reportable fuel _ _ _).bind fun _ _ => .pure trivial

/-- The analysis reports at the ranges of the nodes of its expression. -/
theorem reports_analyze (fuel : Nat) (expression : Expression)
    (reportable : Everywhere (fun node => Reportable tokens fine node.range)
      expression)
    (env : TypeEnvironment) (nonGenerics : NonGenericTypeList) :
    Reports fine (analyze tokens fuel expression env nonGenerics) := by
  induction expression generalizing env nonGenerics with
  | invalid range | error range =>
      rcases reportable with ⟨_, here, below⟩
      exact reports_returning ((reports_reportTypeError here _).bind
        fun _ _ => .pure trivial)
  | integerConstant range literalValue => exact reports_returning (.pure trivial)
  | true_ range | false_ range => exact reports_returning (.pure trivial)
  | identifier range id =>
      rcases reportable with ⟨_, here, below⟩
      exact reports_returning (reports_analyzeIdentifier here fuel id env)
  | lambda range id body bodyIh =>
      rcases reportable with ⟨_, here, below⟩
      refine reports_returning ((reports_onGraph _).bind fun argType _ => ?_)
      exact (bodyIh (below _ (by simp [Expression.children])) _ _).bind
        fun _ _ => reports_onGraph _
  | apply range function argument functionIh argumentIh =>
      rcases reportable with ⟨_, here, below⟩
      exact reports_returning (reports_analyzeApply here fuel
        (functionIh (below _ (by simp [Expression.children])) _ _)
        (argumentIh (below _ (by simp [Expression.children])) _ _))
  | let_ range id value body valueIh bodyIh =>
      rcases reportable with ⟨_, here, below⟩
      refine reports_returning ((valueIh
        (below _ (by simp [Expression.children])) _ _).bind fun defnType _ => ?_)
      exact (reports_onGraph _).bind fun _ _ =>
        bodyIh (below _ (by simp [Expression.children])) _ _
  | letrec range id value body valueIh bodyIh =>
      rcases reportable with ⟨_, here, below⟩
      exact reports_returning (reports_analyzeLetRec here fuel id
        (valueIh (below _ (by simp [Expression.children])))
        (bodyIh (below _ (by simp [Expression.children]))) env nonGenerics)
  | if_ range test thenArm elseArm testIh thenIh elseIh =>
      rcases reportable with ⟨_, here, below⟩
      have testReportable := below test (by simp [Expression.children])
      rcases id testReportable with ⟨_, testHere, -⟩
      exact reports_returning (reports_analyzeIf here testHere fuel
        (testIh testReportable _ _)
        (thenIh (below _ (by simp [Expression.children])) _ _)
        (elseIh (below _ (by simp [Expression.children])) _ _))
  | binary range operator left right leftIh rightIh =>
      rcases reportable with ⟨_, here, below⟩
      exact reports_returning (reports_analyzeBinary here fuel operator
        (leftIh (below _ (by simp [Expression.children])) _ _)
        (rightIh (below _ (by simp [Expression.children])) _ _))
  | unary range operator arg argIh =>
      rcases reportable with ⟨_, here, below⟩
      exact reports_returning (argIh
        (below _ (by simp [Expression.children])) _ _)
  | tuple range first rest length firstIh restIh =>
      rcases reportable with ⟨_, here, below⟩
      refine reports_returning ((firstIh
        (below _ (by simp [Expression.children])) _ _).bind fun first _ => ?_)
      exact (restIh (below _ (by simp [Expression.children])) _ _).bind
        fun _ _ => reports_onGraph _
  | tupleFinal range first firstIh =>
      rcases reportable with ⟨_, here, below⟩
      exact reports_returning ((firstIh
        (below _ (by simp [Expression.children])) _ _).bind
          fun _ _ => reports_onGraph _)

/-- What `GetExpressionType` reports. -/
theorem getExpressionType_reports (fuel : Nat) {expression : Expression}
    (reportable : Everywhere (fun node => Reportable tokens fine node.range)
      expression) :
    ∀ report ∈ (getExpressionType tokens fuel expression).2.errors,
      fine report :=
  ((reports_analyze fuel expression reportable [] []).always
    ⟨staticGraph, [], []⟩).of_nil

end

end Millie.Types
