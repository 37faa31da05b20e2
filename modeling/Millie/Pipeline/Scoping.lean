import Millie.Compiler.Resolution
import Millie.Types.Reports

/-!
# Accepted expressions are closed

The type checker looks up every identifier and reports the ones it does not
find.  An analysis that returns without a report therefore shows that every free
symbol of the expression is in the environment it started from, and an accepted
expression has none.
-/

namespace Millie.Pipeline

open Weakest
open Millie.Symbols Millie.Syntax Millie.Types Millie.Compiler

/-- The symbols that an environment binds. -/
def boundSymbols (env : TypeEnvironment) : List Symbol :=
  env.map Prod.fst

/-- A step of the type checker that shows a claim by reporting nothing. -/
abbrev Proves {α : Type} (claim : Prop) (step : CheckM α) : Prop :=
  Shows CheckState.errors claim step

section

variable {tokens : Tokens} {range : TokenRange}

/-- Reports are not restricted here. -/
theorem reportable_any (range : TokenRange) :
    Reportable tokens (fun _ => True) range :=
  fun _ => trivial

/-- Whatever a step reports, it shows nothing. -/
theorem Proves.nothing {α : Type} {step : CheckM α}
    (reports : Reports (fun _ => True) step) : Proves True step :=
  .of_emits reports

theorem proves_pure {α : Type} (value : α) :
    Proves True (pure value : CheckM α) :=
  Proves.nothing (.pure trivial)

theorem proves_onGraph {α : Type} (step : GraphM α) :
    Proves True (onGraph step) :=
  Proves.nothing (reports_onGraph step)

theorem proves_record (event : TypeGraph → CheckEvent) :
    Proves True (record event) :=
  Proves.nothing (reports_record event)

theorem proves_unify (range : TokenRange) (fuel : Nat)
    (errorCode : UnificationError) (typeOne typeTwo : TypePointer) :
    Proves True (unify tokens fuel range errorCode typeOne typeTwo) :=
  Proves.nothing (reports_unify (reportable_any range) fuel errorCode typeOne typeTwo)

theorem lookupType_unbound (fuel : Nat) {id : Symbol} {env : TypeEnvironment}
    (unbound : id ∉ boundSymbols env) (graph : TypeGraph) :
    lookupType fuel id env graph = .ok (none, graph) := by
  induction env with
  | nil => rfl
  | cons binding env ih =>
      rcases not_or.mp (List.mem_cons.not.mp unbound) with ⟨other, later⟩
      rw [lookupType, if_neg (Ne.symm other)]
      exact ih later

theorem proves_analyzeIdentifier (fuel : Nat) (id : Symbol)
    (env : TypeEnvironment) :
    Proves (id ∈ boundSymbols env)
      (analyzeIdentifier tokens fuel range id env) := by
  by_cases bound : id ∈ boundSymbols env
  · exact (Proves.nothing (reports_analyzeIdentifier (reportable_any range)
      fuel id env)).mono fun _ => bound
  · intro state
    let logged := (record (.looking id env) state).2
    have found : onGraph (lookupType fuel id env) logged =
        (.ok none, logged) := by
      rw [onGraph, lookupType_unbound fuel bound]
    have run : analyzeIdentifier tokens fuel range id env state =
        (reportTypeError tokens range "Unbound identifier" >>=
          fun _ => pure errorTypeExp) logged :=
      (bind_kept rfl).trans (bind_kept found)
    rw [wp, run]
    refine ⟨List.prefix_append _ _, fun same => ?_⟩
    have added : state.errors ++ [_] = state.errors := same
    exact absurd added (by simp)

theorem proves_returning {claim : Prop} {result : CheckM TypePointer}
    (proves : Proves claim result) : Proves claim (returning result) :=
  proves.before fun _ => Shows.before (proves_record _) fun _ => proves_pure _

theorem proves_analyzeApply {first second : Prop} (fuel : Nat)
    {function argument : CheckM TypePointer} (functionProves : Proves first function)
    (argumentProves : Proves second argument) :
    Proves (first ∧ second)
      (analyzeApply tokens fuel range function argument) := by
  have split : analyzeApply tokens fuel range function argument =
      (function >>= fun functionType => argument >>= fun argType =>
        analyzeApply tokens fuel range (pure functionType) (pure argType)) :=
    rfl
  rw [split]
  refine functionProves.bind fun functionType => ?_
  refine argumentProves.before fun argType => ?_
  exact Proves.nothing (reports_analyzeApply (reportable_any range) fuel
    (.pure trivial) (.pure trivial))

theorem proves_analyzeBinary {first second : Prop} (fuel : Nat)
    (operator : TokenType) {left right : CheckM TypePointer}
    (leftProves : Proves first left) (rightProves : Proves second right) :
    Proves (first ∧ second)
      (analyzeBinary tokens fuel range operator left right) := by
  have split : analyzeBinary tokens fuel range operator left right =
      (left >>= fun leftType => right >>= fun rightType =>
        analyzeBinary tokens fuel range operator (pure leftType)
          (pure rightType)) :=
    rfl
  rw [split]
  refine leftProves.bind fun leftType => ?_
  refine rightProves.before fun rightType => ?_
  exact Proves.nothing (reports_analyzeBinary (reportable_any range) fuel operator
    (.pure trivial) (.pure trivial))

theorem proves_analyzeIf {first second third : Prop} (fuel : Nat)
    {testRange : TokenRange} {test thenArm elseArm : CheckM TypePointer}
    (testProves : Proves first test) (thenProves : Proves second thenArm)
    (elseProves : Proves third elseArm) :
    Proves (first ∧ second ∧ third)
      (analyzeIf tokens fuel range testRange test thenArm elseArm) := by
  rw [analyzeIf]
  refine testProves.bind fun condType => ?_
  refine Shows.after (proves_unify testRange fuel _ _ _) fun _ => ?_
  refine thenProves.bind fun thenType => elseProves.before fun elseType => ?_
  exact Shows.before (proves_unify range fuel _ _ _) fun _ => proves_pure _

theorem proves_analyzeLetRec {first second : Prop} (fuel : Nat) (id : Symbol)
    {value body : TypeEnvironment → NonGenericTypeList → CheckM TypePointer}
    {env : TypeEnvironment} {nonGenerics : NonGenericTypeList}
    (valueProves : ∀ type, Proves first
      (value ((id, type) :: env) (type :: nonGenerics)))
    (bodyProves : ∀ type, Proves second
      (body ((id, type) :: env) nonGenerics)) :
    Proves (first ∧ second)
      (analyzeLetRec tokens fuel range id value body env nonGenerics) := by
  rw [analyzeLetRec]
  refine Shows.after (proves_onGraph _) fun newType => ?_
  refine (valueProves newType).bind fun defnType => ?_
  refine Shows.after (proves_unify range fuel _ _ _) fun _ => ?_
  refine Shows.after (proves_record _) fun _ => ?_
  refine Shows.after (proves_onGraph _) fun generic => ?_
  refine Shows.after (proves_onGraph _) fun _ => ?_
  refine Shows.after (proves_record _) fun _ => ?_
  exact bodyProves newType

/-- What a binder adds to the environment is not free outside its scope. -/
theorem boundSymbols_scope {id : Symbol} {type : TypePointer}
    {env : TypeEnvironment} {symbols : List Symbol}
    (inside : symbols ⊆ boundSymbols ((id, type) :: env)) :
    symbols.filter (· ≠ id) ⊆ boundSymbols env := by
  intro symbol member
  rcases List.mem_filter.mp member with ⟨free, other⟩
  exact (List.mem_cons.mp (inside free)).resolve_left (by simpa using other)

/-- An analysis that reports nothing finds every free symbol in scope. -/
theorem proves_analyze (fuel : Nat) (expression : Expression)
    (env : TypeEnvironment) (nonGenerics : NonGenericTypeList) :
    Proves (freeSymbols expression ⊆ boundSymbols env)
      (analyze tokens fuel expression env nonGenerics) := by
  induction expression generalizing env nonGenerics with
  | invalid range | error range =>
      exact proves_returning ((Proves.nothing
        ((reports_reportTypeError (reportable_any range) _).bind
          fun _ _ => .pure trivial)).mono fun _ => List.nil_subset _)
  | integerConstant range literalValue => exact proves_returning ((proves_pure _).mono
        fun _ => List.nil_subset _)
  | true_ range | false_ range => exact proves_returning ((proves_pure _).mono
        fun _ => List.nil_subset _)
  | identifier range id =>
      exact (proves_returning (proves_analyzeIdentifier fuel id env)).mono
        fun bound => List.cons_subset.mpr ⟨bound, List.nil_subset _⟩
  | lambda range id body bodyIh =>
      refine proves_returning (Shows.after (proves_onGraph _) fun argType => ?_)
      refine ((bodyIh ((id, argType) :: env) _).before
        fun _ => proves_onGraph _).mono fun inside symbol member => ?_
      rcases mem_functionSymbols.mp member with ⟨free, notParam, -⟩
      exact (List.mem_cons.mp (inside free)).resolve_left notParam
  | apply range function argument functionIh argumentIh =>
      exact (proves_returning (proves_analyzeApply fuel (functionIh env _)
        (argumentIh env _))).mono List.append_subset.mpr
  | let_ range id value body valueIh bodyIh =>
      refine (proves_returning ((valueIh env nonGenerics).bind fun defnType =>
        Shows.after (proves_onGraph _) fun generic =>
          (bodyIh ((id, generic) :: env) nonGenerics).mono boundSymbols_scope)).mono ?_
      exact List.append_subset.mpr
  | letrec range id value body valueIh bodyIh =>
      refine (proves_returning (proves_analyzeLetRec fuel id
        (fun type => (valueIh ((id, type) :: env) _).mono boundSymbols_scope)
        (fun type => (bodyIh ((id, type) :: env) _).mono boundSymbols_scope))).mono ?_
      intro both
      rw [freeSymbols, List.filter_append]
      exact List.append_subset.mpr both
  | if_ range test thenArm elseArm testIh thenIh elseIh =>
      refine (proves_returning (proves_analyzeIf fuel (testIh env _)
        (thenIh env _) (elseIh env _))).mono ?_
      rintro ⟨test, thenArm, elseArm⟩
      exact List.append_subset.mpr
        ⟨List.append_subset.mpr ⟨test, thenArm⟩, elseArm⟩
  | binary range operator left right leftIh rightIh =>
      exact (proves_returning (proves_analyzeBinary fuel operator
        (leftIh env _) (rightIh env _))).mono List.append_subset.mpr
  | unary range operator arg argIh => exact proves_returning (argIh env _)
  | tuple range first rest length firstIh restIh =>
      exact (proves_returning ((firstIh env nonGenerics).bind fun _ =>
        (restIh env nonGenerics).before fun _ => proves_onGraph _)).mono
          List.append_subset.mpr
  | tupleFinal range first firstIh =>
      exact proves_returning ((firstIh env nonGenerics).before
        fun _ => proves_onGraph _)

end

/-- The type checker returns and reports nothing. -/
def Accepts (tokens : Tokens) (expression : Expression) : Prop :=
  ∃ fuel type after, getExpressionType tokens fuel expression =
    (.ok type, after) ∧ after.errors = []

/-- An accepted expression is closed. -/
theorem Accepts.closed {tokens : Tokens} {expression : Expression}
    (accepts : Accepts tokens expression) : freeSymbols expression = [] := by
  rcases accepts with ⟨fuel, type, after, returns, quiet⟩
  have proves := @proves_analyze tokens fuel expression [] []
    ⟨staticGraph, [], []⟩
  have returned : analyze tokens fuel expression [] []
      ⟨staticGraph, [], []⟩ = (.ok type, after) := returns
  rw [wp, returned] at proves
  exact List.subset_nil.mp (proves.2 quiet)

end Millie.Pipeline
