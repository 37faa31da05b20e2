import Millie.Compiler.Frames
import Millie.Pipeline.Closures
import Millie.Pipeline.Safety

/-!
# Safety of accepted expressions

The evaluation of an expression that the type checker and the compiler accept
uses values for what they are, up to the first unary minus on something that is
no integer: the checker gives a unary operator the type of its operand, whatever
that is.  The compiler reports a let rec that binds no function, but it never
looks at the components of a tuple after the first.
-/

namespace Millie.Pipeline

open Millie.Symbols Millie.Syntax Millie.Types Millie.Compiler

/-! ## What the compiler checks -/

/-- The tuple components that `_CompileTuple` never compiles. -/
def skippedComponents : Expression → List Expression
  | .lambda _ _ body => skippedComponents body
  | .apply _ first second | .let_ _ _ first second
  | .letrec _ _ first second | .binary _ _ first second =>
      skippedComponents first ++ skippedComponents second
  | .if_ _ test thenArm elseArm =>
      skippedComponents test ++
        (skippedComponents thenArm ++ skippedComponents elseArm)
  | .unary _ _ arg => skippedComponents arg
  | .tuple _ first rest length =>
      (if length = 0 then [first] else skippedComponents first) ++ [rest]
  | .tupleFinal _ first => [first]
  | .identifier _ _ | .integerConstant _ _ | .true_ _ | .false_ _ | .error _
  | .invalid _ => []

section

variable {input : CompileInput}

/-- A function whose closure is built without a report has a silent body. -/
theorem emitLambdaImpl_quiet {lambdaId selfId : Symbol}
    {body : View → Emission} {closureRegister : UInt8} {view : View}
    (quiet : (emitLambdaImpl input lambdaId body selfId closureRegister
      view).view.errors = []) :
    (emitBody input lambdaId selfId body view).view.errors = [] := by
  have finished := errors_nil ((emitLiteral_continues _
    (finishFunction _ _ _ view)).trans
      (emitClosedValues_continues closureRegister _ 0 _)) quiet
  exact finished

/-- Where the compiler reports nothing, every let rec that it sees is fine. -/
theorem emit_recursiveFunctions {expression : Expression}
    (skipped : ∀ component ∈ skippedComponents expression,
      RecursiveFunctions component)
    {view : View} (quiet : (emit input expression view).view.errors = []) :
    RecursiveFunctions expression := by
  induction expression using Expression.functionInduction
    generalizing view with
  | integerConstant | true_ | false_ | error | identifier => exact trivial
  | invalid range => exact trivial
  | tupleFinal range first firstIh => simp [emit, View.report] at quiet
  | letrecOther range id value body notLambda valueIh bodyIh =>
      rw [emit_letrec_other notLambda] at quiet
      simp [emitLetRec, View.report] at quiet
  | lambda range id body bodyIh =>
      exact bodyIh skipped (emitLambdaImpl_quiet quiet)
  | let_ range id value body valueIh bodyIh =>
      rcases List.forall_mem_append.mp skipped with ⟨inValue, inBody⟩
      have bodyKept := emit_continues input body
        ((emit input value view).view.push id (emit input value view).reg)
      exact ⟨valueIh inValue (errors_nil bodyKept.scope quiet),
        bodyIh inBody quiet⟩
  | letrecFunction range id lambdaRange lambdaId lambdaBody body lambdaIh
      bodyIh =>
      rcases List.forall_mem_append.mp skipped with ⟨inValue, inBody⟩
      have bodyKept := emit_continues input body
        (emitLambdaImpl input lambdaId (emit input lambdaBody) id view.nextReg
          (view.take.push id view.nextReg)).view
      exact ⟨trivial, lambdaIh inValue
        (emitLambdaImpl_quiet (errors_nil bodyKept quiet)), bodyIh inBody quiet⟩
  | apply range function argument functionIh argumentIh =>
      rcases List.forall_mem_append.mp skipped with ⟨inFunction, inArgument⟩
      have argumentKept := emit_continues input argument
        (emit input function view).view
      exact ⟨functionIh inFunction (errors_nil argumentKept quiet),
        argumentIh inArgument quiet⟩
  | binary range operator left right leftIh rightIh =>
      rcases List.forall_mem_append.mp skipped with ⟨inLeft, inRight⟩
      rcases emit_binary_quiet quiet with ⟨instruction, chosen, whole⟩
      rw [whole] at quiet
      have rightKept := emit_continues input right (emit input left view).view
      exact ⟨leftIh inLeft (errors_nil rightKept quiet), rightIh inRight quiet⟩
  | unary range operator arg argIh =>
      rcases emit_unary_quiet quiet with ⟨instruction, chosen, whole⟩
      rw [whole] at quiet
      exact argIh skipped quiet
  | if_ range test thenArm elseArm testIh thenIh elseIh =>
      rcases List.forall_mem_append.mp skipped with ⟨inTest, inArms⟩
      rcases List.forall_mem_append.mp inArms with ⟨inThen, inElse⟩
      have elseKept := emit_continues input elseArm
        (emit input thenArm (emit input test view).view).view
      have thenQuiet := errors_nil elseKept quiet
      have thenKept := emit_continues input thenArm (emit input test view).view
      exact ⟨testIh inTest (errors_nil thenKept thenQuiet),
        thenIh inThen thenQuiet, elseIh inElse quiet⟩
  | tuple range first rest length firstIh restIh =>
      rcases List.forall_mem_append.mp skipped with ⟨inFirst, inRest⟩
      refine ⟨?_, inRest rest (List.mem_singleton_self rest)⟩
      cases length with
      | zero => exact inFirst first (List.mem_singleton_self first)
      | succ count =>
          have later := emitTupleMembers_continues (emit_continues input first)
            view.take.nextReg count 1 (emit input first view.take.take).view
          exact firstIh inFirst (errors_nil later quiet)

/-- Every let rec of an accepted expression binds a function. -/
theorem compileModule_recursiveFunctions {expression : Expression}
    {funcId : Nat} {after : CompileState}
    (returns : compileModule input expression = .ok (funcId, after))
    (quiet : after.errors = [])
    (skipped : ∀ component ∈ skippedComponents expression,
      RecursiveFunctions component) : RecursiveFunctions expression := by
  rcases compileModule_ok returns with ⟨-, -, errors, -, -⟩
  have entryQuiet : (emitEntry input expression).view.errors = [] :=
    errors.symm.trans quiet
  exact emit_recursiveFunctions skipped entryQuiet

/-! ## Runs of accepted expressions -/

/--
The checker's type is the type of every configuration that the evaluation of an
accepted expression reaches, provided that each let rec in a component that the
compiler skips binds a function.
-/
theorem reached_typed {expression : Expression} {fuel : Nat}
    {type : TypePointer} {checked : CheckState} {funcId : Nat}
    {after : CompileState} {equal : Value → Value → Bool}
    {configuration : Configuration}
    (typed : getExpressionType input.tokens fuel expression =
      (.ok type, checked)) (checkedQuiet : checked.errors = [])
    (returns : compileModule input expression = .ok (funcId, after))
    (quiet : after.errors = [])
    (skipped : ∀ component ∈ skippedComponents expression,
      RecursiveFunctions component)
    (run : Reaches equal (start expression) configuration) :
    ∃ t, Denotes checked.graph type t ∧ configuration.Typed t := by
  have functions := compileModule_recursiveFunctions returns quiet skipped
  rcases getExpressionType_sound functions typed checkedQuiet with
    ⟨t, denotes, typing⟩
  exact ⟨t, denotes, (Configuration.typed_start functions typing).reaches run⟩

/--
The evaluation of an accepted expression goes on until it has a value, is about
to negate something that is no integer, or is about to apply an operator that
has no instruction; and it makes no other wrong use of a value.
-/
theorem evaluation_safe {expression : Expression} {funcId : Nat}
    {after : CompileState} {equal : Value → Value → Bool}
    {configuration : Configuration}
    (accepts : Accepts input.tokens expression)
    (returns : compileModule input expression = .ok (funcId, after))
    (quiet : after.errors = [])
    (skipped : ∀ component ∈ skippedComponents expression,
      RecursiveFunctions component)
    (run : Reaches equal (start expression) configuration) :
    (configuration.Final ∨
        (∃ next, step equal configuration = some next) ∨
        configuration.NegatesOther ∨ configuration.Unsupported) ∧
      (Fault configuration → configuration.NegatesOther) := by
  rcases accepts with ⟨fuel, type, checked, typed, checkedQuiet⟩
  rcases reached_typed typed checkedQuiet returns quiet skipped run with
    ⟨t, -, fits⟩
  refine ⟨?_, fits.negates_of_fault⟩
  rcases fits.goes_on equal with final | ⟨next, steps, -⟩ | stops
  · exact .inl final
  · exact .inr (.inl ⟨next, steps⟩)
  · exact .inr (.inr stops)

/-- The value of an accepted expression has the type that the checker found. -/
theorem evaluation_has_type {expression : Expression} {fuel : Nat}
    {type : TypePointer} {checked : CheckState} {funcId : Nat}
    {after : CompileState} {equal : Value → Value → Bool} {value : Value}
    (typed : getExpressionType input.tokens fuel expression =
      (.ok type, checked)) (checkedQuiet : checked.errors = [])
    (returns : compileModule input expression = .ok (funcId, after))
    (quiet : after.errors = [])
    (skipped : ∀ component ∈ skippedComponents expression,
      RecursiveFunctions component)
    (run : Reaches equal (start expression) (.returning value [])) :
    ∃ t, Denotes checked.graph type t ∧ ValueTyped value t := by
  rcases reached_typed typed checkedQuiet returns quiet skipped run with
    ⟨t, denotes, fits⟩
  exact ⟨t, denotes, fits.result⟩

end

/-- `-true`. -/
def negatedTrue : Expression :=
  .unary ⟨0, 0⟩ .tokMinus (.true_ ⟨0, 0⟩)

/-- `-true` is accepted, and its evaluation negates a truth value. -/
theorem evaluation_safe_negatedTrue : ∃ funcId after,
    Accepts zeroedInput.tokens negatedTrue ∧
      compileModule zeroedInput negatedTrue = .ok (funcId, after) ∧
      after.errors = [] ∧ ∃ configuration,
        Reaches (fun _ _ => true) (start negatedTrue) configuration ∧
        Fault configuration ∧ configuration.NegatesOther := by
  have both : accepted 20 negatedTrue = true := by decide +kernel
  rcases accepted_spec both with ⟨accepts, funcId, after, returns, quiet⟩
  have run : Reaches (fun _ _ => true) (start negatedTrue)
      (.returning (.bool true) [.unary .tokMinus]) :=
    .head rfl (.head rfl .refl)
  have fault : Fault (.returning (.bool true) [.unary .tokMinus]) :=
    .negation id
  have skipped : ∀ component ∈ skippedComponents negatedTrue,
      RecursiveFunctions component :=
    fun _ member => absurd member List.not_mem_nil
  exact ⟨funcId, after, accepts, returns, quiet, _, run, fault,
    (evaluation_safe accepts returns quiet skipped run).2 fault⟩

/-- `let f = fn x => x in (f 1, f true)`. -/
def instancesPair : Expression :=
  .let_ ⟨0, 0⟩ 1 (.lambda ⟨0, 0⟩ 2 (.identifier ⟨0, 0⟩ 2))
    (.tuple ⟨0, 0⟩
      (.apply ⟨0, 0⟩ (.identifier ⟨0, 0⟩ 1) (.integerConstant ⟨0, 0⟩ 1))
      (.tupleFinal ⟨0, 0⟩
        (.apply ⟨0, 0⟩ (.identifier ⟨0, 0⟩ 1) (.true_ ⟨0, 0⟩))) 2)

/-- The value of `let f = fn x => x in (f 1, f true)` has its type. -/
theorem evaluation_has_type_pair : ∃ fuel type checked t,
    getExpressionType zeroedInput.tokens fuel instancesPair =
        (.ok type, checked) ∧
      checked.errors = [] ∧ Denotes checked.graph type t ∧
      ValueTyped (.tuple (.int 1) (.tupleFinal (.bool true))) t := by
  have both : accepted 40 instancesPair = true := by decide +kernel
  rcases accepted_spec both with ⟨accepts, funcId, after, returns, quiet⟩
  rcases accepts with ⟨fuel, type, checked, typed, checkedQuiet⟩
  have skipped : ∀ component ∈ skippedComponents instancesPair,
      RecursiveFunctions component := by
    intro component member
    rw [List.mem_singleton.mp member]
    exact ⟨trivial, trivial⟩
  have run : Reaches (fun _ _ => true) (start instancesPair)
      (.returning (.tuple (.int 1) (.tupleFinal (.bool true))) []) :=
    reaches_runFor (fun _ _ => true) 20 (start instancesPair)
  rcases evaluation_has_type typed checkedQuiet returns quiet skipped run with
    ⟨t, denotes, valueTyped⟩
  exact ⟨fuel, type, checked, t, typed, checkedQuiet, denotes, valueTyped⟩

end Millie.Pipeline
