import Millie.Pipeline.Evaluation
import Millie.Types.Soundness

/-!
# Evaluation goes by the types

Values, environments and the frames of the machine have types; a closure has
those of its body under assumptions that its environment meets.  A configuration
in which the types fit is final, takes a step to another one, or is about to
apply an operator that the types do not account for.
-/

namespace Millie.Pipeline

open Relation
open Millie.Symbols Millie.Syntax Millie.Types

/-! ## Values and environments -/

/-- The assumption about a function's own name. -/
def ownAssumption (selfId : Option Symbol) (t : Ty Leaf) : Assumptions :=
  selfId.toList.map (·, t)

/-- The types of a value. -/
inductive ValueTyped : Value → Ty Leaf → Prop where
  | int {value : UInt64} : ValueTyped (.int value) .int
  | bool {value : Bool} : ValueTyped (.bool value) .bool
  | closure {env : Environment} {selfId : Option Symbol} {id : Symbol}
      {body : Expression} {assumptions : Assumptions} {s t : Ty Leaf}
      (functions : RecursiveFunctions body)
      (bound : ∀ id scheme, assumptions.lookup id = some scheme →
        ∃ value, env.lookup id = some value)
      (typed : ∀ id scheme value u, assumptions.lookup id = some scheme →
        env.lookup id = some value → scheme.Admits u → ValueTyped value u)
      (plain : s.Plain)
      (bodyTyping : Typing
        ((id, s) :: (ownAssumption selfId (.func s t) ++ assumptions)) body t) :
      ValueTyped (.closure env selfId id body) (.func s t)
  | tuple {first rest : Value} {s t : Ty Leaf}
      (firstTyped : ValueTyped first s) (restTyped : ValueTyped rest t) :
      ValueTyped (.tuple first rest) (.tuple s t)
  | tupleFinal {first : Value} {t : Ty Leaf}
      (firstTyped : ValueTyped first t) :
      ValueTyped (.tupleFinal first) (.tupleFinal t)

/-- Every name has a value with all the types that are assumed. -/
structure EnvTyped (env : Environment) (assumptions : Assumptions) : Prop where
  bound : ∀ id scheme, assumptions.lookup id = some scheme →
    ∃ value, env.lookup id = some value
  typed : ∀ id scheme value t, assumptions.lookup id = some scheme →
    env.lookup id = some value → scheme.Admits t → ValueTyped value t

/-- The types of an expression in an environment. -/
def TypesOf (env : Environment) (expression : Expression) : Set (Ty Leaf) :=
  { t | RecursiveFunctions expression ∧
    ∃ assumptions, EnvTyped env assumptions ∧ Typing assumptions expression t }

section

variable {env : Environment} {assumptions : Assumptions} {id : Symbol}
  {value : Value} {s t : Ty Leaf}

theorem EnvTyped.nil : EnvTyped [] [] :=
  ⟨by rintro _ _ ⟨⟩, by rintro _ _ _ _ ⟨⟩⟩

theorem EnvTyped.cons (envTyped : EnvTyped env assumptions)
    {scheme : Ty Leaf} (typed : ∀ t, scheme.Admits t → ValueTyped value t) :
    EnvTyped ((id, value) :: env) ((id, scheme) :: assumptions) := by
  constructor
  · intro other scheme' found
    rw [List.lookup_cons] at found ⊢
    cases same : other == id with
    | true => exact ⟨value, rfl⟩
    | false =>
        rw [same] at found
        exact envTyped.bound other scheme' found
  · intro other scheme' value' t found bound admits
    rw [List.lookup_cons] at found bound
    cases same : other == id with
    | true =>
        rw [same] at found bound
        cases found
        cases bound
        exact typed t admits
    | false =>
        rw [same] at found bound
        exact envTyped.typed other scheme' value' t found bound admits

/-- A name with one type. -/
theorem EnvTyped.cons_plain (envTyped : EnvTyped env assumptions)
    (plain : t.Plain) (typed : ValueTyped value t) :
    EnvTyped ((id, value) :: env) ((id, t) :: assumptions) := by
  apply envTyped.cons
  intro u admits
  rw [plain.admits_iff.mp admits]
  exact typed

/-- A function definition evaluates to a closure of its type. -/
theorem ValueTyped.of_lambda (envTyped : EnvTyped env assumptions)
    {selfId : Option Symbol} {range : TokenRange} {body : Expression}
    (functions : RecursiveFunctions body)
    (typing : Typing (ownAssumption selfId t ++ assumptions)
      (.lambda range id body) t) :
    ValueTyped (.closure env selfId id body) t := by
  cases typing with
  | lambda plain bodyTyping =>
      exact .closure functions envTyped.bound envTyped.typed plain bodyTyping

/-- A function runs in an environment that meets its assumptions. -/
theorem ValueTyped.enters {function argument : Value}
    (functionTyped : ValueTyped function (.func s t))
    (argumentTyped : ValueTyped argument s) :
    ∃ env selfId id body, function = .closure env selfId id body ∧
      t ∈ TypesOf (entered env selfId id body argument) body := by
  have whole := functionTyped
  cases functionTyped with
  | @closure env selfId id body assumptions _ _ functions bound typed plain
      bodyTyping =>
      refine ⟨env, selfId, id, body, rfl, functions, _, ?_, bodyTyping⟩
      refine EnvTyped.cons_plain ?_ plain argumentTyped
      cases selfId with
      | none => exact ⟨bound, typed⟩
      | some self =>
          exact EnvTyped.cons_plain ⟨bound, typed⟩
            (Ty.Plain.func_iff.mpr ⟨plain, bodyTyping.plain⟩) whole

/-- A value of type int is an integer. -/
theorem ValueTyped.of_int (typed : ValueTyped value .int) :
    ∃ literal, value = .int literal := by
  cases typed with
  | @int literal => exact ⟨literal, rfl⟩

/-- A value of type bool is a truth value. -/
theorem ValueTyped.of_bool (typed : ValueTyped value .bool) :
    ∃ truth, value = .bool truth := by
  cases typed with
  | @bool truth => exact ⟨truth, rfl⟩

end

/-! ## Frames and configurations -/

/-- The types that a frame gives for a value with some types. -/
def Frame.Gives (types : Set (Ty Leaf)) (t : Ty Leaf) : Frame → Prop
  | .argument env expression =>
      ∃ s ∈ TypesOf env expression, .func s t ∈ types
  | .call function => ∃ s ∈ types, ValueTyped function (.func s t)
  | .bind env id body =>
      RecursiveFunctions body ∧ ∃ assumptions scheme,
        EnvTyped env assumptions ∧ (∀ s, scheme.Admits s → s ∈ types) ∧
        Typing ((id, scheme) :: assumptions) body t
  | .branch env thenArm elseArm =>
      .bool ∈ types ∧ t ∈ TypesOf env thenArm ∧ t ∈ TypesOf env elseArm
  | .right env operator expression =>
      ∃ s ∈ types, OperatorTypes operator s t ∧ s ∈ TypesOf env expression
  | .operand operator left =>
      ∃ s ∈ types, OperatorTypes operator s t ∧ ValueTyped left s
  | .unary _ => t ∈ types
  | .rest env expression =>
      ∃ first ∈ types, ∃ last ∈ TypesOf env expression, t = .tuple first last
  | .component first =>
      ∃ s, ValueTyped first s ∧ ∃ last ∈ types, t = .tuple s last
  | .final => ∃ first ∈ types, t = .tupleFinal first

/-- The frames make a value of a given type from one that has some types. -/
def Receives (whole : Ty Leaf) : List Frame → Set (Ty Leaf) → Prop
  | [], types => whole ∈ types
  | frame :: frames, types =>
      ∃ results : Set (Ty Leaf), results.Nonempty ∧
        (∀ t ∈ results, frame.Gives types t) ∧ Receives whole frames results

/-- The types of a configuration fit, and its result has a given type. -/
def Configuration.Typed (whole : Ty Leaf) : Configuration → Prop
  | evaluating expression env frames =>
      ∃ types : Set (Ty Leaf), types.Nonempty ∧
        types ⊆ TypesOf env expression ∧ Receives whole frames types
  | returning value frames =>
      ∃ types : Set (Ty Leaf), types.Nonempty ∧
        (∀ t ∈ types, ValueTyped value t) ∧ Receives whole frames types

section

variable {equal : Value → Value → Bool} {env : Environment}
  {frame : Frame} {frames : List Frame} {expression : Expression}
  {value : Value} {types : Set (Ty Leaf)} {whole : Ty Leaf}

/-- An operand is evaluated with a frame for the rest. -/
theorem Receives.opens (receives : Receives whole frames types)
    (some_ : types.Nonempty)
    (gives : ∀ t ∈ types, frame.Gives (TypesOf env expression) t)
    (typable : (TypesOf env expression).Nonempty) :
    (Configuration.evaluating expression env (frame :: frames)).Typed whole :=
  ⟨_, typable, subset_rfl, types, some_, gives, receives⟩

/-- An expression whose types fit takes a step. -/
theorem evaluate_typed (some_ : types.Nonempty)
    (typesOf : types ⊆ TypesOf env expression)
    (receives : Receives whole frames types) :
    ∃ next, evaluate env frames expression = some next ∧ next.Typed whole := by
  rcases some_ with ⟨t, inTypes⟩
  have functions := (typesOf inTypes).1
  cases expression with
  | integerConstant range literalValue =>
      refine ⟨_, rfl, types, ⟨t, inTypes⟩, fun u inTypes => ?_, receives⟩
      rcases typesOf inTypes with ⟨-, assumptions, -, typing⟩
      cases typing
      exact .int
  | true_ range | false_ range =>
      refine ⟨_, rfl, types, ⟨t, inTypes⟩, fun u inTypes => ?_, receives⟩
      rcases typesOf inTypes with ⟨-, assumptions, -, typing⟩
      cases typing
      exact .bool
  | identifier range id =>
      rcases typesOf inTypes with ⟨-, assumptions, envTyped, typing⟩
      cases typing with
      | identifier found admits =>
          rcases envTyped.bound id _ found with ⟨value, bound⟩
          refine ⟨.returning value frames, by rw [evaluate, bound]; rfl,
            types, ⟨t, inTypes⟩, fun u inTypes => ?_, receives⟩
          rcases typesOf inTypes with ⟨-, assumptions, envTyped, typing⟩
          cases typing with
          | identifier found admits =>
              exact envTyped.typed id _ value u found bound admits
  | lambda range id body =>
      refine ⟨_, rfl, types, ⟨t, inTypes⟩, fun u inTypes => ?_, receives⟩
      rcases typesOf inTypes with ⟨-, assumptions, envTyped, typing⟩
      exact .of_lambda envTyped functions typing
  | apply range function argument =>
      have opened : ∀ u ∈ types, ∃ s, .func s u ∈ TypesOf env function ∧
          s ∈ TypesOf env argument := by
        intro u inTypes
        rcases typesOf inTypes with ⟨-, assumptions, envTyped, typing⟩
        cases typing with
        | apply functionTyping argumentTyping =>
            exact ⟨_, ⟨functions.1, assumptions, envTyped, functionTyping⟩,
              functions.2, assumptions, envTyped, argumentTyping⟩
      refine ⟨_, rfl, receives.opens ⟨t, inTypes⟩ (fun u inTypes => ?_) ?_⟩
      · rcases opened u inTypes with ⟨s, function, argument⟩
        exact ⟨s, argument, function⟩
      · rcases opened t inTypes with ⟨s, function, -⟩
        exact ⟨_, function⟩
  | let_ range id value body =>
      have opened : ∀ u ∈ types, (Frame.bind env id body).Gives
          (TypesOf env value) u ∧ (TypesOf env value).Nonempty := by
        intro u inTypes
        rcases typesOf inTypes with ⟨-, assumptions, envTyped, typing⟩
        cases typing with
        | let_ valueTyping generalises bodyTyping =>
            refine ⟨⟨functions.2, assumptions, _, envTyped, fun s admits => ?_,
              bodyTyping⟩, _, functions.1, assumptions, envTyped, valueTyping⟩
            exact ⟨functions.1, assumptions, envTyped,
              valueTyping.instances generalises admits⟩
      exact ⟨_, rfl, receives.opens ⟨t, inTypes⟩
        (fun u inTypes => (opened u inTypes).1) (opened t inTypes).2⟩
  | letrec range id value body =>
      rcases functions with ⟨isLambda, inValue, inBody⟩
      cases value with
      | lambda lambdaRange lambdaId lambdaBody =>
          refine ⟨_, rfl, types, ⟨t, inTypes⟩, fun u inTypes => ?_, receives⟩
          rcases typesOf inTypes with ⟨-, assumptions, envTyped, typing⟩
          cases typing with
          | letrec plain valueTyping generalises bodyTyping =>
              refine ⟨inBody, _, envTyped.cons fun s admits => ?_, bodyTyping⟩
              exact .of_lambda envTyped inValue
                (valueTyping.instances_recursive generalises admits)
      | _ => exact isLambda.elim
  | if_ range test thenArm elseArm =>
      have opened : ∀ u ∈ types, .bool ∈ TypesOf env test ∧
          u ∈ TypesOf env thenArm ∧ u ∈ TypesOf env elseArm := by
        intro u inTypes
        rcases typesOf inTypes with ⟨-, assumptions, envTyped, typing⟩
        cases typing with
        | if_ testTyping thenTyping elseTyping =>
            exact ⟨⟨functions.1, assumptions, envTyped, testTyping⟩,
              ⟨functions.2.1, assumptions, envTyped, thenTyping⟩,
              functions.2.2, assumptions, envTyped, elseTyping⟩
      exact ⟨_, rfl, receives.opens ⟨t, inTypes⟩ opened
        ⟨_, (opened t inTypes).1⟩⟩
  | binary range operator left right =>
      have opened : ∀ u ∈ types, ∃ s ∈ TypesOf env left,
          OperatorTypes operator s u ∧ s ∈ TypesOf env right := by
        intro u inTypes
        rcases typesOf inTypes with ⟨-, assumptions, envTyped, typing⟩
        cases typing with
        | binary operatorTypes leftTyping rightTyping =>
            exact ⟨_, ⟨functions.1, assumptions, envTyped, leftTyping⟩,
              operatorTypes, functions.2, assumptions, envTyped, rightTyping⟩
      refine ⟨_, rfl, receives.opens ⟨t, inTypes⟩ opened ?_⟩
      rcases opened t inTypes with ⟨s, inLeft, -⟩
      exact ⟨s, inLeft⟩
  | unary range operator arg =>
      have opened : types ⊆ TypesOf env arg := by
        intro u inTypes
        rcases typesOf inTypes with ⟨-, assumptions, envTyped, typing⟩
        cases typing with
        | unary argTyping => exact ⟨functions, assumptions, envTyped, argTyping⟩
      exact ⟨_, rfl, receives.opens ⟨t, inTypes⟩ opened ⟨t, opened inTypes⟩⟩
  | tuple range first rest length =>
      have opened : ∀ u ∈ types, ∃ s ∈ TypesOf env first,
          ∃ last ∈ TypesOf env rest, u = .tuple s last := by
        intro u inTypes
        rcases typesOf inTypes with ⟨-, assumptions, envTyped, typing⟩
        cases typing with
        | tuple firstTyping restTyping =>
            exact ⟨_, ⟨functions.1, assumptions, envTyped, firstTyping⟩, _,
              ⟨functions.2, assumptions, envTyped, restTyping⟩, rfl⟩
      refine ⟨_, rfl, receives.opens ⟨t, inTypes⟩ opened ?_⟩
      rcases opened t inTypes with ⟨s, inFirst, -⟩
      exact ⟨s, inFirst⟩
  | tupleFinal range first =>
      have opened : ∀ u ∈ types, ∃ s ∈ TypesOf env first,
          u = .tupleFinal s := by
        intro u inTypes
        rcases typesOf inTypes with ⟨-, assumptions, envTyped, typing⟩
        cases typing with
        | tupleFinal firstTyping =>
            exact ⟨_, ⟨functions, assumptions, envTyped, firstTyping⟩, rfl⟩
      refine ⟨_, rfl, receives.opens ⟨t, inTypes⟩ opened ?_⟩
      rcases opened t inTypes with ⟨s, inFirst, -⟩
      exact ⟨s, inFirst⟩
  | error range | invalid range =>
      rcases typesOf inTypes with ⟨-, assumptions, -, typing⟩
      cases typing

/-- The operands and the result of an operator other than `=` are integers. -/
theorem operatorTypes_int {operator : TokenType} {s t : Ty Leaf}
    (operatorTypes : OperatorTypes operator s t)
    (other : operator ≠ .tokEquals) : s = .int ∧ t = .int := by
  cases operatorTypes with
  | arithmetic among => exact ⟨rfl, rfl⟩
  | equality s => exact absurd rfl other

/-- A value that the next frame receives is used for what it is. -/
theorem resume_typed (typed : ∀ t ∈ types, ValueTyped value t)
    (receives : Receives whole (frame :: frames) types) :
    (∃ next, resume equal value frames frame = some next ∧ next.Typed whole) ∨
      (Configuration.returning value (frame :: frames)).NegatesOther ∨
      (Configuration.returning value (frame :: frames)).Unsupported := by
  rcases receives with ⟨results, ⟨t, inResults⟩, gives, receives⟩
  have given := gives t inResults
  cases frame with
  | argument env argument =>
      refine .inl ⟨_, rfl, receives.opens ⟨t, inResults⟩ (fun u inResults => ?_)
        ?_⟩
      · rcases gives u inResults with ⟨s, argument, function⟩
        exact ⟨s, argument, typed _ function⟩
      · rcases given with ⟨s, argument, -⟩
        exact ⟨s, argument⟩
  | call function =>
      rcases given with ⟨s, inTypes, functionTyped⟩
      rcases functionTyped.enters (typed s inTypes) with
        ⟨env, selfId, id, body, rfl, -⟩
      refine .inl ⟨_, rfl, results, ⟨t, inResults⟩, fun u inResults => ?_,
        receives⟩
      rcases gives u inResults with ⟨s, inTypes, functionTyped⟩
      rcases functionTyped.enters (typed s inTypes) with
        ⟨_, _, _, _, same, inBody⟩
      cases same
      exact inBody
  | bind env id body =>
      refine .inl ⟨_, rfl, results, ⟨t, inResults⟩, fun u inResults => ?_,
        receives⟩
      rcases gives u inResults with
        ⟨functions, assumptions, scheme, envTyped, all, bodyTyping⟩
      exact ⟨functions, _, envTyped.cons fun s admits => typed s (all s admits),
        bodyTyping⟩
  | branch env thenArm elseArm =>
      rcases (typed _ given.1).of_bool with ⟨truth, rfl⟩
      cases truth with
      | true =>
          exact .inl ⟨_, rfl, results, ⟨t, inResults⟩,
            fun u inResults => (gives u inResults).2.1, receives⟩
      | false =>
          exact .inl ⟨_, rfl, results, ⟨t, inResults⟩,
            fun u inResults => (gives u inResults).2.2, receives⟩
  | right env operator right =>
      refine .inl ⟨_, rfl, receives.opens ⟨t, inResults⟩ (fun u inResults => ?_)
        ?_⟩
      · rcases gives u inResults with ⟨s, inTypes, operatorTypes, right⟩
        exact ⟨s, right, operatorTypes, typed s inTypes⟩
      · rcases given with ⟨s, -, -, right⟩
        exact ⟨s, right⟩
  | operand operator left =>
      rcases given with ⟨s, inTypes, operatorTypes, leftTyped⟩
      by_cases supported :
          operator ∈ [.tokPlus, .tokMinus, .tokStar, .tokEquals]
      · refine .inl ?_
        by_cases isEquals : operator = .tokEquals
        · subst isEquals
          refine ⟨.returning (.bool (equal left value)) frames, rfl, results,
            ⟨t, inResults⟩, fun u inResults => ?_, receives⟩
          rcases gives u inResults with ⟨_, -, operatorTypes, -⟩
          cases operatorTypes with
          | arithmetic among => simp at among
          | equality s => exact .bool
        · rcases operatorTypes_int operatorTypes isEquals with ⟨rfl, -⟩
          rcases leftTyped.of_int with ⟨leftLiteral, rfl⟩
          rcases (typed _ inTypes).of_int with ⟨rightLiteral, rfl⟩
          have applies : ∃ literal, applyBinary equal operator
              (.int leftLiteral) (.int rightLiteral) = some (.int literal) := by
            simp only [List.mem_cons, List.not_mem_nil, or_false] at supported
            rcases supported with rfl | rfl | rfl | rfl
            · exact ⟨_, rfl⟩
            · exact ⟨_, rfl⟩
            · exact ⟨_, rfl⟩
            · exact absurd rfl isEquals
          rcases applies with ⟨literal, applies⟩
          refine ⟨.returning (.int literal) frames,
            by rw [resume, applies]; rfl, results, ⟨t, inResults⟩,
            fun u inResults => ?_, receives⟩
          rcases gives u inResults with ⟨_, -, operatorTypes, -⟩
          rw [(operatorTypes_int operatorTypes isEquals).2]
          exact .int
      · exact .inr (.inr supported)
  | unary operator =>
      by_cases isMinus : operator = .tokMinus
      · subst isMinus
        cases value with
        | int literal =>
            refine .inl ⟨.returning (.int (-literal)) frames, rfl, results,
              ⟨t, inResults⟩, fun u inResults => ?_, receives⟩
            have argTyped := typed u (gives u inResults)
            cases argTyped
            exact .int
        | _ => exact .inr (.inl id)
      · exact .inr (.inr isMinus)
  | rest env rest =>
      refine .inl ⟨_, rfl, receives.opens ⟨t, inResults⟩ (fun u inResults => ?_)
        ?_⟩
      · rcases gives u inResults with ⟨first, inTypes, last, inRest, rfl⟩
        exact ⟨first, typed first inTypes, last, inRest, rfl⟩
      · rcases given with ⟨-, -, last, inRest, -⟩
        exact ⟨last, inRest⟩
  | component first =>
      refine .inl ⟨_, rfl, results, ⟨t, inResults⟩, fun u inResults => ?_,
        receives⟩
      rcases gives u inResults with ⟨s, firstTyped, last, inTypes, rfl⟩
      exact .tuple firstTyped (typed last inTypes)
  | final =>
      refine .inl ⟨_, rfl, results, ⟨t, inResults⟩, fun u inResults => ?_,
        receives⟩
      rcases gives u inResults with ⟨first, inTypes, rfl⟩
      exact .tupleFinal (typed first inTypes)

/-- A configuration whose types fit goes on by them. -/
theorem Configuration.Typed.goes_on (equal : Value → Value → Bool)
    {configuration : Configuration} (typed : configuration.Typed whole) :
    configuration.Final ∨
      (∃ next, step equal configuration = some next ∧ next.Typed whole) ∨
      configuration.NegatesOther ∨ configuration.Unsupported := by
  cases configuration with
  | evaluating expression env frames =>
      rcases typed with ⟨types, some_, typesOf, receives⟩
      exact .inr (.inl (evaluate_typed some_ typesOf receives))
  | returning value frames =>
      rcases typed with ⟨types, some_, typed, receives⟩
      cases frames with
      | nil => exact .inl trivial
      | cons frame frames => exact .inr (resume_typed typed receives)

/-- A step keeps the types fitting. -/
theorem Configuration.Typed.step {configuration next : Configuration}
    (typed : configuration.Typed whole)
    (steps : Pipeline.step equal configuration = some next) :
    next.Typed whole := by
  have goes (stops : Pipeline.step equal configuration = none) :
      next.Typed whole := by
    rw [steps] at stops
    cases stops
  rcases typed.goes_on equal with
    final | ⟨other, steps', typed'⟩ | negates | unsupported
  · exact goes final.stops
  · rw [steps] at steps'
    cases steps'
    exact typed'
  · exact goes negates.fault.stops
  · exact goes unsupported.stops

/-- And so does a run. -/
theorem Configuration.Typed.reaches {configuration after : Configuration}
    (typed : configuration.Typed whole)
    (run : Reaches equal configuration after) : after.Typed whole := by
  induction run with
  | refl => exact typed
  | tail _ steps ih => exact ih.step steps

/-- The one fault in a configuration whose types fit is a unary minus. -/
theorem Configuration.Typed.negates_of_fault {configuration : Configuration}
    (typed : configuration.Typed whole) (fault : Fault configuration) :
    configuration.NegatesOther := by
  rcases typed.goes_on fun _ _ => true with
    final | ⟨next, steps, -⟩ | negates | unsupported
  · cases fault <;> exact final.elim
  · rw [fault.stops] at steps
    cases steps
  · exact negates
  · cases fault with
    | arithmetic among other =>
        exact (unsupported
          (List.mem_append_left [TokenType.tokEquals] among)).elim
    | negation other => exact absurd rfl unsupported
    | test other | call other => exact unsupported.elim

/-- A final configuration holds a value of the type. -/
theorem Configuration.Typed.result
    (typed : (Configuration.returning value []).Typed whole) :
    ValueTyped value whole := by
  rcases typed with ⟨types, -, typed, inTypes⟩
  exact typed whole inTypes

/-- A closed expression of some type starts with its types fitting. -/
theorem Configuration.typed_start (functions : RecursiveFunctions expression)
    (typing : Typing [] expression whole) :
    (start expression).Typed whole := by
  have inTypes : whole ∈ TypesOf [] expression :=
    ⟨functions, [], .nil, typing⟩
  exact ⟨TypesOf [] expression, ⟨whole, inTypes⟩, subset_rfl, inTypes⟩

end

end Millie.Pipeline
