import Millie.Foundation.Stop
import Millie.Pipeline.Evaluation

/-!
# Interpretation

The evaluation as a function of the expression: `interpretWith` takes the
meaning of a call as a parameter, and `interpret` bounds the depth of the calls.
A result of the interpretation is a value that the machine returns, a wrong use
of a value that it arrives at, or the number of steps that it goes on for.
-/

namespace Millie.Pipeline

open Relation
open Millie.Symbols Millie.Syntax

/-! ## The interpretation -/

/-- The value of a variable. -/
def valueOf (env : Environment) (id : Symbol) : Except Stop Value :=
  match env.lookup id with
  | some value => .ok value
  | none => .error .undefinedBehaviour

/-- An operation on integers. -/
def onInts (operation : UInt64 → UInt64 → UInt64) :
    Value → Value → Except Stop Value
  | .int left, .int right => .ok (.int (operation left right))
  | _, _ => .error .undefinedBehaviour

/-- A comparison of integers or of truth values. -/
def compareValues : Value → Value → Except Stop Value
  | .int left, .int right => .ok (.bool (left == right))
  | .bool left, .bool right => .ok (.bool (left == right))
  | _, _ => .error .undefinedBehaviour

/-- The negation of an integer. -/
def negateInt : Value → Except Stop Value
  | .int arg => .ok (.int (-arg))
  | _ => .error .undefinedBehaviour

/-- A binary operator; one that has no instruction fails. -/
def operate (operator : TokenType) (left right : Value) : Except Stop Value :=
  match operator with
  | .tokPlus => onInts (· + ·) left right
  | .tokMinus => onInts (· - ·) left right
  | .tokStar => onInts (· * ·) left right
  | .tokEquals => compareValues left right
  | _ => .error .failed

/-- A unary operator; one that has no instruction fails. -/
def negate (operator : TokenType) (arg : Value) : Except Stop Value :=
  match operator with
  | .tokMinus => negateInt arg
  | _ => .error .failed

/-- The arm that a test chooses. -/
def choose {α : Type} (test : Value) (thenArm elseArm : Except Stop α) :
    Except Stop α :=
  match test with
  | .bool true => thenArm
  | .bool false => elseArm
  | _ => .error .undefinedBehaviour

/-- An expression's value in an environment, up to what calls mean. -/
def interpretWith (call : Value → Value → Except Stop Value) :
    Expression → Environment → Except Stop Value
  | .integerConstant _ literalValue, _ => .ok (.int literalValue)
  | .true_ _, _ => .ok (.bool true)
  | .false_ _, _ => .ok (.bool false)
  | .identifier _ id, env => valueOf env id
  | .lambda _ id body, env => .ok (.closure env none id body)
  | .apply _ function argument, env => do
      let function ← interpretWith call function env
      let argument ← interpretWith call argument env
      call function argument
  | .let_ _ id value body, env => do
      let value ← interpretWith call value env
      interpretWith call body ((id, value) :: env)
  | .letrec _ id value body, env =>
      match value with
      | .lambda _ lambdaId lambdaBody =>
          interpretWith call body
            ((id, .closure env (some id) lambdaId lambdaBody) :: env)
      | _ => .error .undefinedBehaviour
  | .if_ _ test thenArm elseArm, env => do
      let test ← interpretWith call test env
      choose test (interpretWith call thenArm env)
        (interpretWith call elseArm env)
  | .binary _ operator left right, env => do
      let left ← interpretWith call left env
      let right ← interpretWith call right env
      operate operator left right
  | .unary _ operator arg, env => do
      let arg ← interpretWith call arg env
      negate operator arg
  | .tuple _ first rest _, env => do
      let first ← interpretWith call first env
      let rest ← interpretWith call rest env
      return .tuple first rest
  | .tupleFinal _ first, env => do
      let first ← interpretWith call first env
      return .tupleFinal first
  | .error _, _ | .invalid _, _ => .error .undefinedBehaviour

theorem interpretWith_letrec_other {value : Expression}
    (notLambda : ¬value.IsLambda)
    (call : Value → Value → Except Stop Value) (range : TokenRange)
    (id : Symbol) (body : Expression) (env : Environment) :
    interpretWith call (.letrec range id value body) env =
      .error .undefinedBehaviour := by
  cases value with
  | lambda range id body => exact absurd trivial notLambda
  | _ => rfl

/-- A call, given how bodies are interpreted. -/
def callWith (body : Expression → Environment → Except Stop Value) :
    Value → Value → Except Stop Value
  | .closure env selfId id expression, argument =>
      body expression (entered env selfId id expression argument)
  | _, _ => .error .undefinedBehaviour

/-- The interpretation with calls up to a depth. -/
def interpret : Nat → Expression → Environment → Except Stop Value
  | 0, _, _ => .error .outOfFuel
  | depth + 1, expression, env =>
      interpretWith (callWith (interpret depth)) expression env

/-! ## What an interpretation says about the machine -/

/-- An equality that is right on integers and on truth values. -/
structure Standard (equal : Value → Value → Bool) : Prop where
  int : ∀ left right, equal (.int left) (.int right) = (left == right)
  bool : ∀ left right, equal (.bool left) (.bool right) = (left == right)

/-- Two integers or two truth values. -/
def Value.Comparable (left right : Value) : Prop :=
  left.IsInt ∧ right.IsInt ∨ left.IsBool ∧ right.IsBool

instance : DecidablePred Value.IsInt
  | .int _ => isTrue trivial
  | .bool _ | .closure _ _ _ _ | .tuple _ _ | .tupleFinal _ => isFalse id

instance : DecidablePred Value.IsBool
  | .bool _ => isTrue trivial
  | .int _ | .closure _ _ _ _ | .tuple _ _ | .tupleFinal _ => isFalse id

instance (left right : Value) : Decidable (left.Comparable right) :=
  inferInstanceAs (Decidable (_ ∨ _))

/-- Values are about to be compared that `=` says nothing about. -/
def Configuration.ComparesOthers : Configuration → Prop
  | returning right (.operand .tokEquals left :: _) => ¬left.Comparable right
  | _ => False

instance : DecidablePred Configuration.NegatesOther := fun configuration => by
  unfold Configuration.NegatesOther
  split <;> infer_instance

instance : DecidablePred Configuration.ComparesOthers :=
  fun configuration => by
    unfold Configuration.ComparesOthers
    split <;> infer_instance

/-- The machine stops without a result, or its next step is left open. -/
def Wrong (equal : Value → Value → Bool) (configuration : Configuration) :
    Prop :=
  step equal configuration = none ∧ ¬configuration.Final ∨
    configuration.ComparesOthers

/-- The machine can take a number of steps. -/
def Lasts (equal : Value → Value → Bool) : Nat → Configuration → Prop
  | 0, _ => True
  | n + 1, configuration =>
      ∃ next, step equal configuration = some next ∧ Lasts equal n next

/-- What the result of an interpretation says about a configuration. -/
def Tells (equal : Value → Value → Bool) (depth : Nat)
    (configuration : Configuration) (frames : List Frame) :
    Except Stop Value → Prop
  | .ok value => Reaches equal configuration (.returning value frames)
  | .error .outOfFuel => Lasts equal depth configuration
  | .error .undefinedBehaviour => ∃ wrong, Reaches equal configuration wrong ∧
      Wrong equal wrong ∧ ¬wrong.Unsupported
  | .error .failed => ∃ wrong, Reaches equal configuration wrong ∧
      wrong.Unsupported

section

variable {equal : Value → Value → Bool} {depth : Nat}
  {configuration next : Configuration} {frames : List Frame}

theorem Lasts.shorter {less : Nat} (lasts : Lasts equal depth configuration)
    (fewer : less ≤ depth) : Lasts equal less configuration := by
  induction less generalizing depth configuration with
  | zero => trivial
  | succ less ih =>
      rcases Nat.exists_eq_add_of_le' (Nat.le_trans (Nat.le_add_left 1 less)
        fewer) with ⟨depth, rfl⟩
      rcases lasts with ⟨next, steps, rest⟩
      exact ⟨next, steps, ih rest (Nat.le_of_succ_le_succ fewer)⟩

theorem Lasts.head (run : Reaches equal configuration next)
    (lasts : Lasts equal depth next) : Lasts equal depth configuration := by
  induction run using ReflTransGen.head_induction_on with
  | refl => exact lasts
  | head steps _ ih =>
      have longer : Lasts equal (depth + 1) _ := ⟨_, steps, ih⟩
      exact longer.shorter (Nat.le_succ depth)

namespace Tells

/-- Steps before what the result speaks of. -/
theorem head {result : Except Stop Value}
    (run : Reaches equal configuration next)
    (tells : Tells equal depth next frames result) :
    Tells equal depth configuration frames result := by
  cases result with
  | ok value => exact run.trans tells
  | error stop =>
      cases stop with
      | outOfFuel => exact Lasts.head run tells
      | undefinedBehaviour | failed =>
          rcases tells with ⟨wrong, toWrong, isWrong⟩
          exact ⟨wrong, run.trans toWrong, isWrong⟩

theorem step {result : Except Stop Value}
    (steps : Pipeline.step equal configuration = some next)
    (tells : Tells equal depth next frames result) :
    Tells equal depth configuration frames result :=
  tells.head (.single steps)

/-- A value on which the rest of the interpretation depends. -/
theorem bind {frame : Frame} {first : Except Stop Value}
    {rest : Value → Except Stop Value}
    (tells : Tells equal depth configuration (frame :: frames) first)
    (goesOn : ∀ value, Tells equal depth (.returning value (frame :: frames))
      frames (rest value)) :
    Tells equal depth configuration frames (first >>= rest) := by
  cases first with
  | ok value => exact (goesOn value).head tells
  | error stop =>
      cases stop with
      | outOfFuel => exact tells
      | undefinedBehaviour | failed => exact tells

/-- No rule applies, but not for want of an instruction. -/
theorem stuck (stops : Pipeline.step equal configuration = none)
    (notFinal : ¬configuration.Final)
    (supported : ¬configuration.Unsupported) :
    Tells equal depth configuration frames (.error .undefinedBehaviour) :=
  ⟨configuration, .refl, .inl ⟨stops, notFinal⟩, supported⟩

end Tells

theorem onInts_tells {operation : UInt64 → UInt64 → UInt64}
    {operator : TokenType} {left right : Value}
    (among : operator ∈ [.tokPlus, .tokMinus, .tokStar])
    (applies : ∀ left right, applyBinary equal operator (.int left)
      (.int right) = some (.int (operation left right))) :
    Tells equal depth (.returning right (.operand operator left :: frames))
      frames (onInts operation left right) := by
  have wider : operator ∈
      [TokenType.tokPlus, .tokMinus, .tokStar] ++ [.tokEquals] :=
    List.mem_append_left _ among
  have supported : ¬(Configuration.returning right
      (.operand operator left :: frames)).Unsupported := fun unsupported =>
    unsupported wider
  unfold onInts
  split
  · rename_i left right
    refine .single ?_
    rw [step, resume, applies]
    rfl
  · rename_i other
    refine .stuck (Fault.arithmetic among ?_).stops id supported
    rintro ⟨leftInt, rightInt⟩
    cases left with
    | int left =>
        cases right with
        | int right => exact other left right rfl rfl
        | _ => exact rightInt
    | _ => exact leftInt

theorem compareValues_tells (standard : Standard equal) (left right : Value) :
    Tells equal depth (.returning right (.operand .tokEquals left :: frames))
      frames (compareValues left right) := by
  unfold compareValues
  split
  · rename_i left right
    have value := standard.int left right
    refine .single ?_
    rw [← value]
    rfl
  · rename_i left right
    have value := standard.bool left right
    refine .single ?_
    rw [← value]
    rfl
  · rename_i noInts noBools
    refine ⟨_, .refl, .inr ?_, fun unsupported => unsupported (by simp)⟩
    rintro (⟨leftInt, rightInt⟩ | ⟨leftBool, rightBool⟩)
    · cases left with
      | int left =>
          cases right with
          | int right => exact noInts left right rfl rfl
          | _ => exact rightInt
      | _ => exact leftInt
    · cases left with
      | bool left =>
          cases right with
          | bool right => exact noBools left right rfl rfl
          | _ => exact rightBool
      | _ => exact leftBool

theorem operate_tells (standard : Standard equal) (operator : TokenType)
    (left right : Value) :
    Tells equal depth (.returning right (.operand operator left :: frames))
      frames (operate operator left right) := by
  cases operator with
  | tokPlus | tokMinus | tokStar =>
      exact onInts_tells (by simp) fun left right => rfl
  | tokEquals => exact compareValues_tells standard left right
  | _ => exact ⟨_, .refl, by simp [Configuration.Unsupported]⟩

theorem negate_tells (operator : TokenType) (arg : Value) :
    Tells equal depth (.returning arg (.unary operator :: frames)) frames
      (negate operator arg) := by
  cases operator with
  | tokMinus =>
      cases arg with
      | int arg => exact .single rfl
      | _ => exact .stuck rfl id fun unsupported => unsupported rfl
  | _ => exact ⟨_, .refl, by simp [Configuration.Unsupported]⟩

/-- A call goes one level deeper. -/
theorem callWith_tells {body : Expression → Environment → Except Stop Value}
    (bodies : ∀ expression env, Tells equal depth
      (.evaluating expression env frames) frames (body expression env))
    (function argument : Value) :
    Tells equal (depth + 1) (.returning argument (.call function :: frames))
      frames (callWith body function argument) := by
  cases function with
  | closure env selfId id expression =>
      have inside := bodies expression (entered env selfId id expression
        argument)
      rw [callWith]
      cases result : body expression (entered env selfId id expression
          argument) with
      | ok value =>
          rw [result] at inside
          exact ReflTransGen.head rfl inside
      | error stop =>
          rw [result] at inside
          cases stop with
          | outOfFuel => exact ⟨_, rfl, inside⟩
          | undefinedBehaviour | failed =>
              rcases inside with ⟨wrong, toWrong, isWrong⟩
              exact ⟨wrong, .head rfl toWrong, isWrong⟩
  | _ => exact .stuck rfl id id

theorem interpretWith_tells (standard : Standard equal)
    {call : Value → Value → Except Stop Value}
    (calls : ∀ function argument frames, Tells equal depth
      (.returning argument (.call function :: frames)) frames
      (call function argument))
    (expression : Expression) (env : Environment) (frames : List Frame) :
    Tells equal depth (.evaluating expression env frames) frames
      (interpretWith call expression env) := by
  induction expression using Expression.functionInduction
    generalizing env frames with
  | integerConstant | true_ | false_ | lambda => exact .single rfl
  | error | invalid => exact .stuck rfl id id
  | identifier range id =>
      rw [interpretWith, valueOf]
      cases found : env.lookup id with
      | some value =>
          refine .single ?_
          rw [step, evaluate, found]
          rfl
      | none =>
          refine .stuck ?_ (fun final => final) (fun other => other)
          rw [step, evaluate, found]
          rfl
  | apply range function argument functionIh argumentIh =>
      refine .step rfl (.bind (functionIh env _) fun functionValue => ?_)
      refine .step rfl (.bind (argumentIh env _) fun argumentValue => ?_)
      exact calls functionValue argumentValue frames
  | let_ range id value body valueIh bodyIh =>
      refine .step rfl (.bind (valueIh env _) fun bound => ?_)
      exact .step rfl (bodyIh _ frames)
  | letrecFunction range id lambdaRange lambdaId lambdaBody body lambdaIh
      bodyIh => exact .step rfl (bodyIh _ frames)
  | letrecOther range id value body notLambda valueIh bodyIh =>
      rw [interpretWith_letrec_other notLambda]
      refine .stuck ?_ (fun final => final) (fun other => other)
      cases value with
      | lambda range id body => exact absurd trivial notLambda
      | _ => rfl
  | if_ range test thenArm elseArm testIh thenIh elseIh =>
      refine .step rfl (.bind (testIh env _) fun tested => ?_)
      cases tested with
      | bool tested =>
          cases tested with
          | true => exact .step rfl (thenIh env frames)
          | false => exact .step rfl (elseIh env frames)
      | _ => exact .stuck rfl id id
  | binary range operator left right leftIh rightIh =>
      refine .step rfl (.bind (leftIh env _) fun leftValue => ?_)
      refine .step rfl (.bind (rightIh env _) fun rightValue => ?_)
      exact operate_tells standard operator leftValue rightValue
  | unary range operator arg argIh =>
      refine .step rfl (.bind (argIh env _) fun argValue => ?_)
      exact negate_tells operator argValue
  | tuple range first rest length firstIh restIh =>
      refine .step rfl (.bind (firstIh env _) fun firstValue => ?_)
      refine .step rfl (.bind (restIh env _) fun restValue => ?_)
      exact .single rfl
  | tupleFinal range first firstIh =>
      refine .step rfl (.bind (firstIh env _) fun firstValue => ?_)
      exact .single rfl

/-- The interpretation tells what the machine does. -/
theorem interpret_tells (standard : Standard equal) (depth : Nat)
    (expression : Expression) (env : Environment) (frames : List Frame) :
    Tells equal depth (.evaluating expression env frames) frames
      (interpret depth expression env) := by
  induction depth generalizing expression env frames with
  | zero => exact trivial
  | succ depth ih =>
      exact interpretWith_tells standard
        (fun function argument frames => callWith_tells
          (fun expression env => ih expression env frames) function argument)
        expression env frames

/-! ## Runs that end -/

theorem step_unique {first second : Configuration}
    (toFirst : Reaches equal configuration first)
    (toSecond : Reaches equal configuration second)
    (firstStops : step equal first = none)
    (secondStops : step equal second = none) : first = second := by
  have unique : Relator.RightUnique fun before after : Configuration =>
      step equal before = some after := by
    intro before after other steps others
    rw [steps] at others
    exact Option.some.inj others
  have stays : ∀ {from_ last : Configuration}, step equal from_ = none →
      Reaches equal from_ last → last = from_ := by
    intro from_ last stops run
    rcases run.cases_head with same | ⟨next, steps, -⟩
    · exact same.symm
    · rw [stops] at steps
      cases steps
  rcases ReflTransGen.total_of_right_unique unique toFirst toSecond with
    run | run
  · exact (stays firstStops run).symm
  · exact stays secondStops run

/-- A run that ends does not last. -/
theorem Reaches.bounded (run : Reaches equal configuration next)
    (stops : step equal next = none) :
    ∃ bound, ¬Lasts equal bound configuration := by
  induction run using ReflTransGen.head_induction_on with
  | refl =>
      refine ⟨1, ?_⟩
      rintro ⟨after, steps, -⟩
      rw [stops] at steps
      cases steps
  | head steps _ ih =>
      rcases ih with ⟨bound, short⟩
      refine ⟨bound + 1, ?_⟩
      rintro ⟨after, same, lasts⟩
      rw [steps] at same
      cases same
      exact short lasts

/--
The interpretation finds the value that the machine returns, if no comparison is
left open on the way.
-/
theorem interpret_complete (standard : Standard equal)
    {expression : Expression} {env : Environment} {value : Value}
    (run : Reaches equal (.evaluating expression env [])
      (.returning value []))
    (settled : ∀ configuration,
      Reaches equal (.evaluating expression env []) configuration →
      ¬configuration.ComparesOthers) :
    ∃ depth, interpret depth expression env = .ok value := by
  rcases run.bounded rfl with ⟨depth, short⟩
  have tells := interpret_tells standard depth expression env []
  refine ⟨depth, ?_⟩
  cases result : interpret depth expression env with
  | ok other =>
      rw [result] at tells
      cases step_unique run tells rfl rfl
      rfl
  | error stop =>
      rw [result] at tells
      cases stop with
      | outOfFuel => exact absurd tells short
      | undefinedBehaviour =>
          rcases tells with
            ⟨wrong, toWrong, ⟨stops, notFinal⟩ | compares, -⟩
          · rw [step_unique toWrong run stops rfl] at notFinal
            exact absurd trivial notFinal
          · exact absurd compares (settled wrong toWrong)
      | failed =>
          rcases tells with ⟨wrong, toWrong, unsupported⟩
          have same := step_unique toWrong run unsupported.stops rfl
          rw [same] at unsupported
          exact unsupported.elim

end

end Millie.Pipeline
