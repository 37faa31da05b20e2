import Millie.Syntax.Expression
import Mathlib.Logic.Relation

/-!
# Call-by-value evaluation

The reference meaning of an expression: a machine that evaluates expressions in
an environment, operands from left to right, with a stack of frames for what is
left to do with a value.  There is one step for each rule; where no rule applies
the machine stops.  What `=` says about functions and tuples is left open.
-/

namespace Millie.Pipeline

open Relation
open Millie.Symbols Millie.Syntax

/-! ## Values and configurations -/

/-- A value.  A function that a let rec binds knows its own name. -/
inductive Value where
  | int (value : UInt64)
  | bool (value : Bool)
  | closure (env : List (Symbol × Value)) (selfId : Option Symbol)
      (id : Symbol) (body : Expression)
  | tuple (first rest : Value)
  | tupleFinal (first : Value)

/-- The values of the names in scope, the innermost binding first. -/
abbrev Environment := List (Symbol × Value)

/-- What is left to do with a value. -/
inductive Frame where
  | argument (env : Environment) (argument : Expression)
  | call (function : Value)
  | bind (env : Environment) (id : Symbol) (body : Expression)
  | branch (env : Environment) (thenArm elseArm : Expression)
  | right (env : Environment) (operator : TokenType) (right : Expression)
  | operand (operator : TokenType) (left : Value)
  | unary (operator : TokenType)
  | rest (env : Environment) (rest : Expression)
  | component (first : Value)
  | final

/-- An expression to evaluate or a value to go on with. -/
inductive Configuration where
  | evaluating (expression : Expression) (env : Environment)
      (frames : List Frame)
  | returning (value : Value) (frames : List Frame)

/-! ## Steps -/

/-- The environment in which a function's body runs. -/
def entered (env : Environment) (selfId : Option Symbol) (id : Symbol)
    (body : Expression) (argument : Value) : Environment :=
  (id, argument) ::
    match selfId with
    | none => env
    | some self => (self, .closure env selfId id body) :: env

/-- The binary operators; there is no instruction for the division. -/
def applyBinary (equal : Value → Value → Bool) :
    TokenType → Value → Value → Option Value
  | .tokPlus, .int left, .int right => some (.int (left + right))
  | .tokMinus, .int left, .int right => some (.int (left - right))
  | .tokStar, .int left, .int right => some (.int (left * right))
  | .tokEquals, left, right => some (.bool (equal left right))
  | _, _, _ => none

/-- The unary operators; there is no instruction for a plus. -/
def applyUnary : TokenType → Value → Option Value
  | .tokMinus, .int arg => some (.int (-arg))
  | _, _ => none

/-- One step into an expression. -/
def evaluate (env : Environment) (frames : List Frame) :
    Expression → Option Configuration
  | .integerConstant _ literalValue =>
      some (.returning (.int literalValue) frames)
  | .true_ _ => some (.returning (.bool true) frames)
  | .false_ _ => some (.returning (.bool false) frames)
  | .identifier _ id => (env.lookup id).map (.returning · frames)
  | .lambda _ id body => some (.returning (.closure env none id body) frames)
  | .apply _ function argument =>
      some (.evaluating function env (.argument env argument :: frames))
  | .let_ _ id value body =>
      some (.evaluating value env (.bind env id body :: frames))
  | .letrec _ id (.lambda _ lambdaId lambdaBody) body =>
      some (.evaluating body
        ((id, .closure env (some id) lambdaId lambdaBody) :: env) frames)
  | .if_ _ test thenArm elseArm =>
      some (.evaluating test env (.branch env thenArm elseArm :: frames))
  | .binary _ operator left right =>
      some (.evaluating left env (.right env operator right :: frames))
  | .unary _ operator arg =>
      some (.evaluating arg env (.unary operator :: frames))
  | .tuple _ first rest _ =>
      some (.evaluating first env (.rest env rest :: frames))
  | .tupleFinal _ first => some (.evaluating first env (.final :: frames))
  | .letrec _ _ _ _ | .error _ | .invalid _ => none

/-- One step with a value and the frame that waits for it. -/
def resume (equal : Value → Value → Bool) (value : Value)
    (frames : List Frame) : Frame → Option Configuration
  | .argument env argument =>
      some (.evaluating argument env (.call value :: frames))
  | .call function =>
      match function with
      | .closure env selfId id body =>
          some (.evaluating body (entered env selfId id body value) frames)
      | _ => none
  | .bind env id body => some (.evaluating body ((id, value) :: env) frames)
  | .branch env thenArm elseArm =>
      match value with
      | .bool true => some (.evaluating thenArm env frames)
      | .bool false => some (.evaluating elseArm env frames)
      | _ => none
  | .right env operator right =>
      some (.evaluating right env (.operand operator value :: frames))
  | .operand operator left =>
      (applyBinary equal operator left value).map (.returning · frames)
  | .unary operator => (applyUnary operator value).map (.returning · frames)
  | .rest env rest => some (.evaluating rest env (.component value :: frames))
  | .component first => some (.returning (.tuple first value) frames)
  | .final => some (.returning (.tupleFinal value) frames)

/-- One step of the machine. -/
def step (equal : Value → Value → Bool) :
    Configuration → Option Configuration
  | .evaluating expression env frames => evaluate env frames expression
  | .returning value (frame :: frames) => resume equal value frames frame
  | .returning _ [] => none

/-- Some number of steps leads from one configuration to another. -/
def Reaches (equal : Value → Value → Bool) :
    Configuration → Configuration → Prop :=
  ReflTransGen fun before after => step equal before = some after

/-- The configuration after some number of steps, or where the machine stops. -/
def runFor (equal : Value → Value → Bool) : Nat → Configuration → Configuration
  | 0, configuration => configuration
  | n + 1, configuration =>
      match step equal configuration with
      | some next => runFor equal n next
      | none => configuration

theorem reaches_runFor (equal : Value → Value → Bool) (n : Nat)
    (configuration : Configuration) :
    Reaches equal configuration (runFor equal n configuration) := by
  induction n generalizing configuration with
  | zero => exact .refl
  | succ n ih =>
      rw [runFor]
      cases steps : step equal configuration with
      | none => exact .refl
      | some next => exact .head steps (ih next)

/-- A closed expression before its evaluation. -/
def start (expression : Expression) : Configuration :=
  .evaluating expression [] []

/-! ## Where the machine stops -/

/-- The value of an integer expression. -/
def Value.IsInt : Value → Prop
  | int _ => True
  | _ => False

/-- The value of a test. -/
def Value.IsBool : Value → Prop
  | bool _ => True
  | _ => False

/-- A function value. -/
def Value.IsClosure : Value → Prop
  | closure _ _ _ _ => True
  | _ => False

/-- The whole expression has its value. -/
def Configuration.Final : Configuration → Prop
  | returning _ [] => True
  | _ => False

/-- A unary minus is about to be applied to something that is no integer. -/
def Configuration.NegatesOther : Configuration → Prop
  | returning value (.unary .tokMinus :: _) => ¬value.IsInt
  | _ => False

/-- An operator that has no instruction is about to be applied. -/
def Configuration.Unsupported : Configuration → Prop
  | returning _ (.operand operator _ :: _) =>
      operator ∉ [.tokPlus, .tokMinus, .tokStar, .tokEquals]
  | returning _ (.unary operator :: _) => operator ≠ .tokMinus
  | _ => False

/-- The machine is about to use a value for what it is not. -/
inductive Fault : Configuration → Prop where
  | arithmetic {operator : TokenType} {left right : Value}
      {frames : List Frame}
      (among : operator ∈ [.tokPlus, .tokMinus, .tokStar])
      (other : ¬(left.IsInt ∧ right.IsInt)) :
      Fault (.returning right (.operand operator left :: frames))
  | negation {arg : Value} {frames : List Frame} (other : ¬arg.IsInt) :
      Fault (.returning arg (.unary .tokMinus :: frames))
  | test {value : Value} {env : Environment} {thenArm elseArm : Expression}
      {frames : List Frame} (other : ¬value.IsBool) :
      Fault (.returning value (.branch env thenArm elseArm :: frames))
  | call {function argument : Value} {frames : List Frame}
      (other : ¬function.IsClosure) :
      Fault (.returning argument (.call function :: frames))

section

variable {equal : Value → Value → Bool} {configuration : Configuration}

theorem Configuration.Final.stops (final : configuration.Final) :
    step equal configuration = none := by
  cases configuration with
  | evaluating expression env frames => exact final.elim
  | returning value frames =>
      cases frames with
      | nil => rfl
      | cons frame frames => exact final.elim

theorem Configuration.NegatesOther.fault
    (negates : configuration.NegatesOther) : Fault configuration := by
  unfold NegatesOther at negates
  split at negates
  · exact .negation negates
  · exact negates.elim

/-- No rule applies to an operator without an instruction. -/
theorem Configuration.Unsupported.stops
    (unsupported : configuration.Unsupported) :
    step equal configuration = none := by
  unfold Unsupported at unsupported
  split at unsupported
  · rename_i value operator left frames
    have stuck : applyBinary equal operator left value = none := by
      unfold applyBinary
      split <;> first | rfl | exact absurd (by simp) unsupported
    rw [step, resume, stuck]
    rfl
  · rename_i value operator frames
    have stuck : applyUnary operator value = none := by
      unfold applyUnary
      split <;> first | rfl | exact absurd rfl unsupported
    rw [step, resume, stuck]
    rfl
  · exact unsupported.elim

/-- No rule applies to a value that is used for what it is not. -/
theorem Fault.stops (fault : Fault configuration) :
    step equal configuration = none := by
  cases fault with
  | @arithmetic operator left right frames among other =>
      have stuck : applyBinary equal operator left right = none := by
        simp only [List.mem_cons, List.not_mem_nil, or_false] at among
        rcases among with rfl | rfl | rfl <;>
          cases left <;> cases right <;>
            first | rfl | exact absurd ⟨trivial, trivial⟩ other
      rw [step, resume, stuck]
      rfl
  | @negation arg frames other =>
      cases arg with
      | int value => exact absurd trivial other
      | _ => rfl
  | @test value env thenArm elseArm frames other =>
      cases value with
      | bool value => exact absurd trivial other
      | _ => rfl
  | @call function argument frames other =>
      cases function with
      | closure env selfId id body => exact absurd trivial other
      | _ => rfl

end

end Millie.Pipeline
