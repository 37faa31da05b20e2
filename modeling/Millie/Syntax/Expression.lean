import Millie.Symbols.Table

/-!
# Tokens and expressions

Translation of the token kinds and of `struct Expression` in `platform.h`.
The node type and its union become one inductive type whose constructors carry
the fields of the matching union member, after the node's token range.
-/

namespace Millie.Syntax

open Millie.Symbols

/-- `MILLIE_TOKEN`, in the order of the enumeration. -/
inductive TokenType where
  | tokEof
  | tokId
  | tokIntLiteral
  | tokTrue
  | tokFalse
  | tokLParen
  | tokPlus
  | tokMinus
  | tokRParen
  | tokFn
  | tokIf
  | tokIn
  | tokStar
  | tokSlash
  | tokEquals
  | tokArrow
  | tokLet
  | tokRec
  | tokThen
  | tokElse
  | tokComma
deriving DecidableEq, Repr

/-- `struct MillieToken`. -/
structure MillieToken where
  type : TokenType
  start : Nat
  length : Nat
deriving DecidableEq, Repr

/-- The fields `start_token` and `end_token` of every expression node. -/
structure TokenRange where
  startToken : Nat
  endToken : Nat
deriving DecidableEq, Repr

/-- `struct Expression`. -/
inductive Expression where
  | invalid (range : TokenRange)
  | error (range : TokenRange)
  | lambda (range : TokenRange) (id : Symbol) (body : Expression)
  | identifier (range : TokenRange) (id : Symbol)
  | apply (range : TokenRange) (function argument : Expression)
  | let_ (range : TokenRange) (id : Symbol) (value body : Expression)
  | letrec (range : TokenRange) (id : Symbol) (value body : Expression)
  | integerConstant (range : TokenRange) (literalValue : UInt64)
  | true_ (range : TokenRange)
  | false_ (range : TokenRange)
  | if_ (range : TokenRange) (test thenArm elseArm : Expression)
  | binary (range : TokenRange) (operator : TokenType)
      (left right : Expression)
  | unary (range : TokenRange) (operator : TokenType) (arg : Expression)
  | tuple (range : TokenRange) (first rest : Expression) (length : Nat)
  | tupleFinal (range : TokenRange) (first : Expression)
deriving DecidableEq

namespace Expression

/-- The token range of a node. -/
def range : Expression → TokenRange
  | invalid range | error range | lambda range _ _ | identifier range _
  | apply range _ _ | let_ range _ _ _ | letrec range _ _ _
  | integerConstant range _ | true_ range | false_ range | if_ range _ _ _
  | binary range _ _ _ | unary range _ _ | tuple range _ _ _
  | tupleFinal range _ => range

/-- Whether an expression is a function definition. -/
def IsLambda : Expression → Prop
  | lambda _ _ _ => True
  | _ => False

instance (expression : Expression) : Decidable expression.IsLambda := by
  cases expression <;> unfold IsLambda <;> infer_instance

/--
Induction that separates the two kinds of `let rec`: for a function definition
the hypothesis is about its body.
-/
@[elab_as_elim]
theorem functionInduction {motive : Expression → Prop}
    (invalid : ∀ range, motive (invalid range))
    (error : ∀ range, motive (error range))
    (lambda : ∀ range id body, motive body → motive (lambda range id body))
    (identifier : ∀ range id, motive (identifier range id))
    (apply : ∀ range function argument, motive function → motive argument →
      motive (apply range function argument))
    (let_ : ∀ range id value body, motive value → motive body →
      motive (let_ range id value body))
    (letrecFunction : ∀ range id lambdaRange lambdaId lambdaBody body,
      motive lambdaBody → motive body →
      motive (letrec range id (.lambda lambdaRange lambdaId lambdaBody) body))
    (letrecOther : ∀ range id value body, ¬value.IsLambda → motive value →
      motive body → motive (letrec range id value body))
    (integerConstant : ∀ range literalValue,
      motive (integerConstant range literalValue))
    (true_ : ∀ range, motive (true_ range))
    (false_ : ∀ range, motive (false_ range))
    (if_ : ∀ range test thenArm elseArm, motive test → motive thenArm →
      motive elseArm → motive (if_ range test thenArm elseArm))
    (binary : ∀ range operator left right, motive left → motive right →
      motive (binary range operator left right))
    (unary : ∀ range operator arg, motive arg →
      motive (unary range operator arg))
    (tuple : ∀ range first rest length, motive first → motive rest →
      motive (tuple range first rest length))
    (tupleFinal : ∀ range first, motive first →
      motive (tupleFinal range first))
    (expression : Expression) : motive expression := by
  suffices both : motive expression ∧ ∀ range id body,
      expression = .lambda range id body → motive body from both.1
  induction expression with
  | invalid range => exact ⟨invalid range, nofun⟩
  | error range => exact ⟨error range, nofun⟩
  | lambda range id body bodyIh =>
      refine ⟨lambda range id body bodyIh.1, fun _ _ _ same => ?_⟩
      cases same
      exact bodyIh.1
  | identifier range id => exact ⟨identifier range id, nofun⟩
  | apply range function argument functionIh argumentIh =>
      exact ⟨apply range function argument functionIh.1 argumentIh.1, nofun⟩
  | let_ range id value body valueIh bodyIh =>
      exact ⟨let_ range id value body valueIh.1 bodyIh.1, nofun⟩
  | letrec range id value body valueIh bodyIh =>
      refine ⟨?_, nofun⟩
      by_cases function : value.IsLambda
      · cases value with
        | lambda lambdaRange lambdaId lambdaBody =>
            exact letrecFunction range id lambdaRange lambdaId lambdaBody body
              (valueIh.2 _ _ _ rfl) bodyIh.1
        | _ => exact function.elim
      · exact letrecOther range id value body function valueIh.1 bodyIh.1
  | integerConstant range literalValue =>
      exact ⟨integerConstant range literalValue, nofun⟩
  | true_ range => exact ⟨true_ range, nofun⟩
  | false_ range => exact ⟨false_ range, nofun⟩
  | if_ range test thenArm elseArm testIh thenIh elseIh =>
      exact ⟨if_ range test thenArm elseArm testIh.1 thenIh.1 elseIh.1, nofun⟩
  | binary range operator left right leftIh rightIh =>
      exact ⟨binary range operator left right leftIh.1 rightIh.1, nofun⟩
  | unary range operator arg argIh =>
      exact ⟨unary range operator arg argIh.1, nofun⟩
  | tuple range first rest length firstIh restIh =>
      exact ⟨tuple range first rest length firstIh.1 restIh.1, nofun⟩
  | tupleFinal range first firstIh =>
      exact ⟨tupleFinal range first firstIh.1, nofun⟩

end Expression

/-- `struct ErrorReport`, without the link to the next report. -/
structure ErrorReport where
  message : String
  startPos : Nat
  endPos : Nat
deriving DecidableEq, Repr

end Millie.Syntax
