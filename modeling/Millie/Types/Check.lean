import Millie.Types.Graph
import Millie.Syntax.Expression

/-!
# The type checker

Translation of the unification and of `_Analyze` and its cases in `typecheck.c`.
A run keeps a ghost log that nothing reads: the names that are looked up and the
environments that they are looked up in, the types that are unified and returned,
and the type graph between two steps.  The state survives a run that stops, so
the log also shows what such a run did.
-/

namespace Millie.Types

open Millie.Symbols Millie.Syntax

/-! ## Runs -/

/-- `struct TypeEnvironment`, the innermost binding first. -/
abbrev TypeEnvironment := List (Symbol × TypePointer)

/-- `struct NonGenericTypeList`. -/
abbrev NonGenericTypeList := List TypePointer

/-- What a run shows of its steps. -/
inductive CheckEvent where
  | looking (id : Symbol) (env : TypeEnvironment) (graph : TypeGraph)
  | unifying (typeOne typeTwo : TypePointer) (graph : TypeGraph)
  | unified (graph : TypeGraph)
  | rebinding (newType : TypePointer) (nonGenerics : NonGenericTypeList)
      (graph : TypeGraph)
  | rebound (graph : TypeGraph)
  | returned (type : TypePointer) (graph : TypeGraph)

/-- The type graph, the error list and the ghost log. -/
structure CheckState where
  graph : TypeGraph
  errors : List ErrorReport
  log : List CheckEvent

/-- A step of the type checker. -/
abbrev CheckM := ExceptT Stop (StateM CheckState)

/-- Run a step that touches only the type graph. -/
def onGraph {α : Type} (step : GraphM α) : CheckM α := fun state =>
  match step state.graph with
  | .error stop => (.error stop, state)
  | .ok (value, graph) => (.ok value, { state with graph := graph })

/-- Log an event at the current graph. -/
def record (event : TypeGraph → CheckEvent) : CheckM Unit := fun state =>
  (.ok (), { state with log := state.log ++ [event state.graph] })

/-- The tokens, for error positions. -/
abbrev Tokens := Nat → MillieToken

/-- `_ReportTypeError`. -/
def reportTypeError (tokens : Tokens) (range : TokenRange)
    (errorMessage : String) : CheckM Unit := fun state =>
  let startToken := tokens range.startToken
  let endToken := tokens range.endToken
  let report : ErrorReport :=
    ⟨errorMessage, startToken.start, endToken.start + endToken.length⟩
  (.ok (), { state with errors := state.errors ++ [report] })

/-! ## Unification -/

/-- `UnificationError`. -/
inductive UnificationError where
  | selfRecursive
  | invalidFunctionApply
  | inconsistentRecursion
  | ifConditionBoolean
  | ifBranchesSame
  | noValidBinaryOperator
deriving DecidableEq, Repr

/-- `struct UnifyContext`. -/
structure UnifyContext where
  range : TokenRange
  errorCode : UnificationError
  originalOne : TypePointer
  originalTwo : TypePointer

/-- The text of `_ReportUnificationFailure`. -/
def unificationMessage (fuel : Nat) (context : UnifyContext) :
    GraphM String := do
  let argOne ← formatTypeExpression fuel context.originalOne
  match context.errorCode with
  | .selfRecursive => do
      let argTwo ← formatTypeExpression fuel context.originalTwo
      return "unsupported recursive type: the type \"" ++ argOne ++
        "\" is contained within the type \"" ++ argTwo ++ "\""
  | .invalidFunctionApply => do
      let argTwo ← formatTypeExpression fuel context.originalTwo
      return "the function of type \"" ++ argTwo ++
        "\" cannot be used as a function of type \"" ++ argOne ++
        "\"; either the argument or return type is incompatible"
  | .inconsistentRecursion => do
      let argTwo ← formatTypeExpression fuel context.originalTwo
      return "inconsistent recursive definition: " ++
        "unable to reconcile the two necessary types \"" ++ argOne ++
        "\" and \"" ++ argTwo ++ "\""
  | .ifConditionBoolean =>
      return "condition of an if expression must be a boolean (not \"" ++
        argOne ++ "\")"
  | .ifBranchesSame => do
      let argTwo ← formatTypeExpression fuel context.originalTwo
      return "then branch returns \"" ++ argOne ++
        "\" and else branch returns \"" ++ argTwo ++
        "\"; both branches of the condition must have the same type"
  | .noValidBinaryOperator => do
      let argTwo ← formatTypeExpression fuel context.originalTwo
      return "no operator takes types \"" ++ argOne ++ "\" and \"" ++
        argTwo ++ "\""

/-- `_ReportUnificationFailure`. -/
def reportUnificationFailure (tokens : Tokens) (fuel : Nat)
    (context : UnifyContext) : CheckM Unit := do
  let errorMessage ← onGraph (unificationMessage fuel context)
  reportTypeError tokens context.range errorMessage

/--
The variable case of `_UnifyImpl`.  A self-recursive type changes the error code
that later failures of the same unification report.
-/
def unifyVariable (tokens : Tokens) (fuel : Nat) (context : UnifyContext)
    (typeOne typeTwo : TypePointer) : CheckM UnifyContext := do
  if typeOne = typeTwo then
    return context
  if ← onGraph (isTypeContainedWithin typeOne fuel typeTwo) then
    let context := { context with errorCode := .selfRecursive }
    reportUnificationFailure tokens fuel context
    return context
  else
    onGraph (setVarInstance typeOne typeTwo)
    return context

/-- The case of `_UnifyImpl` for two nodes of the same kind. -/
def unifyArguments
    (unify : UnifyContext → TypePointer → TypePointer → CheckM UnifyContext)
    (context : UnifyContext) (one two : TypeExp) : CheckM UnifyContext := do
  let context ← match one.first, two.first with
    | none, _ => pure context
    | some argOne, some argTwo => unify context argOne argTwo
    | some _, none => onGraph (stop .undefinedBehaviour)
  match one.second, two.second with
  | .null, _ => return context
  | .type argOne, .type argTwo => unify context argOne argTwo
  | _, _ => onGraph (stop .undefinedBehaviour)

/-- `_UnifyImpl`. -/
def unifyImpl (tokens : Tokens) :
    Nat → UnifyContext → TypePointer → TypePointer → CheckM UnifyContext
  | 0, _, _, _ => onGraph (stop .outOfFuel)
  | fuel + 1, context, typeOne, typeTwo => do
      let typeOne ← onGraph (pruneTypeExp fuel typeOne)
      let typeTwo ← onGraph (pruneTypeExp fuel typeTwo)
      if ← onGraph (isErrorType typeOne) then
        return context
      if ← onGraph (isErrorType typeTwo) then
        return context
      let two ← onGraph (node typeTwo)
      -- A variable that stands alone becomes the first type.
      let (typeOne, typeTwo) :=
        if two.type = .variable_ then (typeTwo, typeOne)
        else (typeOne, typeTwo)
      let one ← onGraph (node typeOne)
      if one.type = .variable_ then
        unifyVariable tokens fuel context typeOne typeTwo
      else
        let two ← onGraph (node typeTwo)
        if one.type ≠ two.type then
          reportUnificationFailure tokens fuel context
          return context
        else
          unifyArguments (unifyImpl tokens fuel) context one two

/-- `_Unify`. -/
def unify (tokens : Tokens) (fuel : Nat) (range : TokenRange)
    (errorCode : UnificationError) (typeOne typeTwo : TypePointer) :
    CheckM Unit := do
  record (.unifying typeOne typeTwo)
  let _ ← unifyImpl tokens fuel ⟨range, errorCode, typeOne, typeTwo⟩ typeOne
    typeTwo
  record .unified

/-! ## The cases of `_Analyze` -/

/-- `_LookupType`. -/
def lookupType (fuel : Nat) (id : Symbol) :
    TypeEnvironment → GraphM (Option TypePointer)
  | [] => return none
  | (envId, type) :: env =>
      if envId = id then do
        let freshType ← makeFreshTypeExp fuel type
        return some freshType
      else lookupType fuel id env

/-- `_AnalyzeApply`. -/
def analyzeApply (tokens : Tokens) (fuel : Nat) (range : TokenRange)
    (function argument : CheckM TypePointer) : CheckM TypePointer := do
  let functionType ← function
  let argType ← argument
  if ← onGraph (isErrorType functionType) then
    return errorTypeExp
  if ← onGraph (isErrorType argType) then
    return errorTypeExp
  let resultType ← onGraph makeTypeVar
  let wanted ← onGraph (makeFunctionType argType resultType)
  unify tokens fuel range .invalidFunctionApply wanted functionType
  return resultType

/-- `_AnalyzeIdentifier`. -/
def analyzeIdentifier (tokens : Tokens) (fuel : Nat) (range : TokenRange)
    (id : Symbol) (env : TypeEnvironment) : CheckM TypePointer := do
  record (.looking id env)
  match ← onGraph (lookupType fuel id env) with
  | some type => return type
  | none => do
      reportTypeError tokens range "Unbound identifier"
      return errorTypeExp

/-- `_AnalyzeLambda`. -/
def analyzeLambda (lambdaId : Symbol)
    (body : TypeEnvironment → NonGenericTypeList → CheckM TypePointer)
    (env : TypeEnvironment) (nonGenerics : NonGenericTypeList) :
    CheckM TypePointer := do
  let argType ← onGraph makeTypeVar
  let resultType ← body ((lambdaId, argType) :: env) (argType :: nonGenerics)
  onGraph (makeFunctionType argType resultType)

/-- `_AnalyzeLet`. -/
def analyzeLet (fuel : Nat) (letId : Symbol)
    (value body : TypeEnvironment → NonGenericTypeList → CheckM TypePointer)
    (env : TypeEnvironment) (nonGenerics : NonGenericTypeList) :
    CheckM TypePointer := do
  let defnType ← value env nonGenerics
  let defnType ← onGraph (makeGenericTypeExp fuel defnType nonGenerics)
  body ((letId, defnType) :: env) nonGenerics

/-- `_AnalyzeLetRec`. -/
def analyzeLetRec (tokens : Tokens) (fuel : Nat) (range : TokenRange)
    (letId : Symbol)
    (value body : TypeEnvironment → NonGenericTypeList → CheckM TypePointer)
    (env : TypeEnvironment) (nonGenerics : NonGenericTypeList) :
    CheckM TypePointer := do
  let newType ← onGraph makeTypeVar
  let newEnv := (letId, newType) :: env
  let defnType ← value newEnv (newType :: nonGenerics)
  unify tokens fuel range .inconsistentRecursion newType defnType
  record (.rebinding newType nonGenerics)
  let generic ← onGraph (makeGenericTypeExp fuel newType nonGenerics)
  onGraph (setVarInstance newType generic)
  record .rebound
  body newEnv nonGenerics

/-- `_AnalyzeIf`. -/
def analyzeIf (tokens : Tokens) (fuel : Nat) (range testRange : TokenRange)
    (test thenArm elseArm : CheckM TypePointer) : CheckM TypePointer := do
  let condType ← test
  unify tokens fuel testRange .ifConditionBoolean condType booleanTypeExp
  let thenType ← thenArm
  let elseType ← elseArm
  unify tokens fuel range .ifBranchesSame thenType elseType
  return thenType

/-- `struct OperatorEntry`. -/
structure OperatorEntry where
  token : TokenType
  left : Option TypePointer
  right : Option TypePointer
  result : TypePointer

/-- `_operators`, without the entry that ends it. -/
def operators : List OperatorEntry :=
  [⟨.tokPlus, some integerTypeExp, some integerTypeExp, integerTypeExp⟩,
    ⟨.tokMinus, some integerTypeExp, some integerTypeExp, integerTypeExp⟩,
    ⟨.tokStar, some integerTypeExp, some integerTypeExp, integerTypeExp⟩,
    ⟨.tokSlash, some integerTypeExp, some integerTypeExp, integerTypeExp⟩,
    ⟨.tokEquals, none, none, booleanTypeExp⟩]

/-- Unify an operand with the type that an operator requires of it, if any. -/
def unifyOperand (tokens : Tokens) (fuel : Nat) (range : TokenRange)
    (operand : TypePointer) : Option TypePointer → CheckM Unit
  | none => return ()
  | some type =>
      unify tokens fuel range .noValidBinaryOperator operand type

/-- `_AnalyzeBinary`. -/
def analyzeBinary (tokens : Tokens) (fuel : Nat) (range : TokenRange)
    (operator : TokenType) (binaryLeft binaryRight : CheckM TypePointer) :
    CheckM TypePointer := do
  let left ← binaryLeft
  let right ← binaryRight
  match operators.find? fun op => op.token = operator with
  | none => onGraph (stop .failed)
  | some op => do
      unifyOperand tokens fuel range left op.left
      unifyOperand tokens fuel range right op.right
      unify tokens fuel range .noValidBinaryOperator left right
      return op.result

/-- `_AnalyzeUnary`. -/
def analyzeUnary (unaryArg : CheckM TypePointer) : CheckM TypePointer :=
  unaryArg

/-- `_AnalyzeTuple`. -/
def analyzeTuple (tupleFirst tupleRest : CheckM TypePointer) :
    CheckM TypePointer := do
  let first ← tupleFirst
  let rest ← tupleRest
  onGraph (makeTupleType first rest)

/-- `_AnalyzeTupleFinal`. -/
def analyzeTupleFinal (tupleFirst : CheckM TypePointer) :
    CheckM TypePointer := do
  let first ← tupleFirst
  onGraph (makeTupleFinalType first)

/-- The case of a node that is no valid expression. -/
def analyzeInvalid (tokens : Tokens) (range : TokenRange) :
    CheckM TypePointer := do
  reportTypeError tokens range "Invalid expression structure"
  return errorTypeExp

/-- Log the type that a call returns. -/
def returning (result : CheckM TypePointer) : CheckM TypePointer := do
  let type ← result
  record (.returned type)
  return type

/-- `_Analyze`. -/
def analyze (tokens : Tokens) (fuel : Nat) :
    Expression → TypeEnvironment → NonGenericTypeList → CheckM TypePointer
  | .identifier range id, env, _ =>
      returning (analyzeIdentifier tokens fuel range id env)
  | .apply range function argument, env, nonGenerics =>
      returning (analyzeApply tokens fuel range
        (analyze tokens fuel function env nonGenerics)
        (analyze tokens fuel argument env nonGenerics))
  | .lambda _ id body, env, nonGenerics =>
      returning (analyzeLambda id (analyze tokens fuel body) env nonGenerics)
  | .let_ _ id value body, env, nonGenerics =>
      returning (analyzeLet fuel id (analyze tokens fuel value)
        (analyze tokens fuel body) env nonGenerics)
  | .letrec range id value body, env, nonGenerics =>
      returning (analyzeLetRec tokens fuel range id (analyze tokens fuel value)
        (analyze tokens fuel body) env nonGenerics)
  | .if_ range test thenArm elseArm, env, nonGenerics =>
      returning (analyzeIf tokens fuel range test.range
        (analyze tokens fuel test env nonGenerics)
        (analyze tokens fuel thenArm env nonGenerics)
        (analyze tokens fuel elseArm env nonGenerics))
  | .binary range operator left right, env, nonGenerics =>
      returning (analyzeBinary tokens fuel range operator
        (analyze tokens fuel left env nonGenerics)
        (analyze tokens fuel right env nonGenerics))
  | .unary _ _ arg, env, nonGenerics =>
      returning (analyzeUnary (analyze tokens fuel arg env nonGenerics))
  | .tuple _ first rest _, env, nonGenerics =>
      returning (analyzeTuple (analyze tokens fuel first env nonGenerics)
        (analyze tokens fuel rest env nonGenerics))
  | .tupleFinal _ first, env, nonGenerics =>
      returning (analyzeTupleFinal
        (analyze tokens fuel first env nonGenerics))
  | .integerConstant _ _, _, _ => returning (pure integerTypeExp)
  | .true_ _, _, _ | .false_ _, _, _ => returning (pure booleanTypeExp)
  | .invalid range, _, _ | .error range, _, _ =>
      returning (analyzeInvalid tokens range)

/-- `GetExpressionType`, from a graph that holds only the static nodes. -/
def getExpressionType (tokens : Tokens) (fuel : Nat)
    (expression : Expression) : Except Stop TypePointer × CheckState :=
  analyze tokens fuel expression [] [] ⟨staticGraph, [], []⟩

end Millie.Types
