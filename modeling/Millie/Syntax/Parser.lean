import Millie.Syntax.Lexer

/-!
# The parser

Translation of `parser.c` and of the constructors of `ast.c`.  The productions
call each other through one function that takes a production's name, so that
the depth of a run is fuel of one recursion; a `while` loop is a production of
its own that carries the expression parsed so far.  An index is a `Nat`: an
array of tokens has at most `2 ^ 32` elements.  Nodes are values, so that
`ArenaAllocate` is assumed to serve every one of them; `Millie.Memory.Arena` has
what it really serves.
-/

namespace Millie.Syntax

open Millie.Symbols

/-! ## Expressions from their parts -/

/-- `MakeSyntaxError`. -/
def makeSyntaxError (position : Nat) : Expression :=
  .error ⟨position, position⟩

/-- `MakeLambda`. -/
def makeLambda (startToken : Nat) (variable_ : Symbol) (body : Expression) :
    Expression :=
  .lambda ⟨startToken, body.range.endToken⟩ variable_ body

/-- `MakeIdentifier`. -/
def makeIdentifier (tokenPos : Nat) (id : Symbol) : Expression :=
  .identifier ⟨tokenPos, tokenPos⟩ id

/-- `MakeApply`. -/
def makeApply (funcExpr argExpr : Expression) : Expression :=
  .apply ⟨funcExpr.range.startToken, argExpr.range.endToken⟩ funcExpr argExpr

/-- `MakeLet`. -/
def makeLet (letPos : Nat) (variable_ : Symbol) (value body : Expression) :
    Expression :=
  .let_ ⟨letPos, body.range.endToken⟩ variable_ value body

/-- `MakeLetRec`. -/
def makeLetRec (letPos : Nat) (variable_ : Symbol) (value body : Expression) :
    Expression :=
  .letrec ⟨letPos, body.range.endToken⟩ variable_ value body

/-- `MakeIf`. -/
def makeIf (ifPos : Nat) (test thenBranch elseBranch : Expression) :
    Expression :=
  .if_ ⟨ifPos, elseBranch.range.endToken⟩ test thenBranch elseBranch

/-- `MakeBinary`. -/
def makeBinary (op : TokenType) (left right : Expression) : Expression :=
  .binary ⟨left.range.startToken, right.range.endToken⟩ op left right

/-- `MakeUnary`. -/
def makeUnary (operatorPos : Nat) (op : TokenType) (arg : Expression) :
    Expression :=
  .unary ⟨operatorPos, arg.range.endToken⟩ op arg

/-- `MakeBooleanLiteral`. -/
def makeBooleanLiteral (pos : Nat) (value : Bool) : Expression :=
  if value then .true_ ⟨pos, pos⟩ else .false_ ⟨pos, pos⟩

/-- `MakeIntegerLiteral`. -/
def makeIntegerLiteral (pos : Nat) (value : UInt64) : Expression :=
  .integerConstant ⟨pos, pos⟩ value

/-- `MakeTuple`. -/
def makeTuple (first rest : Expression) (length : Nat) : Expression :=
  .tuple ⟨first.range.startToken, rest.range.endToken⟩ first rest length

/-- `MakeTupleFinal`. -/
def makeTupleFinal (expr : Expression) : Expression :=
  .tupleFinal ⟨expr.range.startToken, expr.range.endToken⟩ expr

/-! ## The state of the parser -/

/-- Why the parser gives no result. -/
inductive ParseStop where
  | outOfFuel
  | tokenOutside
  | textOutside
  | symbolTable (stop : Stop)
deriving DecidableEq, Repr

/-- The fields of `struct ParseContext` that change. -/
structure ParseContext where
  table : SymbolTable
  errors : List ErrorReport
  pos : Nat
  lostCount : Nat

/-- A step of the parser. -/
abbrev ParseM := StateT ParseContext (Except ParseStop)

/-- What a production may start from, by the name of its function. -/
inductive Production where
  | tupleNext (first : Expression)
  | tuple
  | primary
  | application
  | applicationRest (expr : Expression)
  | unary
  | factor
  | factorRest (expr : Expression)
  | term
  | termRest (expr : Expression)
  | comparison
  | comparisonRest (expr : Expression)
  | fn
  | if_
  | let_
  | expr
deriving DecidableEq

/-- `FindOrCreateSymbol` with its hash function. -/
abbrev Intern := SymbolTable → ByteString → Except Stop (Symbol × SymbolTable)

/-- The types from `TOK_FIRST_PRIMARY` to `TOK_LAST_PRIMARY`. -/
def TokenType.isPrimary : TokenType → Bool
  | tokId | tokIntLiteral | tokTrue | tokFalse | tokLParen => true
  | _ => false

/--
The loop over the digits of a literal: the value, and whether it stopped at an
overflow.
-/
def readLiteral (value : UInt64) : ByteString → UInt64 × Bool
  | [] => (value, false)
  | c :: rest =>
      let newValue := value * 10 + (c.toUInt64 - 48)
      if newValue < value then (value, true) else readLiteral newValue rest

/-! ## Helper functions for parsing -/

section Helpers

variable (source : MillieTokens)

/-- `context->tokens[i]`. -/
def tokenAt (i : Nat) : ParseM MillieToken :=
  match source.tokenArray[i]? with
  | some token => pure token
  | none => throw .tokenOutside

/-- The characters of a token. -/
def tokenText (token : MillieToken) : Except ParseStop ByteString :=
  if token.start + token.length ≤ source.buffer.length then
    .ok ((source.buffer.drop token.start).take token.length)
  else .error .textOutside

/-- `_PeekToken`. -/
def peekToken : ParseM TokenType := do
  let context ← get
  let token ← tokenAt source context.pos
  return token.type

/-- `_PrevPos`: there is no position before the first. -/
def prevPos : ParseM Nat := do
  match (← get).pos with
  | 0 => throw .tokenOutside
  | pos + 1 => return pos

/-- `_PrevTokenStruct`. -/
def prevTokenStruct : ParseM MillieToken := do
  let pos ← prevPos
  tokenAt source pos

/-- `_PrevToken`. -/
def prevToken : ParseM TokenType := do
  let token ← prevTokenStruct source
  return token.type

/-- `_IsAtEnd`. -/
def isAtEnd : ParseM Bool := do
  let type ← peekToken source
  return type == .tokEof

/-- `_Advance`. -/
def advance : ParseM TokenType := do
  let atEnd ← isAtEnd source
  if !atEnd then
    modify fun context => { context with pos := context.pos + 1 }
  prevToken source

/-- `_Check`. -/
def check (token : TokenType) : ParseM Bool := do
  let atEnd ← isAtEnd source
  if atEnd then
    return false
  else
    let type ← peekToken source
    return type == token

/-- `_SyntaxErrorToken`. -/
def syntaxErrorToken (token : MillieToken) (message : String) : ParseM Unit :=
  modify fun context =>
    if context.lostCount = 0 then
      { context with
        errors := context.errors ++
          [⟨message, token.start, token.start + token.length⟩]
        lostCount := 4 }
    else { context with lostCount := 4 }

/-- `_SyntaxError`. -/
def syntaxError (message : String) : ParseM Unit := do
  let context ← get
  let token ← tokenAt source context.pos
  syntaxErrorToken token message

/-- `_MatchV`. -/
def matchV : List TokenType → ParseM Bool
  | [] => return false
  | token :: tokens => do
      let checked ← check source token
      if checked then
        let _ ← advance source
        return true
      else matchV tokens

/-- `_Match`. -/
def match_ (token : TokenType) : ParseM Bool := do
  let checked ← check source token
  if checked then
    modify fun context => { context with lostCount := context.lostCount - 1 }
    let _ ← advance source
    return true
  else
    return false

/-- `_Expect`. -/
def expect (token : TokenType) (error : String) : ParseM Unit := do
  let matched ← match_ source token
  if !matched then
    syntaxError source error

/-- `_ParseSymbol`. -/
def parseSymbol (intern : Intern) : ParseM Symbol := do
  let matched ← match_ source .tokId
  if matched then
    let idToken ← prevTokenStruct source
    let tokenValue ← (tokenText source idToken : Except ParseStop ByteString)
    let context ← get
    match intern context.table tokenValue with
    | .ok (symbol, table) =>
        set { context with table := table }
        return symbol
    | .error stop => throw (.symbolTable stop)
  else
    syntaxError source "Expected an identifier"
    return invalidSymbol

end Helpers

/-! ## Productions -/

section Productions

variable (source : MillieTokens) (intern : Intern)
  (recurse : Production → ParseM Expression)

/-- The length in `_ParseTupleNext`: two, unless more has been parsed. -/
def lengthBefore : Expression → Nat
  | .tuple _ _ _ tupleLength => tupleLength + 1
  | _ => 2

/-- `_ParseTupleNext`. -/
def parseTupleNext (first : Expression) : ParseM Expression := do
  let rest ← recurse .tuple
  return makeTuple first rest (lengthBefore rest)

/-- `_ParseTuple`. -/
def parseTuple : ParseM Expression := do
  let car ← recurse .expr
  let matched ← match_ source .tokComma
  if matched then
    recurse (.tupleNext car)
  else
    return makeTupleFinal car

/-- The case of `_ParsePrimary` for an integer literal. -/
def parseInteger : ParseM Expression := do
  let token ← prevTokenStruct source
  let text ← (tokenText source token : Except ParseStop ByteString)
  let (value, overflow) := readLiteral 0 text
  if overflow then
    syntaxErrorToken token "Integer literal overflow"
  return makeIntegerLiteral (← prevPos) value

/-- The case of `_ParsePrimary` for a parenthesis. -/
def parseParenthesis : ParseM Expression := do
  let expr ← recurse .expr
  let matched ← match_ source .tokComma
  let expr ← (if matched then recurse (.tupleNext expr) else pure expr)
  expect source .tokRParen "Expected a ')' after the expression."
  return expr

/-- `_ParsePrimary`. -/
def parsePrimary : ParseM Expression := do
  if ← match_ source .tokFalse then
    return makeBooleanLiteral (← prevPos) false
  else if ← match_ source .tokTrue then
    return makeBooleanLiteral (← prevPos) true
  else if ← match_ source .tokIntLiteral then
    parseInteger source
  else if ← check source .tokId then
    let sym ← parseSymbol source intern
    return makeIdentifier (← prevPos) sym
  else if ← match_ source .tokLParen then
    parseParenthesis source recurse
  else
    syntaxError source "Expected an expression."
    return makeSyntaxError (← get).pos

/-- `_ParseApplication` up to its loop. -/
def parseApplication : ParseM Expression := do
  let expr ← recurse .primary
  recurse (.applicationRest expr)

/-- The loop of `_ParseApplication`. -/
def parseApplicationRest (expr : Expression) : ParseM Expression := do
  let type ← peekToken source
  if type.isPrimary then
    let arg ← recurse .primary
    recurse (.applicationRest (makeApply expr arg))
  else
    return expr

/-- `_ParseUnary`. -/
def parseUnary : ParseM Expression := do
  let matched ← matchV source [.tokPlus, .tokMinus]
  if matched then
    let operator ← prevToken source
    let tokenPos ← prevPos
    let right ← recurse .unary
    return makeUnary tokenPos operator right
  else
    recurse .application

/-- The common shape of the functions for binary operators, up to the loop. -/
def parseBinary (operand : Production) (rest : Expression → Production) :
    ParseM Expression := do
  let expr ← recurse operand
  recurse (rest expr)

/-- The common shape of the loops for binary operators. -/
def parseBinaryRest (matches_ : ParseM Bool) (operand : Production)
    (rest : Expression → Production) (expr : Expression) :
    ParseM Expression := do
  let matched ← matches_
  if matched then
    let operator ← prevToken source
    let right ← recurse operand
    recurse (rest (makeBinary operator expr right))
  else
    return expr

/-- `_ParseFactor` up to its loop. -/
def parseFactor : ParseM Expression :=
  parseBinary recurse .unary .factorRest

/-- The loop of `_ParseFactor`. -/
def parseFactorRest : Expression → ParseM Expression :=
  parseBinaryRest source recurse (matchV source [.tokStar, .tokSlash]) .unary
    .factorRest

/-- `_ParseTerm` up to its loop. -/
def parseTerm : ParseM Expression :=
  parseBinary recurse .factor .termRest

/-- The loop of `_ParseTerm`. -/
def parseTermRest : Expression → ParseM Expression :=
  parseBinaryRest source recurse (matchV source [.tokPlus, .tokMinus]) .factor
    .termRest

/-- `_ParseComparison` up to its loop. -/
def parseComparison : ParseM Expression :=
  parseBinary recurse .term .comparisonRest

/-- The loop of `_ParseComparison`. -/
def parseComparisonRest : Expression → ParseM Expression :=
  parseBinaryRest source recurse (match_ source .tokEquals) .term
    .comparisonRest

/-- `_ParseFn`. -/
def parseFn : ParseM Expression := do
  let matched ← match_ source .tokFn
  if matched then
    let tokenPos ← prevPos
    let variable_ ← parseSymbol source intern
    expect source .tokArrow
      "Expected an => between variable and function body."
    let body ← recurse .expr
    return makeLambda tokenPos variable_ body
  else
    recurse .comparison

/-- `_ParseIf`. -/
def parseIf : ParseM Expression := do
  let matched ← match_ source .tokIf
  if matched then
    let tokenPos ← prevPos
    let test ← recurse .expr
    expect source .tokThen "Expected 'then' after the condition."
    let thenArm ← recurse .expr
    expect source .tokElse "Expected 'else' after the 'then' arm."
    let elseArm ← recurse .expr
    return makeIf tokenPos test thenArm elseArm
  else
    recurse .fn

/-- `_ParseLet`. -/
def parseLet : ParseM Expression := do
  let matched ← match_ source .tokLet
  if matched then
    let tokenPos ← prevPos
    let isLetRec ← match_ source .tokRec
    let variable_ ← parseSymbol source intern
    expect source .tokEquals "Expected an '=' after the variable in the let."
    let value ← recurse .expr
    expect source .tokIn
      "Expected an 'in' after the variable value in the let."
    let body ← recurse .expr
    if isLetRec then
      return makeLetRec tokenPos variable_ value body
    else
      return makeLet tokenPos variable_ value body
  else
    recurse .if_

/-- `_ParseExpr`. -/
def parseExpr : ParseM Expression :=
  recurse .let_

/-- The function of a production. -/
def parseProduction : Production → ParseM Expression
  | .tupleNext first => parseTupleNext recurse first
  | .tuple => parseTuple source recurse
  | .primary => parsePrimary source intern recurse
  | .application => parseApplication recurse
  | .applicationRest expr => parseApplicationRest source recurse expr
  | .unary => parseUnary source recurse
  | .factor => parseFactor recurse
  | .factorRest expr => parseFactorRest source recurse expr
  | .term => parseTerm recurse
  | .termRest expr => parseTermRest source recurse expr
  | .comparison => parseComparison recurse
  | .comparisonRest expr => parseComparisonRest source recurse expr
  | .fn => parseFn source intern recurse
  | .if_ => parseIf source recurse
  | .let_ => parseLet source intern recurse
  | .expr => parseExpr recurse

end Productions

/-- The productions, to a depth. -/
def parse (source : MillieTokens) (intern : Intern) :
    Nat → Production → ParseM Expression
  | 0, _ => throw .outOfFuel
  | fuel + 1, production =>
      parseProduction source intern (parse source intern fuel) production

/-- `ParseExpression`: the expression, and the table and errors it leaves. -/
def parseExpression (hash32 : ByteString → UInt32) (symbolFuel : Nat)
    (tokens : MillieTokens) (symbolTable : SymbolTable)
    (errors : List ErrorReport) :
    Except ParseStop (Expression × ParseContext) :=
  parse tokens (findOrCreateSymbol hash32 symbolFuel)
    (13 * (tokens.tokenArray.length + 1)) .expr ⟨symbolTable, errors, 0, 0⟩

end Millie.Syntax
