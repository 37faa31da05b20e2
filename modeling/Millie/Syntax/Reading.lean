import Millie.Foundation.Weakest
import Millie.Syntax.Grammar

/-!
# The helpers of the parser at a token

What each helper returns is decided by the token at the position.  The symbol
table after a number of tokens is the start's with the identifiers among them
interned in order.
-/

namespace Millie.Syntax

open Weakest
open Millie.Symbols

/-! ## Token arrays -/

/-- The last token is `TOK_EOF`. -/
def MillieTokens.EndsInEof (source : MillieTokens) : Prop :=
  ∃ eof, source.tokenArray.getLast? = some eof ∧ eof.type = .tokEof

section

variable {source : MillieTokens} {i : Nat}

theorem MillieTokens.Has.inside {type : TokenType} (has : source.Has i type) :
    i < source.tokenArray.length := by
  rcases has with ⟨token, at_, -⟩
  exact (List.getElem?_eq_some_iff.mp at_).1

/-- After any other token there is one more. -/
theorem MillieTokens.EndsInEof.next (ends : source.EndsInEof) {type : TokenType}
    (has : source.Has i type) (real : type ≠ .tokEof) :
    i + 1 < source.tokenArray.length := by
  rcases ends with ⟨eof, last, isEof⟩
  rcases has with ⟨token, at_, rfl⟩
  have inside := (List.getElem?_eq_some_iff.mp at_).1
  rw [List.getLast?_eq_getElem?] at last
  by_contra outside
  obtain rfl : i = source.tokenArray.length - 1 := by omega
  rw [at_] at last
  cases last
  exact real isEof

theorem exists_has (inside : i < source.tokenArray.length) :
    ∃ type, source.Has i type :=
  ⟨_, _, List.getElem?_eq_getElem inside, rfl⟩

end

/-! ## The helpers, at a token -/

section

variable {source : MillieTokens} {context : ParseContext} {type : TokenType}
  {token : MillieToken} {i : Nat}

/-- The context one token later. -/
def ParseContext.advanced (context : ParseContext) : ParseContext :=
  { context with pos := context.pos + 1 }

theorem tokenAt_eq (at_ : source.tokenArray[i]? = some token) :
    tokenAt source i context = .ok (token, context) := by
  rw [tokenAt, at_]
  rfl

theorem peekToken_eq (at_ : source.tokenArray[context.pos]? = some token) :
    peekToken source context = .ok (token.type, context) := by
  have gets : (get : ParseM ParseContext) context = .ok (context, context) :=
    rfl
  rw [peekToken, bind_returned gets, bind_returned (tokenAt_eq at_)]
  rfl

theorem isAtEnd_eq (at_ : source.tokenArray[context.pos]? = some token) :
    isAtEnd source context = .ok (token.type == .tokEof, context) := by
  rw [isAtEnd, bind_returned (peekToken_eq at_)]
  rfl

theorem check_eq (at_ : source.tokenArray[context.pos]? = some token)
    (real : type ≠ .tokEof) :
    check source type context = .ok (token.type == type, context) := by
  rw [check, bind_returned (isAtEnd_eq at_)]
  by_cases atEnd : token.type = .tokEof
  · have other : (token.type == type) = false := by
      rw [atEnd]
      exact beq_false_of_ne (Ne.symm real)
    rw [if_pos (beq_iff_eq.mpr atEnd), other]
    rfl
  · have more : ¬(token.type == .tokEof) = true := by simpa using atEnd
    rw [if_neg more, bind_returned (peekToken_eq at_)]
    rfl

theorem prevPos_eq : prevPos context.advanced =
    .ok (context.pos, context.advanced) :=
  rfl

theorem prevTokenStruct_eq
    (at_ : source.tokenArray[context.pos]? = some token) :
    prevTokenStruct source context.advanced =
      .ok (token, context.advanced) := by
  rw [prevTokenStruct, bind_returned prevPos_eq]
  exact tokenAt_eq at_

theorem prevToken_eq (at_ : source.tokenArray[context.pos]? = some token) :
    prevToken source context.advanced =
      .ok (token.type, context.advanced) := by
  rw [prevToken, bind_returned (prevTokenStruct_eq at_)]
  rfl

theorem advance_eq (at_ : source.tokenArray[context.pos]? = some token)
    (real : token.type ≠ .tokEof) :
    advance source context = .ok (token.type, context.advanced) := by
  have moves : (modify fun context => { context with pos := context.pos + 1 } :
      ParseM PUnit) context = .ok (⟨⟩, context.advanced) :=
    rfl
  have more : (!token.type == .tokEof) = true := by simpa using real
  rw [advance, bind_returned (isAtEnd_eq at_), if_pos more]
  rw [bind_returned moves]
  exact prevToken_eq at_

/-- The context after a match, before the parser advances. -/
def ParseContext.calmed (context : ParseContext) : ParseContext :=
  { context with lostCount := context.lostCount - 1 }

/-- The context after a match. -/
def ParseContext.matched (context : ParseContext) : ParseContext :=
  context.calmed.advanced

theorem match_eq (at_ : source.tokenArray[context.pos]? = some token)
    (real : type ≠ .tokEof) :
    match_ source type context =
      if token.type = type then .ok (true, context.matched)
      else .ok (false, context) := by
  rw [match_, bind_returned (check_eq at_ real)]
  by_cases same : token.type = type
  · have calms : (modify fun context =>
        { context with lostCount := context.lostCount - 1 } :
          ParseM PUnit) context = .ok (⟨⟩, context.calmed) :=
      rfl
    have here : source.tokenArray[context.calmed.pos]? = some token := at_
    rw [if_pos (beq_iff_eq.mpr same), if_pos same, bind_returned calms]
    rw [bind_returned (advance_eq here (same ▸ real))]
    rfl
  · have other : ¬(token.type == type) = true := by simpa using same
    rw [if_neg other, if_neg same]
    rfl

theorem matchV_eq (at_ : source.tokenArray[context.pos]? = some token)
    {types : List TokenType} (real : .tokEof ∉ types) :
    matchV source types context =
      if token.type ∈ types then .ok (true, context.advanced)
      else .ok (false, context) := by
  induction types with
  | nil => rfl
  | cons type types ih =>
      rw [List.mem_cons, not_or] at real
      rw [matchV, bind_returned (check_eq at_ (Ne.symm real.1))]
      by_cases same : token.type = type
      · have among : token.type ∈ type :: types :=
          List.mem_cons.mpr (.inl same)
        rw [if_pos (beq_iff_eq.mpr same), if_pos among]
        rw [bind_returned (advance_eq at_ (same ▸ Ne.symm real.1))]
        rfl
      · have other : ¬(token.type == type) = true := by simpa using same
        rw [if_neg other, ih real.2]
        simp only [List.mem_cons, same, false_or]

/-- The context after a syntax error at a token. -/
def ParseContext.report (token : MillieToken) (message : String)
    (context : ParseContext) : ParseContext :=
  if context.lostCount = 0 then
    { context with
      errors := context.errors ++
        [⟨message, token.start, token.start + token.length⟩]
      lostCount := 4 }
  else { context with lostCount := 4 }

theorem ParseContext.report_pos (token : MillieToken) (message : String)
    (context : ParseContext) :
    (context.report token message).pos = context.pos := by
  rw [ParseContext.report]
  split
  · rfl
  · rfl

theorem syntaxErrorToken_eq (message : String) :
    syntaxErrorToken token message context =
      .ok (⟨⟩, context.report token message) :=
  rfl

theorem syntaxError_eq (at_ : source.tokenArray[context.pos]? = some token)
    (message : String) :
    syntaxError source message context =
      .ok (⟨⟩, context.report token message) := by
  have gets : (get : ParseM ParseContext) context = .ok (context, context) :=
    rfl
  rw [syntaxError, bind_returned gets, bind_returned (tokenAt_eq at_)]
  rfl

end

/-! ## The symbols of the identifiers -/

section

variable (source : MillieTokens) (intern : Intern)

/-- The symbol of a token's text, and the table that has it. -/
def internText (table : SymbolTable) (token : MillieToken) :
    Except ParseStop (Symbol × SymbolTable) := do
  let text ← tokenText source token
  match intern table text with
  | .ok result => return result
  | .error stop => throw (.symbolTable stop)

/-- The table after a token: an identifier is interned. -/
def internToken (table : SymbolTable) (token : MillieToken) :
    Except ParseStop SymbolTable :=
  if token.type = .tokId then (·.2) <$> internText source intern table token
  else .ok table

variable (start : ParseContext)

/-- The table at an index, when the parser starts in a context. -/
def tableAt (i : Nat) : Except ParseStop SymbolTable :=
  ((source.tokenArray.take i).drop start.pos).foldlM
    (internToken source intern) start.table

/-- The symbol that the identifier at an index gets. -/
def symbolAt (i : Nat) : Symbol :=
  match source.tokenArray[i]?, tableAt source intern start i with
  | some token, .ok table =>
      match internText source intern table token with
      | .ok result => result.1
      | .error _ => invalidSymbol
  | _, _ => invalidSymbol

variable {source} {intern} {start} {i : Nat} {token : MillieToken}
  {context : ParseContext}

theorem tableAt_step (after : start.pos ≤ i)
    (at_ : source.tokenArray[i]? = some token) :
    tableAt source intern start (i + 1) =
      tableAt source intern start i >>= (internToken source intern · token) := by
  have inside := (List.getElem?_eq_some_iff.mp at_).1
  rw [tableAt, List.take_add_one, at_, List.drop_append_of_le_length,
    List.foldlM_append, tableAt, Option.toList_some]
  · congr 1
    funext table
    exact bind_pure (internToken source intern table token)
  · rw [List.length_take]
    omega

theorem tableAt_succ {table : SymbolTable} (after : start.pos ≤ i)
    (at_ : source.tokenArray[i]? = some token)
    (before : tableAt source intern start i = .ok table) :
    tableAt source intern start (i + 1) =
      internToken source intern table token := by
  rw [tableAt_step after at_, before]
  rfl

/-- After the end nothing more is interned. -/
theorem tableAt_outside (outside : source.tokenArray.length ≤ i) :
    tableAt source intern start (i + 1) = tableAt source intern start i := by
  rw [tableAt, tableAt, List.take_of_length_le (by omega),
    List.take_of_length_le outside]

theorem tableAt_start : tableAt source intern start start.pos =
    .ok start.table := by
  rw [tableAt, List.drop_eq_nil_of_le]
  · rfl
  · rw [List.length_take]
    omega

theorem lift_eq {α : Type} (step : Except ParseStop α) :
    (liftM step : ParseM α) context = (·, context) <$> step := by
  cases step with
  | ok value => rfl
  | error stop => rfl

theorem internText_outside {stop : ParseStop}
    (text : tokenText source token = .error stop) (table : SymbolTable) :
    internText source intern table token = .error stop := by
  rw [internText, text]
  rfl

theorem internText_text {value : ByteString}
    (text : tokenText source token = .ok value) (table : SymbolTable) :
    internText source intern table token =
      match intern table value with
      | .ok result => .ok result
      | .error stop => .error (.symbolTable stop) := by
  rw [internText, text]
  rfl

theorem internText_stop {stop : ParseStop} {table : SymbolTable}
    (stops : internText source intern table token = .error stop) :
    (stop = .textOutside ∧
        source.buffer.length < token.start + token.length) ∨
      ∃ reason, stop = .symbolTable reason := by
  by_cases inside : token.start + token.length ≤ source.buffer.length
  · rw [internText_text (if_pos inside)] at stops
    split at stops
    · cases stops
    · cases stops
      exact .inr ⟨_, rfl⟩
  · rw [internText_outside (if_neg inside)] at stops
    cases stops
    exact .inl ⟨rfl, Nat.lt_of_not_le inside⟩

theorem parseSymbol_eq (at_ : source.tokenArray[context.pos]? = some token)
    (isId : token.type = .tokId) :
    parseSymbol source intern context =
      (fun result => (result.1, { context.matched with table := result.2 })) <$>
        internText source intern context.table token := by
  have here : source.tokenArray[context.calmed.pos]? = some token := at_
  have matched := match_eq at_ (nofun : TokenType.tokId ≠ .tokEof)
  rw [if_pos isId] at matched
  have gets : (get : ParseM ParseContext) context.calmed.advanced =
      .ok (context.calmed.advanced, context.calmed.advanced) := rfl
  rw [parseSymbol, bind_returned matched, if_pos rfl]
  rw [ParseContext.matched, bind_returned (prevTokenStruct_eq here)]
  cases text : tokenText source token with
  | error stop =>
      rw [internText_outside text]
      exact bind_stopped (lift_eq _)
  | ok value =>
      rw [bind_returned (lift_eq (.ok value)), bind_returned gets]
      rw [internText_text text]
      have same : context.calmed.advanced.table = context.table := rfl
      simp only [same]
      cases intern context.table value with
      | ok result => rfl
      | error stop => rfl

theorem parseSymbol_other
    (at_ : source.tokenArray[context.pos]? = some token)
    (other : token.type ≠ .tokId) :
    parseSymbol source intern context =
      .ok (invalidSymbol,
        context.report token "Expected an identifier") := by
  have unmatched := match_eq at_ (nofun : TokenType.tokId ≠ .tokEof)
  rw [if_neg other] at unmatched
  rw [parseSymbol, bind_returned unmatched, if_neg Bool.false_ne_true]
  rw [bind_returned (syntaxError_eq at_ _)]
  rfl

end

end Millie.Syntax
