import Millie.Syntax.Completeness
import Millie.Syntax.Coverage
import Millie.Syntax.Outcome

/-!
# What the parser accepts

`ParseExpression` reports no error exactly when some prefix of the tokens is an
expression that the next token does not continue: it never looks whether that
token is the end, and its check for overflow does not see every literal that is
too large.
-/

namespace Millie.Syntax

open Millie.Symbols

/-! ## Literals -/

/-- The number that some digits are, after a number. -/
def decimalFrom (value : Nat) (digits : ByteString) : Nat :=
  digits.foldl (fun value c => value * 10 + (c.toNat - 48)) value

theorem le_decimalFrom (value : Nat) (digits : ByteString) :
    value ≤ decimalFrom value digits := by
  induction digits generalizing value with
  | nil => exact Nat.le_refl _
  | cons c digits ih =>
      refine Nat.le_trans ?_ (ih _)
      show value ≤ value * 10 + (c.toNat - 48)
      omega

/-- The value of the literal at an index, if it is small enough. -/
def Decimal (source : MillieTokens) (i : Nat) (value : UInt64) : Prop :=
  ∃ token, source.tokenArray[i]? = some token ∧
    decimalFrom 0 (source.text token) = value.toNat

/-- The loop over the digits reads a number that is small enough. -/
theorem readLiteral_decimal {digits : ByteString} {value : UInt64}
    (characters : ∀ c ∈ digits, isDigit c = true)
    (small : decimalFrom value.toNat digits < 2 ^ 64) :
    readLiteral value digits =
      (UInt64.ofNat (decimalFrom value.toNat digits), false) := by
  induction digits generalizing value with
  | nil => simp [readLiteral, decimalFrom]
  | cons c digits ih =>
      rcases List.forall_mem_cons.mp characters with ⟨first, rest⟩
      have digit := isDigit_iff.mp first
      have step : decimalFrom value.toNat (c :: digits) =
          decimalFrom (value.toNat * 10 + (c.toNat - 48)) digits := rfl
      have bound := le_decimalFrom (value.toNat * 10 + (c.toNat - 48)) digits
      rw [step] at small ⊢
      have next : (value * 10 + (c.toUInt64 - 48)).toNat =
          value.toNat * 10 + (c.toNat - 48) := by
        have sub : (c.toUInt64 - 48).toNat = c.toNat - 48 := by
          rw [UInt64.toNat_sub_of_le]
          · simp
          · rw [UInt64.le_iff_toNat_le]
            simp
            omega
        rw [UInt64.toNat_add, UInt64.toNat_mul, sub]
        simp
        omega
      have grows : ¬value * 10 + (c.toUInt64 - 48) < value := by
        rw [UInt64.lt_iff_toNat_lt, next]
        omega
      rw [readLiteral, if_neg grows, ih rest (by rw [next]; exact small), next]

section

variable {source : MillieTokens} {symbolAt : Nat → Symbol}
  {literal other : Nat → UInt64 → Prop} {level : Level} {i j : Nat}
  {expr : Expression}

/-- A derivation with other values for the same literals. -/
theorem Derives.literals {n : Nat}
    (same : ∀ p < n, ∀ value, source.Has p .tokIntLiteral → literal p value →
      other p value)
    (derives : Derives source symbolAt literal level i expr j)
    (inside : j ≤ n) : Derives source symbolAt other level i expr j := by
  induction derives with
  | last derives ih => exact .last (ih inside)
  | more derives ih => exact .more (ih inside)
  | tuple head comma tail ihHead ihTail =>
      have before := tail.nonempty
      exact .tuple (ihHead (by omega)) comma (ihTail inside)
  | let_ letToken id equals bound in_ scope ihBound ihScope =>
      have before := scope.nonempty
      exact .let_ letToken id equals (ihBound (by omega)) in_ (ihScope inside)
  | letrec letToken rec_ id equals bound in_ scope ihBound ihScope =>
      have before := scope.nonempty
      exact .letrec letToken rec_ id equals (ihBound (by omega)) in_
        (ihScope inside)
  | if_ ifToken condition then_ left else_ right ihTest ihThen ihElse =>
      have middle := left.nonempty
      have before := right.nonempty
      exact .if_ ifToken (ihTest (by omega)) then_ (ihThen (by omega)) else_
        (ihElse inside)
  | fn fnToken id arrow scope ih => exact .fn fnToken id arrow (ih inside)
  | chain level among derives ih => exact .chain level among (ih inside)
  | binary head between among tail ihHead ihTail =>
      have before := tail.nonempty
      exact .binary (ihHead (by omega)) between among (ihTail inside)
  | unary sign among derives ih => exact .unary sign among (ih inside)
  | apply head tail ihHead ihTail =>
      have before := tail.nonempty
      exact .apply (ihHead (by omega)) (ihTail inside)
  | false_ token => exact .false_ token
  | true_ token => exact .true_ token
  | integer token accepted =>
      exact .integer token (same _ (by omega) _ token accepted)
  | identifier token => exact .identifier token
  | parenthesis opened derives closed ih =>
      exact .parenthesis opened (ih (by omega)) closed
  | parenthesized opened derives closed ih =>
      exact .parenthesized opened (ih (by omega)) closed

/-- The same phrase with other symbols and values. -/
theorem Derives.relabel {n : Nat} (others : Nat → Symbol)
    (values : ∀ p < n, source.Has p .tokIntLiteral → ∀ value,
      literal p value → ∃ value, other p value)
    (derives : Derives source symbolAt literal level i expr j)
    (inside : j ≤ n) : ∃ expr, Derives source others other level i expr j := by
  induction derives with
  | last derives ih =>
      rcases ih inside with ⟨first, inner⟩
      exact ⟨_, .last inner⟩
  | more derives ih =>
      rcases ih inside with ⟨rest, inner⟩
      exact ⟨_, .more inner⟩
  | tuple head comma tail ihHead ihTail =>
      have before := tail.nonempty
      rcases ihHead (by omega) with ⟨first, left⟩
      rcases ihTail inside with ⟨rest, right⟩
      exact ⟨_, .tuple left comma right⟩
  | let_ letToken id equals bound in_ scope ihBound ihScope =>
      have before := scope.nonempty
      rcases ihBound (by omega) with ⟨value, left⟩
      rcases ihScope inside with ⟨body, right⟩
      exact ⟨_, .let_ letToken id equals left in_ right⟩
  | letrec letToken rec_ id equals bound in_ scope ihBound ihScope =>
      have before := scope.nonempty
      rcases ihBound (by omega) with ⟨value, left⟩
      rcases ihScope inside with ⟨body, right⟩
      exact ⟨_, .letrec letToken rec_ id equals left in_ right⟩
  | if_ ifToken condition then_ left else_ right ihTest ihThen ihElse =>
      have middle := left.nonempty
      have before := right.nonempty
      rcases ihTest (by omega) with ⟨test, first⟩
      rcases ihThen (by omega) with ⟨thenArm, second⟩
      rcases ihElse inside with ⟨elseArm, third⟩
      exact ⟨_, .if_ ifToken first then_ second else_ third⟩
  | fn fnToken id arrow scope ih =>
      rcases ih inside with ⟨body, inner⟩
      exact ⟨_, .fn fnToken id arrow inner⟩
  | chain level among derives ih =>
      rcases ih inside with ⟨expr, inner⟩
      exact ⟨_, .chain level among inner⟩
  | binary head between among tail ihHead ihTail =>
      have before := tail.nonempty
      rcases ihHead (by omega) with ⟨first, left⟩
      rcases ihTail inside with ⟨second, right⟩
      exact ⟨_, .binary left between among right⟩
  | unary sign among derives ih =>
      rcases ih inside with ⟨arg, inner⟩
      exact ⟨_, .unary sign among inner⟩
  | apply head tail ihHead ihTail =>
      have before := tail.nonempty
      rcases ihHead (by omega) with ⟨funcExpr, left⟩
      rcases ihTail inside with ⟨argExpr, right⟩
      exact ⟨_, .apply left right⟩
  | false_ token => exact ⟨_, .false_ token⟩
  | true_ token => exact ⟨_, .true_ token⟩
  | integer token accepted =>
      rcases values _ (by omega) token _ accepted with ⟨value, decimal⟩
      exact ⟨_, .integer token decimal⟩
  | identifier token => exact ⟨_, .identifier token⟩
  | parenthesis opened derives closed ih =>
      rcases ih (by omega) with ⟨expr, inner⟩
      exact ⟨_, .parenthesis opened inner closed⟩
  | parenthesized opened derives closed ih =>
      rcases ih (by omega) with ⟨expr, inner⟩
      exact ⟨_, .parenthesized opened inner closed⟩

/-- Every literal of a phrase has its value from the derivation. -/
theorem Derives.literal_at
    (derives : Derives source symbolAt literal level i expr j) {p : Nat}
    (low : i ≤ p) (high : p < j) (has : source.Has p .tokIntLiteral) :
    ∃ value, literal p value := by
  -- A token of the phrase's own is no literal.
  have own : ∀ {k : Nat} {type : TokenType}, source.Has k type →
      type ≠ .tokIntLiteral → p ≠ k := by
    rintro k type owns differs rfl
    exact differs (owns.unique has)
  have operators : ∀ {level : Level} {operator : TokenType},
      operator ∈ level.operators → operator ≠ .tokIntLiteral := by
    rintro level operator among rfl
    cases level with
    | _ => simp [Level.operators] at among
  induction derives with
  | last derives ih | more derives ih | chain level among derives ih =>
      exact ih low high
  | @tuple i j k first rest head comma tail ihHead ihTail =>
      have here := own comma (by decide)
      rcases Nat.lt_or_ge p j with before | after
      · exact ihHead low before
      · exact ihTail (by omega) high
  | @let_ i j k value body letToken id equals bound in_ scope ihBound
      ihScope =>
      have first := own letToken (by decide)
      have second := own id (by decide)
      have third := own equals (by decide)
      have fourth := own in_ (by decide)
      rcases Nat.lt_or_ge p j with before | after
      · exact ihBound (by omega) before
      · exact ihScope (by omega) high
  | @letrec i j k value body letToken rec_ id equals bound in_ scope ihBound
      ihScope =>
      have first := own letToken (by decide)
      have second := own rec_ (by decide)
      have third := own id (by decide)
      have fourth := own equals (by decide)
      have fifth := own in_ (by decide)
      rcases Nat.lt_or_ge p j with before | after
      · exact ihBound (by omega) before
      · exact ihScope (by omega) high
  | @if_ i j k l test thenArm elseArm ifToken condition then_ left else_ right
      ihTest ihThen ihElse =>
      have first := own ifToken (by decide)
      have second := own then_ (by decide)
      have third := own else_ (by decide)
      rcases Nat.lt_or_ge p j with inTest | after
      · exact ihTest (by omega) inTest
      rcases Nat.lt_or_ge p k with inThen | later
      · exact ihThen (by omega) inThen
      · exact ihElse (by omega) high
  | fn fnToken id arrow scope ih =>
      have first := own fnToken (by decide)
      have second := own id (by decide)
      have third := own arrow (by decide)
      exact ih (by omega) high
  | @binary level i j k operator left right head between among tail ihHead
      ihTail =>
      have here := own between (operators among)
      rcases Nat.lt_or_ge p j with before | after
      · exact ihHead low before
      · exact ihTail (by omega) high
  | @unary i j operator arg sign among derives ih =>
      have here := own sign (by rintro rfl; simp at among)
      exact ih (by omega) high
  | @apply i j k funcExpr argExpr head tail ihHead ihTail =>
      rcases Nat.lt_or_ge p j with before | after
      · exact ihHead low before
      · exact ihTail after high
  | false_ token | true_ token | identifier token =>
      have here := own token (by decide)
      omega
  | @integer i value token accepted =>
      obtain rfl : p = i := by omega
      exact ⟨value, accepted⟩
  | parenthesis opened derives closed ih
  | parenthesized opened derives closed ih =>
      have first := own opened (by decide)
      have last := own closed (by decide)
      exact ih (by omega) (by omega)

end

/-! ## The tokens of the lexer -/

/-- A literal consists of digits. -/
theorem Found.digits {buffer : ByteString} {p n : Nat}
    (found : Found buffer p (.token .tokIntLiteral) n) :
    ∀ c ∈ (buffer.drop p).take n, isDigit c = true := by
  have digits : ∀ r, p ≤ r → r < p + n →
      ∃ c, buffer[r]? = some c ∧ isDigit c = true := by
    generalize literal : Piece.token .tokIntLiteral = piece at found
    cases found with
    | number pos inside stops => exact inside
    | punctuation at_ is =>
        cases literal
        unfold Syntax.punctuation at is
        split_ifs at is
        all_goals cases is
    | word =>
        exact absurd (Piece.token.inj literal).symm
          (classify_ne (by decide) (by decide) _)
    | _ => cases literal
  intro c member
  rcases List.mem_iff_getElem?.mp member with ⟨k, at_⟩
  have less : k < n := by
    have inside := (List.getElem?_eq_some_iff.mp at_).1
    rw [List.length_take] at inside
    omega
  rw [List.getElem?_take_of_lt less, List.getElem?_drop] at at_
  rcases digits (p + k) (by omega) (by omega) with ⟨d, same, digit⟩
  rw [same] at at_
  cases at_
  exact digit

/-- What every token array of the lexer is like. -/
structure FromLexer (source : MillieTokens) : Prop where
  ends : source.EndsInEof
  texts : TextsInside source
  digits : ∀ token ∈ source.tokenArray, token.type = .tokIntLiteral →
    ∀ c ∈ source.text token, isDigit c = true

theorem fromLexer {buffer : ByteString} {source : MillieTokens}
    {errors : List ErrorReport} (lexed : lexBuffer buffer = .ok (source, errors)) :
    FromLexer source := by
  rcases lexBuffer_accounts lexed with
    ⟨last, reached, ended, tokens, -, same⟩
  cases same
  have cases_ : ∀ token ∈ last.tokens ++ [⟨.tokEof, buffer.length, 0⟩],
      token ∈ last.tokens ∨ token = ⟨.tokEof, buffer.length, 0⟩ := by
    intro token member
    rcases List.mem_append.mp member with old | new
    · exact .inl old
    · exact .inr (List.mem_singleton.mp new)
  constructor
  · exact ⟨⟨.tokEof, buffer.length, 0⟩, List.getLast?_concat, rfl⟩
  · intro token member
    rcases cases_ token member with old | rfl
    · rw [← ended]
      exact (tokens.extent token old).2
    · exact Nat.le_refl _
  · intro token member isInteger
    rcases cases_ token member with old | rfl
    · have found := reached.token_found token old
      rw [isInteger] at found
      exact found.digits
    · cases isInteger

theorem FromLexer.accepted {source : MillieTokens} (from_ : FromLexer source)
    {i : Nat} {value : UInt64} (has : source.Has i .tokIntLiteral)
    (decimal : Decimal source i value) : Accepted source i value := by
  rcases decimal with ⟨token, at_, number⟩
  rcases has with ⟨other, same, isInteger⟩
  rw [at_] at same
  cases same
  have member := List.mem_of_getElem? at_
  have read := readLiteral_decimal
    (from_.digits token member isInteger)
    (by rw [UInt64.toNat_zero, number]; exact value.toNat_lt)
  rw [UInt64.toNat_zero, number, UInt64.ofNat_toNat] at read
  exact ⟨token, _, at_, tokenText_inside from_.texts member, read⟩

theorem Accepted.unique {source : MillieTokens} {i : Nat}
    {first second : UInt64} (left : Accepted source i first)
    (right : Accepted source i second) : first = second := by
  rcases left with ⟨token, text, at_, isText, read⟩
  rcases right with ⟨other, otherText, same, isOther, readOther⟩
  rw [at_] at same
  cases same
  rw [isText] at isOther
  cases isOther
  rw [read] at readOther
  cases readOther
  rfl

/-! ## Acceptance -/

section

variable {buffer : ByteString} {source : MillieTokens}
  {lexErrors errors : List ErrorReport} {hash32 : ByteString → UInt32}
  {symbolFuel j : Nat} {table : SymbolTable} {tree expr : Expression}
  {after : ParseContext}

/-- The symbols that `ParseExpression` gives to the identifiers. -/
abbrev parsedSymbols (hash32 : ByteString → UInt32) (symbolFuel : Nat)
    (source : MillieTokens) (table : SymbolTable) (errors : List ErrorReport) :
    Nat → Symbol :=
  symbolAt source (findOrCreateSymbol hash32 symbolFuel) ⟨table, errors, 0, 0⟩

/-- A phrase at the start that the next token does not continue is parsed. -/
theorem parse_phrase (ends : source.EndsInEof)
    (derives : Derives source
      (parsedSymbols hash32 symbolFuel source table errors) (Accepted source)
      .expr 0 expr j)
    (stops : Level.expr.Stops source j)
    (returns : parseExpression hash32 symbolFuel source table errors =
      .ok (tree, after)) :
    tree = expr ∧ after.pos = j ∧ after.errors = errors := by
  have runs : Runs source (findOrCreateSymbol hash32 symbolFuel)
      ⟨table, errors, 0, 0⟩ .expr 0 expr j :=
    derives.passed rfl ends stops
  have goes := runs.goes (13 * (source.tokenArray.length + 1)) ?_ table
    tableAt_start
  · rw [parseExpression] at returns
    have same := goes.symm.trans returns
    cases passed : tableAt source (findOrCreateSymbol hash32 symbolFuel)
        ⟨table, errors, 0, 0⟩ j with
    | error stop =>
        rw [passed] at same
        cases same
    | ok last =>
        rw [passed] at same
        cases same
        exact ⟨rfl, rfl, rfl⟩
  · simp only [Production.rank]
    omega

/--
`ParseExpression` reports no error if and only if all tokens before the end are
an expression with literals below `2 ^ 64`, and returns its tree.
-/
structure ParsesExactly (source : MillieTokens) (symbolAt : Nat → Symbol)
    (errors : List ErrorReport) (tree : Expression) (after : ParseContext) :
    Prop where
  accepts : after.errors = errors ↔ ∃ expr,
    Derives source symbolAt (Decimal source) .expr 0 expr
      (source.tokenArray.length - 1)
  tree : ∀ expr, Derives source symbolAt (Decimal source) .expr 0 expr
    (source.tokenArray.length - 1) → tree = expr

/--
An expression at the start of the tokens, with literals that pass the check for
overflow, that the token after it does not continue.
-/
def Complete (source : MillieTokens) (j : Nat) : Prop :=
  (∃ expr, Derives source (fun _ => invalidSymbol) (Accepted source) .expr 0
    expr j) ∧ Level.expr.Stops source j

/-- Such an expression is all there is, and its literals are below `2 ^ 64`. -/
def NothingLeft (source : MillieTokens) : Prop :=
  ∀ j, Complete source j → j + 1 = source.tokenArray.length ∧
    ∀ p < j, ∀ value, source.Has p .tokIntLiteral → Accepted source p value →
      Decimal source p value

/-- The end of the tokens stops an expression. -/
theorem MillieTokens.EndsInEof.stops (ends : source.EndsInEof) (level : Level) :
    level.Stops source (source.tokenArray.length - 1) := by
  rcases ends with ⟨eof, last, isEof⟩
  rw [List.getLast?_eq_getElem?] at last
  refine .of_has ⟨eof, last, isEof⟩ ?_
  cases level with
  | _ => rfl

/-- What is complete is where the parser ends. -/
theorem Complete.parsed (ends : source.EndsInEof) (complete : Complete source j)
    (returns : parseExpression hash32 symbolFuel source table errors =
      .ok (tree, after)) : after.pos = j ∧ after.errors = errors := by
  rcases complete with ⟨⟨shape, phrase⟩, stops⟩
  rcases phrase.relabel (parsedSymbols hash32 symbolFuel source table errors)
    (fun _ _ _ value accepted => ⟨value, accepted⟩) (Nat.le_refl _) with
    ⟨expr, derives⟩
  exact (parse_phrase ends derives stops returns).2

/-- A sentence of the grammar is parsed as its tree. -/
theorem parse_sentence (from_ : FromLexer source)
    (returns : parseExpression hash32 symbolFuel source table errors =
      .ok (tree, after))
    (derives : Derives source
      (parsedSymbols hash32 symbolFuel source table errors) (Decimal source)
      .expr 0 expr (source.tokenArray.length - 1)) :
    tree = expr ∧ after.pos = source.tokenArray.length - 1 ∧
      after.errors = errors := by
  have accepted := Derives.literals
    (fun p _ value has decimal => from_.accepted has decimal) derives
    (Nat.le_refl _)
  exact parse_phrase from_.ends accepted (from_.ends.stops _) returns

/--
The parser accepts exactly its grammar if and only if no expression at the start
leaves anything that is no part of it.
-/
theorem parses_exactly_iff
    (lexed : lexBuffer buffer = .ok (source, lexErrors))
    (returns : parseExpression hash32 symbolFuel source table errors =
      .ok (tree, after)) :
    ParsesExactly source (parsedSymbols hash32 symbolFuel source table errors)
      errors tree after ↔ NothingLeft source := by
  have from_ := fromLexer lexed
  have nonempty := from_.ends.nonempty
  constructor
  · intro exactly j complete
    rcases complete.parsed from_.ends returns with ⟨position, quiet⟩
    rcases exactly.accepts.mp quiet with ⟨whole, derives⟩
    have last := (parse_sentence from_ returns derives).2.1
    refine ⟨by omega, fun p before value has accepted => ?_⟩
    rcases derives.literal_at (Nat.zero_le p) (by omega) has with
      ⟨other, decimal⟩
    rw [accepted.unique (from_.accepted has decimal)]
    exact decimal
  · intro nothing
    constructor
    · constructor
      · intro quiet
        have parsed := parseExpression_parsed from_.ends returns
        have derives := (parsed.advances.quiet rfl quiet).2
        rcases Derives.relabel (fun _ => invalidSymbol)
          (fun p _ _ value accepted => ⟨value, accepted⟩) derives
          (Nat.le_refl _) with ⟨shape, phrase⟩
        rcases nothing after.pos ⟨⟨shape, phrase⟩, parsed.stops⟩ with
          ⟨last, literals⟩
        have whole := Derives.literals (literals · · · ·) derives
          (Nat.le_refl _)
        have same : after.pos = source.tokenArray.length - 1 := by omega
        rw [same] at whole
        exact ⟨tree, whole⟩
      · rintro ⟨expr, derives⟩
        exact (parse_sentence from_ returns derives).2.2
    · intro expr derives
      exact (parse_sentence from_ returns derives).1

end

/-- The tokens of `1+2`. -/
def sumTokens : MillieTokens :=
  ⟨[⟨.tokIntLiteral, 0, 1⟩, ⟨.tokPlus, 1, 1⟩, ⟨.tokIntLiteral, 2, 1⟩,
    ⟨.tokEof, 3, 0⟩], [], ['1', '+', '2'].map byte⟩

/-- All of `1+2` is an expression. -/
theorem parses_exactly_sum : ∃ tree after,
    parseExpression (fun _ => 0) 4 sumTokens symbolTableCreate [] =
      .ok (tree, after) ∧
    ParsesExactly sumTokens
      (parsedSymbols (fun _ => 0) 4 sumTokens symbolTableCreate []) [] tree
      after := by
  have lexed : lexBuffer (['1', '+', '2'].map byte) = .ok (sumTokens, []) := rfl
  have returns : parseExpression (fun _ => 0) 4 sumTokens symbolTableCreate [] =
      .ok (_, _) := rfl
  refine ⟨_, _, returns, (parses_exactly_iff lexed returns).mpr ?_⟩
  intro j complete
  rcases complete.parsed (fromLexer lexed).ends returns with ⟨rfl, -⟩
  refine ⟨rfl, fun p before value has accepted => ?_⟩
  rcases accepted with ⟨token, text, at_, isText, read⟩
  have plus : sumTokens.Has 1 .tokPlus := ⟨_, rfl, rfl⟩
  have small : p = 0 ∨ p = 1 ∨ p = 2 := by
    change p < 3 at before
    omega
  rcases small with rfl | rfl | rfl
  · cases at_
    cases isText
    cases read
    exact ⟨_, rfl, rfl⟩
  · cases has.unique plus
  · cases at_
    cases isText
    cases read
    exact ⟨_, rfl, rfl⟩

/-- The tokens of `1)`. -/
def leftoverTokens : MillieTokens :=
  ⟨[⟨.tokIntLiteral, 0, 1⟩, ⟨.tokRParen, 1, 1⟩, ⟨.tokEof, 2, 0⟩], [],
    ['1', ')'].map byte⟩

/-- The tokens of `30000000000000000000`. -/
def largeTokens : MillieTokens :=
  ⟨[⟨.tokIntLiteral, 0, 20⟩, ⟨.tokEof, 20, 0⟩], [],
    (byte '3' :: List.replicate 19 (byte '0'))⟩

/-- `1)` and a literal of twenty digits are accepted. -/
theorem parses_exactly_not :
    (∃ tree after,
      lexBuffer leftoverTokens.buffer = .ok (leftoverTokens, []) ∧
      parseExpression (fun _ => 0) 4 leftoverTokens symbolTableCreate [] =
        .ok (tree, after) ∧
      ¬ParsesExactly leftoverTokens
        (parsedSymbols (fun _ => 0) 4 leftoverTokens symbolTableCreate []) []
        tree after) ∧
    ∃ tree after,
      lexBuffer largeTokens.buffer = .ok (largeTokens, []) ∧
      parseExpression (fun _ => 0) 4 largeTokens symbolTableCreate [] =
        .ok (tree, after) ∧
      ¬ParsesExactly largeTokens
        (parsedSymbols (fun _ => 0) 4 largeTokens symbolTableCreate []) []
        tree after := by
  constructor
  · have lexed : lexBuffer leftoverTokens.buffer = .ok (leftoverTokens, []) :=
      rfl
    have returns : parseExpression (fun _ => 0) 4 leftoverTokens
        symbolTableCreate [] = .ok (_, _) := rfl
    refine ⟨_, _, lexed, returns, fun exactly => ?_⟩
    rcases exactly.accepts.mp rfl with ⟨whole, derives⟩
    have last := (parse_sentence (fromLexer lexed) returns derives).2.1
    exact absurd last (by decide)
  · have lexed : lexBuffer largeTokens.buffer = .ok (largeTokens, []) := rfl
    have returns : parseExpression (fun _ => 0) 4 largeTokens
        symbolTableCreate [] = .ok (_, _) := rfl
    refine ⟨_, _, lexed, returns, fun exactly => ?_⟩
    rcases exactly.accepts.mp rfl with ⟨whole, derives⟩
    rcases derives.literal_at (Nat.zero_le 0) (by decide) ⟨_, rfl, rfl⟩ with
      ⟨value, token, at_, number⟩
    cases at_
    have below := value.toNat_lt
    rw [← number] at below
    exact absurd below (by decide +kernel)

end Millie.Syntax
