import Millie.Syntax.Identifiers

/-!
# What `ParseExpression` guarantees

On a token array that ends in `TOK_EOF` the parser terminates and reads no token
outside the array, whatever the other tokens are.  When it reports no error, the
tree it returns is well formed.
-/

namespace Millie.Syntax

open Weakest
open Millie.Symbols

section

variable {source : MillieTokens} {intern : Intern} {start : ParseContext}
  {hash32 : ByteString → UInt32} {symbolFuel : Nat} {table : SymbolTable}
  {errors : List ErrorReport} {tree : Expression} {after : ParseContext}

/-- Where a production starts, nothing has been interned since. -/
theorem Standing.opening (inside : start.pos < source.tokenArray.length) :
    Standing source intern start start :=
  ⟨inside, Nat.le_refl _, tableAt_start⟩

theorem MillieTokens.EndsInEof.nonempty (ends : source.EndsInEof) :
    0 < source.tokenArray.length := by
  rcases ends with ⟨eof, last, -⟩
  exact List.length_pos_of_mem (List.mem_of_getLast? last)

/-- The depth that `ParseExpression` is given is enough. -/
theorem cost_expression (source : MillieTokens) (start : ParseContext) :
    cost source .expr start < 13 * (source.tokenArray.length + 1) := by
  simp only [cost, Production.rank]
  omega

theorem parseExpression_parsed (ends : source.EndsInEof)
    (returns : parseExpression hash32 symbolFuel source table errors =
      .ok (tree, after)) :
    Parsed source (findOrCreateSymbol hash32 symbolFuel) ⟨table, errors, 0, 0⟩
      .expr ⟨table, errors, 0, 0⟩ tree after :=
  of_wpExcept (parse_spec ends _ _ _ .expr _ (.opening ends.nonempty)) returns

/-- Why `ParseExpression` does not return, when it does not. -/
theorem parseExpression_excuse (ends : source.EndsInEof) {stop : ParseStop}
    (stops : parseExpression hash32 symbolFuel source table errors =
      .error stop) :
    Excuse source (findOrCreateSymbol hash32 symbolFuel)
      ⟨table, errors, 0, 0⟩ True stop := by
  have spec := parse_spec ends (findOrCreateSymbol hash32 symbolFuel)
    ⟨table, errors, 0, 0⟩ (13 * (source.tokenArray.length + 1)) .expr _
    (.opening ends.nonempty)
  rw [parseExpression] at stops
  rw [wpExcept, stops] at spec
  exact Excuse.mono spec fun _ => cost_expression source _

end

/-! ## Termination and the tokens that are read -/

/-- What the parser does and never does, from any production and position. -/
structure ParsesInside (source : MillieTokens) (intern : Intern) : Prop where
  forward : ∀ fuel production context expr after,
    context.pos < source.tokenArray.length →
    parse source intern fuel production context = .ok (expr, after) →
    context.pos ≤ after.pos ∧ after.pos < source.tokenArray.length
  reads : ∀ fuel production context,
    context.pos < source.tokenArray.length →
    parse source intern fuel production context ≠ .error .tokenOutside
  terminates : ∀ fuel production context,
    context.pos < source.tokenArray.length →
    cost source production context < fuel →
    parse source intern fuel production context ≠ .error .outOfFuel

theorem MillieTokens.EndsInEof.parsesInside {source : MillieTokens}
    (ends : source.EndsInEof) (intern : Intern) :
    ParsesInside source intern := by
  constructor
  · intro fuel production context expr after inside returns
    have parsed := of_wpExcept
      (parse_spec ends intern _ fuel production context (.opening inside)) returns
    exact ⟨parsed.advances.forward, parsed.advances.standing.inside⟩
  · intro fuel production context inside stops
    have spec := parse_spec ends intern _ fuel production context
      (.opening inside)
    rw [wpExcept, stops] at spec
    cases spec
  · intro fuel production context inside enough stops
    have spec := parse_spec ends intern _ fuel production context
      (.opening inside)
    rw [wpExcept, stops] at spec
    cases spec with
    | fuel little => exact little enough

/--
`ParseExpression` terminates within the tokens.  It returns whenever
`FindOrCreateSymbol` returns for every identifier, and in particular for every
number of distinct identifiers that the symbol table has been made for.
-/
theorem parser_bounded {source : MillieTokens} (ends : source.EndsInEof)
    (hash32 : ByteString → UInt32) (symbolFuel : Nat) :
    ParsesInside source (findOrCreateSymbol hash32 symbolFuel) ∧
      (∀ table errors stop,
        parseExpression hash32 symbolFuel source table errors = .error stop →
        (stop = .textOutside ∧ ¬TextsInside source) ∨
          ∃ reason i, stop = .symbolTable reason ∧
            tableAt source (findOrCreateSymbol hash32 symbolFuel)
              ⟨table, errors, 0, 0⟩ i = .error (.symbolTable reason)) ∧
      (TextsInside source → (identifiers source).length < 30198988 →
        2 ^ 25 ≤ symbolFuel → ∀ errors, ∃ tree after,
          parseExpression hash32 symbolFuel source symbolTableCreate errors =
            .ok (tree, after)) := by
  have excuse : ∀ table errors stop,
      parseExpression hash32 symbolFuel source table errors = .error stop →
      (stop = .textOutside ∧ ¬TextsInside source) ∨
        ∃ reason i, stop = .symbolTable reason ∧
          tableAt source (findOrCreateSymbol hash32 symbolFuel)
            ⟨table, errors, 0, 0⟩ i = .error (.symbolTable reason) := by
    intro table errors stop stops
    cases parseExpression_excuse ends stops with
    | fuel little => exact absurd trivial little
    | text token member outside =>
        refine .inl ⟨rfl, fun inside => ?_⟩
        exact absurd (inside token member) (Nat.not_le_of_lt outside)
    | symbols i reason fails => exact .inr ⟨reason, i, rfl, fails⟩
  refine ⟨ends.parsesInside _, excuse, ?_⟩
  intro texts few enough errors
  cases run : parseExpression hash32 symbolFuel source symbolTableCreate errors
    with
  | ok result => exact ⟨result.1, result.2, rfl⟩
  | error stop =>
      rcases excuse _ _ _ run with ⟨-, outside⟩ | ⟨reason, i, -, fails⟩
      · exact absurd texts outside
      · rcases tableAt_interned hash32 texts few enough errors i with
          ⟨table, bits, same, -⟩
        rw [same] at fails
        cases fails

/-- The tokens of `(x,1)`. -/
def pairTokens : MillieTokens :=
  ⟨[⟨.tokLParen, 0, 1⟩, ⟨.tokId, 1, 1⟩, ⟨.tokComma, 2, 1⟩,
    ⟨.tokIntLiteral, 3, 1⟩, ⟨.tokRParen, 4, 1⟩, ⟨.tokEof, 5, 0⟩], [],
    ['(', 'x', ',', '1', ')'].map byte⟩

theorem pairTokens_endsInEof : pairTokens.EndsInEof :=
  ⟨⟨.tokEof, 5, 0⟩, rfl, rfl⟩

/-- The parser returns for `(x,1)`. -/
theorem parser_bounded_pair : ∃ tree after,
    parseExpression (fun _ => 0) (2 ^ 25) pairTokens symbolTableCreate [] =
      .ok (tree, after) := by
  have bounded := parser_bounded pairTokens_endsInEof (fun _ => 0) (2 ^ 25)
  refine bounded.2.2 ?_ ?_ (Nat.le_refl _) []
  · decide +kernel
  · decide +kernel

/-! ## No error, no wrong tree -/

/-- A tree that is returned without an error is well formed. -/
theorem quiet_wellFormed {source : MillieTokens}
    {hash32 : ByteString → UInt32} {symbolFuel : Nat} {table : SymbolTable}
    {tree : Expression} {after : ParseContext} (ends : source.EndsInEof)
    (counted : table.itemCount.toNat + source.tokenArray.length ≤ 2 ^ 32)
    (returns : parseExpression hash32 symbolFuel source table [] =
      .ok (tree, after))
    (quiet : after.errors = []) : WellFormed tree := by
  have parsed := parseExpression_parsed ends returns
  have derives := (parsed.advances.quiet rfl quiet).2
  have inside := parsed.advances.standing.inside
  refine Derives.shape (n := after.pos) ?_ derives (Nat.le_refl _)
  intro p before has
  rcases tableAt_earlier (Nat.zero_le _) (show p + 1 ≤ after.pos from before)
    parsed.advances.standing.table with ⟨later, passed⟩
  refine symbolAt_ne_invalid rfl ?_ has passed
  dsimp only
  omega

/-- The tree of `(x,1)` is well formed. -/
theorem quiet_wellFormed_pair : ∃ tree after,
    parseExpression (fun _ => 0) 4 pairTokens symbolTableCreate [] =
      .ok (tree, after) ∧ WellFormed tree := by
  refine ⟨_, _, rfl, quiet_wellFormed pairTokens_endsInEof ?_
    (rfl : parseExpression (fun _ => 0) 4 pairTokens symbolTableCreate [] = _)
    rfl⟩
  decide +kernel

end Millie.Syntax
