import Millie.Syntax.Identifiers

/-!
# A phrase is parsed as its tree

From a context that has lost nothing, a production that stands at the start of a
phrase passes exactly the phrase and returns its tree, provided that the next
token does not continue the phrase.  A phrase of a level with binary operators
is a start for the level's loop: parsing it amounts to the loop from its end.
-/

namespace Millie.Syntax

open Weakest
open Millie.Symbols

/-! ## Runs that report nothing -/

section

variable (source : MillieTokens) (intern : Intern) (start : ParseContext)

/-- The context at an index when nothing has been reported. -/
def calmAt (start : ParseContext) (table : SymbolTable) (i : Nat) :
    ParseContext :=
  { start with table := table, pos := i, lostCount := 0 }

/--
A step goes from an index to another one with a value, unless the interning of
an identifier in between stops.
-/
def Goes {α : Type} (step : ParseM α) (i : Nat) (value : α) (j : Nat) : Prop :=
  ∀ before, tableAt source intern start i = .ok before →
    step (calmAt start before i) =
      (fun after => (value, calmAt start after j)) <$>
        tableAt source intern start j

/-- A production goes from an index to another one, at every depth it needs. -/
structure Runs (production : Production) (i : Nat) (expr : Expression)
    (j : Nat) : Prop where
  forward : i ≤ j
  inside : j < source.tokenArray.length
  goes : ∀ fuel,
    13 * (source.tokenArray.length - i) + production.rank < fuel →
    Goes source intern start (parse source intern fuel production) i expr j

variable {source} {intern} {start} {i j k : Nat} {α β : Type} {type : TokenType}

theorem Goes.pure (value : α) : Goes source intern start (pure value) i value i := by
  intro before same
  rw [same]
  rfl

theorem Goes.bind {step : ParseM α} {next : α → ParseM β} {first : α}
    {result : β} (zero : start.pos = 0) (le : j ≤ k)
    (goes : Goes source intern start step i first j)
    (then_ : Goes source intern start (next first) j result k) :
    Goes source intern start (step >>= next) i result k := by
  intro before same
  have run := goes before same
  cases middle : tableAt source intern start j with
  | ok table =>
      rw [middle] at run
      rw [bind_returned run]
      exact then_ table middle
  | error stop =>
      rw [middle] at run
      rw [bind_stopped run, tableAt_stopped (by omega) le middle]
      rfl

/-- The table after a token that is no identifier. -/
theorem tableAt_plain (zero : start.pos = 0) (has : source.Has i type)
    (plain : type ≠ .tokId) :
    tableAt source intern start (i + 1) = tableAt source intern start i := by
  rcases has with ⟨token, at_, rfl⟩
  rw [tableAt_step (by omega) at_]
  cases tableAt source intern start i with
  | ok table => exact if_neg plain
  | error stop => rfl

theorem match_goes (zero : start.pos = 0) (has : source.Has i type)
    (real : type ≠ .tokEof) (plain : type ≠ .tokId) :
    Goes source intern start (match_ source type) i true (i + 1) := by
  intro before same
  rw [tableAt_plain zero has plain, same]
  rcases has with ⟨token, at_, isType⟩
  have here : source.tokenArray[(calmAt start before i).pos]? = some token :=
    at_
  rw [match_eq here real, if_pos isType]
  rfl

theorem match_skips (inside : i < source.tokenArray.length)
    (none : ¬source.Has i type) (real : type ≠ .tokEof) :
    Goes source intern start (match_ source type) i false i := by
  intro before same
  have here : source.tokenArray[(calmAt start before i).pos]? = some _ :=
    List.getElem?_eq_getElem inside
  rw [match_eq here real, if_neg fun isType => none ⟨_, here, isType⟩, same]
  rfl

theorem matchV_goes {types : List TokenType} (zero : start.pos = 0)
    (has : source.Has i type) (among : type ∈ types) (real : .tokEof ∉ types)
    (plain : .tokId ∉ types) :
    Goes source intern start (matchV source types) i true (i + 1) := by
  intro before same
  rw [tableAt_plain zero has (fun id => plain (id ▸ among)), same]
  rcases has with ⟨token, at_, rfl⟩
  have here : source.tokenArray[(calmAt start before i).pos]? = some token :=
    at_
  rw [matchV_eq here real, if_pos among]
  rfl

theorem matchV_skips {types : List TokenType}
    (inside : i < source.tokenArray.length)
    (none : ∀ type ∈ types, ¬source.Has i type) (real : .tokEof ∉ types) :
    Goes source intern start (matchV source types) i false i := by
  intro before same
  have here : source.tokenArray[(calmAt start before i).pos]? = some _ :=
    List.getElem?_eq_getElem inside
  rw [matchV_eq here real, if_neg fun among => none _ among ⟨_, here, rfl⟩,
    same]
  rfl

theorem peekToken_goes (has : source.Has i type) :
    Goes source intern start (peekToken source) i type i := by
  intro before same
  rcases has with ⟨token, at_, rfl⟩
  have here : source.tokenArray[(calmAt start before i).pos]? = some token :=
    at_
  rw [peekToken_eq here, same]
  rfl

theorem prevPos_goes : Goes source intern start prevPos (i + 1) i (i + 1) := by
  intro before same
  rw [same]
  rfl

theorem prevToken_goes (has : source.Has i type) :
    Goes source intern start (prevToken source) (i + 1) type (i + 1) := by
  intro before same
  rcases has with ⟨token, at_, rfl⟩
  have here : source.tokenArray[(calmAt start before i).pos]? = some token :=
    at_
  have run := prevToken_eq here
  rw [same]
  exact run

theorem expect_goes (zero : start.pos = 0) (has : source.Has i type)
    (real : type ≠ .tokEof) (plain : type ≠ .tokId) (message : String) :
    Goes source intern start (expect source type message) i () (i + 1) := by
  refine .bind zero (Nat.le_refl _) (match_goes zero has real plain) ?_
  exact .pure ()

theorem parseSymbol_goes (zero : start.pos = 0) (has : source.Has i .tokId) :
    Goes source intern start (parseSymbol source intern) i
      (symbolAt source intern start i) (i + 1) := by
  intro before same
  rcases has with ⟨token, at_, isId⟩
  have here : source.tokenArray[(calmAt start before i).pos]? = some token :=
    at_
  rw [parseSymbol_eq here isId, tableAt_succ (by omega) at_ same, internToken,
    if_pos isId]
  have table : (calmAt start before i).table = before := rfl
  rw [table]
  cases interned : internText source intern before token with
  | ok result =>
      have symbol : symbolAt source intern start i = result.1 := by
        simp only [symbolAt, at_, same, interned]
      rw [symbol]
      rfl
  | error stop => rfl

end

/-! ## The ends of phrases -/

section

variable {source : MillieTokens} {symbolAt : Nat → Symbol}
  {literal : Nat → UInt64 → Prop} {level : Level} {i j : Nat}
  {expr : Expression}

/-- The last token of a phrase is not the end of the tokens. -/
theorem Derives.real (derives : Derives source symbolAt literal level i expr j) :
    ∃ k type, j = k + 1 ∧ source.Has k type ∧ type ≠ .tokEof := by
  induction derives with
  | last first ih | more rest ih | chain level among derives ih => exact ih
  | tuple head comma tail ihHead ihTail => exact ihTail
  | let_ letToken id equals bound in_ scope ihBound ihScope => exact ihScope
  | letrec letToken rec_ id equals bound in_ scope ihBound ihScope =>
      exact ihScope
  | if_ ifToken condition then_ left else_ right ihTest ihThen ihElse =>
      exact ihElse
  | fn fnToken id arrow scope ih => exact ih
  | binary head between among tail ihHead ihTail => exact ihTail
  | unary sign among arg ih => exact ih
  | apply head tail ihHead ihTail => exact ihTail
  | false_ token | true_ token | integer token | identifier token =>
      exact ⟨_, _, rfl, token, by decide⟩
  | parenthesis opened inner closed | parenthesized opened inner closed =>
      exact ⟨_, _, rfl, closed, by decide⟩

theorem Derives.inside (ends : source.EndsInEof)
    (derives : Derives source symbolAt literal level i expr j) :
    j < source.tokenArray.length := by
  rcases derives.real with ⟨k, type, rfl, has, real⟩
  exact ends.next has real

/-- What a phrase without a keyword can start with. -/
theorem Derives.starts (derives : Derives source symbolAt literal level i expr j)
    (plain : level ∈ [.comparison, .term, .factor, .unary, .application,
      .primary]) :
    ∃ type, source.Has i type ∧ (type.isPrimary = true ∨
      level ∉ [Level.application, .primary] ∧ type ∈ [.tokPlus, .tokMinus]) := by
  induction derives with
  | chain level among derives ih =>
      have inner : level.tighter ∈ [.comparison, .term, .factor, .unary,
          .application, .primary] := by
        clear ih derives
        revert among plain
        cases level with
        | _ => decide
      rcases ih inner with ⟨type, has, primary | ⟨sign, member⟩⟩
      · exact ⟨type, has, .inl primary⟩
      · refine ⟨type, has, .inr ⟨fun tight => sign ?_, member⟩⟩
        clear ih derives sign inner
        revert among plain tight
        cases level with
        | _ => decide
  | binary head between among tail ihHead ihTail => exact ihHead plain
  | unary sign among arg ih => exact ⟨_, sign, .inr ⟨by decide, among⟩⟩
  | apply head tail ihHead ihTail => exact ihHead plain
  | false_ token | true_ token | integer token | identifier token =>
      exact ⟨_, token, .inl rfl⟩
  | parenthesis opened inner closed | parenthesized opened inner closed =>
      exact ⟨_, opened, .inl rfl⟩
  | _ => simp at plain

end

/-! ## The loops -/

section

variable {source : MillieTokens} {intern : Intern} {start : ParseContext}
  {i j k m : Nat} {expr left right result : Expression}
  {production callee : Production}

/-- A production runs as its function does. -/
theorem Runs.of_step (forward : i ≤ j) (inside : j < source.tokenArray.length)
    (goes : ∀ fuel,
      13 * (source.tokenArray.length - i) + production.rank ≤ fuel →
      Goes source intern start
        (parseProduction source intern (parse source intern fuel) production)
        i expr j) :
    Runs source intern start production i expr j := by
  refine ⟨forward, inside, fun fuel enough => ?_⟩
  cases fuel with
  | zero => cases enough
  | succ fuel => exact goes fuel (Nat.le_of_lt_succ enough)

/-- A call further down the chain of productions. -/
theorem Runs.lower {fuel : Nat}
    (runs : Runs source intern start callee k expr m)
    (rank : callee.rank < production.rank) (after : i ≤ k)
    (enough : 13 * (source.tokenArray.length - i) + production.rank ≤ fuel) :
    Goes source intern start (parse source intern fuel callee) k expr m := by
  refine runs.goes fuel ?_
  omega

/-- A call after a token has been passed. -/
theorem Runs.later {fuel : Nat}
    (runs : Runs source intern start callee k expr m) (after : i < k)
    (enough : 13 * (source.tokenArray.length - i) + production.rank ≤ fuel) :
    Goes source intern start (parse source intern fuel callee) k expr m := by
  have rank := callee.rank_le
  have forward := runs.forward
  have inside := runs.inside
  refine runs.goes fuel ?_
  omega

/-- The productions of a level with binary operators, and what its loop
matches. -/
structure Loop (source : MillieTokens) (intern : Intern) (start : ParseContext)
    (level : Level) (whole operand : Production)
    (rest : Expression → Production) (matches_ : ParseM Bool) : Prop where
  shape : BinaryLevel source level whole operand rest
  parseWhole : ∀ recurse, parseProduction source intern recurse whole =
    parseBinary recurse operand rest
  parseRest : ∀ recurse expr,
    parseProduction source intern recurse (rest expr) =
      parseBinaryRest source recurse matches_ operand rest expr
  passes : ∀ i, ∀ operator ∈ level.operators, source.Has i operator →
    Goes source intern start matches_ i true (i + 1)
  skips : ∀ i, i < source.tokenArray.length →
    (∀ operator ∈ level.operators, ¬source.Has i operator) →
    Goes source intern start matches_ i false i

theorem factor_loop (zero : start.pos = 0) :
    Loop source intern start .factor .factor .unary .factorRest
      (matchV source [.tokStar, .tokSlash]) where
  shape := factor_level source
  parseWhole _ := rfl
  parseRest _ _ := rfl
  passes _ _ among has :=
    matchV_goes zero has among (by decide) (by decide)
  skips _ inside none := matchV_skips inside none (by decide)

theorem term_loop (zero : start.pos = 0) :
    Loop source intern start .term .term .factor .termRest
      (matchV source [.tokPlus, .tokMinus]) where
  shape := term_level source
  parseWhole _ := rfl
  parseRest _ _ := rfl
  passes _ _ among has :=
    matchV_goes zero has among (by decide) (by decide)
  skips _ inside none := matchV_skips inside none (by decide)

theorem comparison_loop (zero : start.pos = 0) :
    Loop source intern start .comparison .comparison .term .comparisonRest
      (match_ source .tokEquals) where
  shape := comparison_level source
  parseWhole _ := rfl
  parseRest _ _ := rfl
  passes _ operator among has := by
    rw [List.mem_singleton.mp among] at has
    exact match_goes zero has (by decide) (by decide)
  skips _ inside none :=
    match_skips inside (none _ (List.mem_singleton.mpr rfl)) (by decide)

section

variable {level : Level} {whole operand : Production}
  {rest : Expression → Production} {matches_ : ParseM Bool}

theorem Loop.enter
    (loop : Loop source intern start level whole operand rest matches_)
    (zero : start.pos = 0) (head : Runs source intern start operand i expr j)
    (more : Runs source intern start (rest expr) j result k) :
    Runs source intern start whole i result k := by
  refine .of_step (Nat.le_trans head.forward more.forward) more.inside ?_
  intro fuel enough
  rw [loop.parseWhole]
  refine .bind zero more.forward
    (head.lower loop.shape.operandRank (Nat.le_refl _) enough) ?_
  exact more.lower (loop.shape.restRank _) head.forward enough

theorem Loop.again
    (loop : Loop source intern start level whole operand rest matches_)
    (zero : start.pos = 0) {operator : TokenType}
    (has : source.Has j operator) (among : operator ∈ level.operators)
    (tail : Runs source intern start operand (j + 1) right k)
    (more : Runs source intern start (rest (makeBinary operator left right)) k
      result m) :
    Runs source intern start (rest left) j result m := by
  have tailForward := tail.forward
  have moreForward := more.forward
  refine .of_step (by omega) more.inside fun fuel enough => ?_
  rw [loop.parseRest]
  refine .bind zero (by omega) (loop.passes j operator among has) ?_
  refine .bind zero (by omega) (prevToken_goes has) ?_
  refine .bind zero (by omega) (tail.later (Nat.lt_succ_self _) enough) ?_
  exact more.later (by omega) enough

theorem Loop.leave
    (loop : Loop source intern start level whole operand rest matches_)
    (inside : j < source.tokenArray.length) (zero : start.pos = 0)
    (stops : level.Stops source j) :
    Runs source intern start (rest expr) j expr j := by
  refine .of_step (Nat.le_refl _) inside fun fuel enough => ?_
  rw [loop.parseRest]
  refine .bind zero (Nat.le_refl _) (loop.skips j inside ?_) (.pure expr)
  intro operator among has
  have none := stops operator has
  rw [loop.shape.continues] at none
  rw [Bool.or_eq_false_iff] at none
  rw [List.contains_iff_mem.mpr among] at none
  cases none.2

end

theorem application_enter (zero : start.pos = 0)
    (head : Runs source intern start .primary i expr j)
    (more : Runs source intern start (.applicationRest expr) j result k) :
    Runs source intern start .application i result k := by
  refine .of_step (Nat.le_trans head.forward more.forward) more.inside ?_
  intro fuel enough
  refine .bind zero more.forward
    (head.lower (by decide) (Nat.le_refl _) enough) ?_
  exact more.lower (Nat.lt_succ_self _) head.forward enough

theorem application_again (zero : start.pos = 0) {type : TokenType}
    (has : source.Has j type) (primary : type.isPrimary = true) (later : j < k)
    (tail : Runs source intern start .primary j right k)
    (more : Runs source intern start (.applicationRest (makeApply left right)) k
      result m) :
    Runs source intern start (.applicationRest left) j result m := by
  have moreForward := more.forward
  have rank : Production.primary.rank <
      (Production.applicationRest left).rank := Nat.zero_lt_one
  refine .of_step (by omega) more.inside fun fuel enough => ?_
  refine .bind zero (by omega) (peekToken_goes has) ?_
  rw [if_pos primary]
  refine .bind zero (by omega) (tail.lower rank (Nat.le_refl _) enough) ?_
  exact more.later later enough

theorem application_leave (zero : start.pos = 0)
    (inside : j < source.tokenArray.length)
    (stops : Level.application.Stops source j) :
    Runs source intern start (.applicationRest expr) j expr j := by
  rcases exists_has inside with ⟨type, has⟩
  refine .of_step (Nat.le_refl _) inside fun fuel enough => ?_
  refine .bind zero (Nat.le_refl _) (peekToken_goes has) ?_
  have other : ¬type.isPrimary = true := Bool.eq_false_iff.mp (stops type has)
  rw [if_neg other]
  exact .pure expr

/-! ## Expressions -/

theorem expression_of_let (runs : Runs source intern start .let_ i expr j) :
    Runs source intern start .expr i expr j :=
  .of_step runs.forward runs.inside fun _ enough =>
    runs.lower (by decide) (Nat.le_refl _) enough

theorem let_of_if (zero : start.pos = 0)
    (runs : Runs source intern start .if_ i expr j)
    (inside : i < source.tokenArray.length)
    (other : ¬source.Has i .tokLet) :
    Runs source intern start .let_ i expr j := by
  refine .of_step runs.forward runs.inside fun fuel enough => ?_
  refine .bind zero runs.forward
    (match_skips inside other (by decide)) ?_
  exact runs.lower (by decide) (Nat.le_refl _) enough

theorem if_of_fn (zero : start.pos = 0)
    (runs : Runs source intern start .fn i expr j)
    (inside : i < source.tokenArray.length)
    (other : ¬source.Has i .tokIf) :
    Runs source intern start .if_ i expr j := by
  refine .of_step runs.forward runs.inside fun fuel enough => ?_
  refine .bind zero runs.forward
    (match_skips inside other (by decide)) ?_
  exact runs.lower (by decide) (Nat.le_refl _) enough

theorem fn_of_comparison (zero : start.pos = 0)
    (runs : Runs source intern start .comparison i expr j)
    (inside : i < source.tokenArray.length)
    (other : ¬source.Has i .tokFn) :
    Runs source intern start .fn i expr j := by
  refine .of_step runs.forward runs.inside fun fuel enough => ?_
  refine .bind zero runs.forward
    (match_skips inside other (by decide)) ?_
  exact runs.lower (by decide) (Nat.le_refl _) enough

/-- An expression that does not start with a keyword. -/
theorem expression_of_comparison (zero : start.pos = 0)
    (runs : Runs source intern start .comparison i expr j) {type : TokenType}
    (has : source.Has i type)
    (plain : type ∉ [.tokLet, .tokIf, .tokFn]) :
    Runs source intern start .expr i expr j := by
  have other : ∀ keyword ∈ [TokenType.tokLet, .tokIf, .tokFn],
      ¬source.Has i keyword :=
    fun keyword among same => plain (has.unique same ▸ among)
  refine expression_of_let (let_of_if zero (if_of_fn zero
    (fn_of_comparison zero runs has.inside ?_) has.inside ?_) has.inside ?_)
  · exact other _ (by decide)
  · exact other _ (by decide)
  · exact other _ (by decide)

theorem lambda_runs (zero : start.pos = 0) (has : source.Has i .tokFn)
    (id : source.Has (i + 1) .tokId) (arrow : source.Has (i + 2) .tokArrow)
    (scope : Runs source intern start .expr (i + 3) expr j) :
    Runs source intern start .fn i
      (makeLambda i (symbolAt source intern start (i + 1)) expr) j := by
  have forward := scope.forward
  refine .of_step (by omega) scope.inside fun fuel enough => ?_
  refine .bind zero (by omega)
    (match_goes zero has (by decide) (by decide)) ?_
  refine .bind zero (by omega) prevPos_goes ?_
  refine .bind zero (by omega) (parseSymbol_goes zero id) ?_
  refine .bind zero (by omega)
    (expect_goes zero arrow (by decide) (by decide) _) ?_
  refine .bind zero (by omega) (scope.later (by omega) enough) ?_
  exact .pure _

theorem conditional_runs (zero : start.pos = 0) {test thenArm elseArm : Expression}
    (has : source.Has i .tokIf)
    (condition : Runs source intern start .expr (i + 1) test j)
    (then_ : source.Has j .tokThen)
    (left : Runs source intern start .expr (j + 1) thenArm k)
    (else_ : source.Has k .tokElse)
    (right : Runs source intern start .expr (k + 1) elseArm m) :
    Runs source intern start .if_ i (makeIf i test thenArm elseArm) m := by
  have first := condition.forward
  have second := left.forward
  have third := right.forward
  refine .of_step (by omega) right.inside fun fuel enough => ?_
  refine .bind zero (by omega)
    (match_goes zero has (by decide) (by decide)) ?_
  refine .bind zero (by omega) prevPos_goes ?_
  refine .bind zero (by omega) (condition.later (by omega) enough) ?_
  refine .bind zero (by omega)
    (expect_goes zero then_ (by decide) (by decide) _) ?_
  refine .bind zero (by omega) (left.later (by omega) enough) ?_
  refine .bind zero (by omega)
    (expect_goes zero else_ (by decide) (by decide) _) ?_
  refine .bind zero (by omega) (right.later (by omega) enough) ?_
  exact .pure _

theorem let_runs (zero : start.pos = 0) {value body : Expression}
    (has : source.Has i .tokLet) (id : source.Has (i + 1) .tokId)
    (equals : source.Has (i + 2) .tokEquals)
    (bound : Runs source intern start .expr (i + 3) value j)
    (in_ : source.Has j .tokIn)
    (scope : Runs source intern start .expr (j + 1) body k) :
    Runs source intern start .let_ i
      (makeLet i (symbolAt source intern start (i + 1)) value body) k := by
  have first := bound.forward
  have second := scope.forward
  have other : ¬source.Has (i + 1) .tokRec :=
    fun same => nomatch id.unique same
  refine .of_step (by omega) scope.inside fun fuel enough => ?_
  refine .bind zero (by omega)
    (match_goes zero has (by decide) (by decide)) ?_
  refine .bind zero (by omega) prevPos_goes ?_
  refine .bind zero (by omega) (match_skips id.inside other (by decide)) ?_
  refine .bind zero (by omega) (parseSymbol_goes zero id) ?_
  refine .bind zero (by omega)
    (expect_goes zero equals (by decide) (by decide) _) ?_
  refine .bind zero (by omega) (bound.later (by omega) enough) ?_
  refine .bind zero (by omega)
    (expect_goes zero in_ (by decide) (by decide) _) ?_
  refine .bind zero (by omega) (scope.later (by omega) enough) ?_
  exact .pure _

theorem letrec_runs (zero : start.pos = 0) {value body : Expression}
    (has : source.Has i .tokLet) (rec_ : source.Has (i + 1) .tokRec)
    (id : source.Has (i + 2) .tokId) (equals : source.Has (i + 3) .tokEquals)
    (bound : Runs source intern start .expr (i + 4) value j)
    (in_ : source.Has j .tokIn)
    (scope : Runs source intern start .expr (j + 1) body k) :
    Runs source intern start .let_ i
      (makeLetRec i (symbolAt source intern start (i + 2)) value body) k := by
  have first := bound.forward
  have second := scope.forward
  refine .of_step (by omega) scope.inside fun fuel enough => ?_
  refine .bind zero (by omega)
    (match_goes zero has (by decide) (by decide)) ?_
  refine .bind zero (by omega) prevPos_goes ?_
  refine .bind zero (by omega)
    (match_goes zero rec_ (by decide) (by decide)) ?_
  refine .bind zero (by omega) (parseSymbol_goes zero id) ?_
  refine .bind zero (by omega)
    (expect_goes zero equals (by decide) (by decide) _) ?_
  refine .bind zero (by omega) (bound.later (by omega) enough) ?_
  refine .bind zero (by omega)
    (expect_goes zero in_ (by decide) (by decide) _) ?_
  refine .bind zero (by omega) (scope.later (by omega) enough) ?_
  exact .pure _

/-! ## Signs, tuples and primaries -/

theorem sign_runs (zero : start.pos = 0) {operator : TokenType}
    (sign : source.Has i operator) (among : operator ∈ [.tokPlus, .tokMinus])
    (arg : Runs source intern start .unary (i + 1) expr j) :
    Runs source intern start .unary i (makeUnary i operator expr) j := by
  have forward := arg.forward
  refine .of_step (by omega) arg.inside fun fuel enough => ?_
  refine .bind zero (by omega)
    (matchV_goes zero sign among (by decide) (by decide)) ?_
  refine .bind zero (by omega) (prevToken_goes sign) ?_
  refine .bind zero (by omega) prevPos_goes ?_
  refine .bind zero (by omega) (arg.later (by omega) enough) ?_
  exact .pure _

theorem unary_of_application (zero : start.pos = 0)
    (runs : Runs source intern start .application i expr j) {type : TokenType}
    (has : source.Has i type) (plain : type ∉ [.tokPlus, .tokMinus]) :
    Runs source intern start .unary i expr j := by
  refine .of_step runs.forward runs.inside fun fuel enough => ?_
  refine .bind zero runs.forward (matchV_skips has.inside ?_ (by decide)) ?_
  · exact fun sign among same => plain (has.unique same ▸ among)
  · exact runs.lower (by decide) (Nat.le_refl _) enough

theorem tupleNext_runs (zero : start.pos = 0) {first rest : Expression}
    (tail : Runs source intern start .tuple i rest j)
    (length : lengthBefore rest = spineLength rest + 1) :
    Runs source intern start (.tupleNext first) i
      (makeTuple first rest (spineLength rest + 1)) j := by
  have rank : Production.tuple.rank < (Production.tupleNext first).rank :=
    Nat.lt_succ_self _
  refine .of_step tail.forward tail.inside fun fuel enough => ?_
  refine .bind zero (Nat.le_refl _) (tail.lower rank (Nat.le_refl _) enough) ?_
  rw [length]
  exact .pure _

theorem tuple_runs (zero : start.pos = 0) {first : Expression}
    (head : Runs source intern start .expr i first j)
    (comma : source.Has j .tokComma)
    (more : Runs source intern start (.tupleNext first) (j + 1) expr k) :
    Runs source intern start .tuple i expr k := by
  have headForward := head.forward
  have moreForward := more.forward
  refine .of_step (by omega) more.inside fun fuel enough => ?_
  refine .bind zero (by omega)
    (head.lower (by decide) (Nat.le_refl _) enough) ?_
  refine .bind zero (by omega)
    (match_goes zero comma (by decide) (by decide)) ?_
  exact more.later (by omega) enough

theorem tuple_ends (zero : start.pos = 0)
    (head : Runs source intern start .expr i expr j)
    (none : ¬source.Has j .tokComma) :
    Runs source intern start .tuple i (makeTupleFinal expr) j := by
  refine .of_step head.forward head.inside fun fuel enough => ?_
  refine .bind zero (Nat.le_refl _)
    (head.lower (by decide) (Nat.le_refl _) enough) ?_
  refine .bind zero (Nat.le_refl _)
    (match_skips head.inside none (by decide)) ?_
  exact .pure _

/-- A helper that looks for another token skips. -/
theorem match_other {type other : TokenType} (has : source.Has i type)
    (differs : type ≠ other) (real : other ≠ .tokEof) :
    Goes source intern start (match_ source other) i false i :=
  match_skips has.inside (fun same => differs (has.unique same)) real

theorem check_goes {type other : TokenType} (has : source.Has i type)
    (real : other ≠ .tokEof) :
    Goes source intern start (check source other) i (type == other) i := by
  intro before same
  rcases has with ⟨token, at_, rfl⟩
  have here : source.tokenArray[(calmAt start before i).pos]? = some token :=
    at_
  rw [check_eq here real, same]
  rfl

theorem false_runs (zero : start.pos = 0) (has : source.Has i .tokFalse)
    (inside : i + 1 < source.tokenArray.length) :
    Runs source intern start .primary i (makeBooleanLiteral i false)
      (i + 1) := by
  refine .of_step (Nat.le_succ i) inside fun fuel enough => ?_
  refine .bind zero (Nat.le_refl _)
    (match_goes zero has (by decide) (by decide)) ?_
  refine .bind zero (Nat.le_refl _) prevPos_goes ?_
  exact .pure _

theorem true_runs (zero : start.pos = 0) (has : source.Has i .tokTrue)
    (inside : i + 1 < source.tokenArray.length) :
    Runs source intern start .primary i (makeBooleanLiteral i true)
      (i + 1) := by
  refine .of_step (Nat.le_succ i) inside fun fuel enough => ?_
  refine .bind zero (Nat.le_succ i)
    (match_other has (by decide) (by decide)) ?_
  refine .bind zero (Nat.le_refl _)
    (match_goes zero has (by decide) (by decide)) ?_
  refine .bind zero (Nat.le_refl _) prevPos_goes ?_
  exact .pure _

theorem parseInteger_goes {value : UInt64} (zero : start.pos = 0)
    (accepted : Accepted source i value) :
    Goes source intern start (parseInteger source) (i + 1)
      (makeIntegerLiteral i value) (i + 1) := by
  rcases accepted with ⟨token, text, at_, isText, read⟩
  have struct : Goes source intern start (prevTokenStruct source) (i + 1) token
      (i + 1) := by
    intro before same
    have here : source.tokenArray[(calmAt start before i).pos]? = some token :=
      at_
    have run := prevTokenStruct_eq here
    rw [same]
    exact run
  have lifted : Goes source intern start
      (liftM (tokenText source token) : ParseM ByteString) (i + 1) text
      (i + 1) := by
    intro before same
    rw [isText, lift_eq, same]
    rfl
  refine .bind zero (Nat.le_refl _) struct ?_
  refine .bind zero (Nat.le_refl _) lifted ?_
  rw [read]
  refine .bind zero (Nat.le_refl _) prevPos_goes ?_
  exact .pure _

theorem integer_runs {value : UInt64} (zero : start.pos = 0)
    (has : source.Has i .tokIntLiteral) (accepted : Accepted source i value)
    (inside : i + 1 < source.tokenArray.length) :
    Runs source intern start .primary i (makeIntegerLiteral i value)
      (i + 1) := by
  refine .of_step (Nat.le_succ i) inside fun fuel enough => ?_
  refine .bind zero (Nat.le_succ i)
    (match_other has (by decide) (by decide)) ?_
  refine .bind zero (Nat.le_succ i)
    (match_other has (by decide) (by decide)) ?_
  refine .bind zero (Nat.le_refl _)
    (match_goes zero has (by decide) (by decide)) ?_
  exact parseInteger_goes zero accepted

theorem identifier_runs (zero : start.pos = 0) (has : source.Has i .tokId)
    (inside : i + 1 < source.tokenArray.length) :
    Runs source intern start .primary i
      (makeIdentifier i (symbolAt source intern start i)) (i + 1) := by
  refine .of_step (Nat.le_succ i) inside fun fuel enough => ?_
  refine .bind zero (Nat.le_succ i)
    (match_other has (by decide) (by decide)) ?_
  refine .bind zero (Nat.le_succ i)
    (match_other has (by decide) (by decide)) ?_
  refine .bind zero (Nat.le_succ i)
    (match_other has (by decide) (by decide)) ?_
  refine .bind zero (Nat.le_succ i) (check_goes has (by decide)) ?_
  refine .bind zero (Nat.le_refl _) (parseSymbol_goes zero has) ?_
  refine .bind zero (Nat.le_refl _) prevPos_goes ?_
  exact .pure _

/-- A primary that starts with a parenthesis. -/
theorem opened_runs (zero : start.pos = 0) (has : source.Has i .tokLParen)
    (forward : i + 1 ≤ j) (inside : j < source.tokenArray.length)
    (goes : ∀ fuel,
      13 * (source.tokenArray.length - i) + Production.primary.rank ≤ fuel →
      Goes source intern start
        (parseParenthesis source (parse source intern fuel)) (i + 1) expr j) :
    Runs source intern start .primary i expr j := by
  refine .of_step (by omega) inside fun fuel enough => ?_
  refine .bind zero (by omega) (match_other has (by decide) (by decide)) ?_
  refine .bind zero (by omega) (match_other has (by decide) (by decide)) ?_
  refine .bind zero (by omega) (match_other has (by decide) (by decide)) ?_
  refine .bind zero (by omega) (check_goes has (by decide)) ?_
  refine .bind zero (by omega)
    (match_goes zero has (by decide) (by decide)) ?_
  exact goes fuel enough

theorem parenthesis_runs (zero : start.pos = 0) (has : source.Has i .tokLParen)
    (inner : Runs source intern start .expr (i + 1) expr j)
    (closed : source.Has j .tokRParen)
    (inside : j + 1 < source.tokenArray.length) :
    Runs source intern start .primary i expr (j + 1) := by
  have forward := inner.forward
  refine opened_runs zero has (by omega) inside fun fuel enough => ?_
  refine .bind zero (Nat.le_succ j)
    (inner.later (Nat.lt_succ_self i) enough) ?_
  refine .bind zero (Nat.le_succ j)
    (match_other closed (by decide) (by decide)) ?_
  refine .bind zero (Nat.le_succ j) (.pure expr) ?_
  refine .bind zero (Nat.le_refl _)
    (expect_goes zero closed (by decide) (by decide) _) ?_
  exact .pure _

theorem parenthesized_runs (zero : start.pos = 0) {first : Expression}
    (has : source.Has i .tokLParen)
    (head : Runs source intern start .expr (i + 1) first j)
    (comma : source.Has j .tokComma)
    (more : Runs source intern start (.tupleNext first) (j + 1) expr k)
    (closed : source.Has k .tokRParen)
    (inside : k + 1 < source.tokenArray.length) :
    Runs source intern start .primary i expr (k + 1) := by
  have headForward := head.forward
  have moreForward := more.forward
  refine opened_runs zero has (by omega) inside fun fuel enough => ?_
  refine .bind zero (by omega) (head.later (Nat.lt_succ_self i) enough) ?_
  refine .bind zero (by omega)
    (match_goes zero comma (by decide) (by decide)) ?_
  refine .bind zero (by omega) (more.later (by omega) enough) ?_
  refine .bind zero (Nat.le_refl _)
    (expect_goes zero closed (by decide) (by decide) _) ?_
  exact .pure _

end

/-! ## Every phrase -/

section

variable {source : MillieTokens} {intern : Intern} {start : ParseContext}
  {level : Level} {i j : Nat} {expr : Expression}

/-- What it means for the parser to pass a phrase. -/
def Passed (source : MillieTokens) (intern : Intern) (start : ParseContext)
    (level : Level) (i : Nat) (expr : Expression) (j : Nat) : Prop :=
  match level with
  | .components => Level.components.Stops source j →
      Runs source intern start .tuple i expr j
  | .tuple => Level.components.Stops source j →
      ∃ first k, source.Has k .tokComma ∧
        Runs source intern start .expr i first k ∧
        Runs source intern start (.tupleNext first) (k + 1) expr j
  | .expr => Level.expr.Stops source j → Runs source intern start .expr i expr j
  | .comparison => Level.term.Stops source j → ∀ result k,
      Runs source intern start (.comparisonRest expr) j result k →
      Runs source intern start .comparison i result k
  | .term => Level.factor.Stops source j → ∀ result k,
      Runs source intern start (.termRest expr) j result k →
      Runs source intern start .term i result k
  | .factor => Level.unary.Stops source j → ∀ result k,
      Runs source intern start (.factorRest expr) j result k →
      Runs source intern start .factor i result k
  | .unary => Level.application.Stops source j →
      Runs source intern start .unary i expr j
  | .application => ∀ result k,
      Runs source intern start (.applicationRest expr) j result k →
      Runs source intern start .application i result k
  | .primary => Runs source intern start .primary i expr j

theorem Level.Stops.of_has {type : TokenType} (has : source.Has j type)
    (none : level.continues type = false) : level.Stops source j := by
  intro other same
  rw [← has.unique same]
  exact none

/-- What stops a phrase stops the phrases it consists of. -/
theorem Level.Stops.of_tighter (stops : level.Stops source j) :
    level.tighter.Stops source j := by
  intro type has
  have none := stops type has
  cases level with
  | primary | unary | expr => exact none
  | application => rfl
  | _ =>
      simp only [Level.continues, Bool.or_eq_false_iff] at none
      simp only [Level.tighter, Level.continues, Bool.or_eq_false_iff]
      simp only [none, and_self]

/-- Every phrase is passed. -/
theorem Derives.passed (zero : start.pos = 0) (ends : source.EndsInEof)
    (derives : Derives source (symbolAt source intern start) (Accepted source)
      level i expr j) :
    Passed source intern start level i expr j := by
  induction derives with
  | @last i j first derives ih =>
      intro stops
      refine tuple_ends zero (ih stops.of_tighter) fun comma => ?_
      exact absurd (stops _ comma) (by decide)
  | more derives ih =>
      intro stops
      rcases ih stops with ⟨first, k, comma, head, more⟩
      exact tuple_runs zero head comma more
  | @tuple i j k first rest head comma tail ihHead ihTail =>
      intro stops
      exact ⟨first, j, comma, ihHead (.of_has comma rfl),
        tupleNext_runs zero (ihTail stops) tail.lengthBefore⟩
  | let_ letToken id equals bound in_ scope ihBound ihScope =>
      intro stops
      exact expression_of_let (let_runs zero letToken id equals
        (ihBound (.of_has in_ rfl)) in_ (ihScope stops))
  | letrec letToken rec_ id equals bound in_ scope ihBound ihScope =>
      intro stops
      exact expression_of_let (letrec_runs zero letToken rec_ id equals
        (ihBound (.of_has in_ rfl)) in_ (ihScope stops))
  | if_ ifToken condition then_ left else_ right ihTest ihThen ihElse =>
      intro stops
      have runs := conditional_runs zero ifToken (ihTest (.of_has then_ rfl))
        then_ (ihThen (.of_has else_ rfl)) else_ (ihElse stops)
      exact expression_of_let (let_of_if zero runs ifToken.inside
        fun same => nomatch ifToken.unique same)
  | fn fnToken id arrow scope ih =>
      intro stops
      have runs := lambda_runs zero fnToken id arrow (ih stops)
      have conditional := if_of_fn zero runs fnToken.inside
        fun same => nomatch fnToken.unique same
      exact expression_of_let (let_of_if zero conditional fnToken.inside
        fun same => nomatch fnToken.unique same)
  | chain level among derives ih =>
      have inside := derives.inside ends
      cases level with
      | expr =>
          intro stops
          have runs := ih stops.of_tighter.of_tighter _ _
            ((comparison_loop zero).leave inside zero stops.of_tighter)
          rcases derives.starts (by decide) with ⟨type, has, starts⟩
          refine expression_of_comparison zero runs has fun keyword => ?_
          rcases starts with primary | ⟨-, sign⟩
          · cases type with
            | tokLet | tokIf | tokFn => cases primary
            | _ => simp at keyword
          · cases type with
            | tokLet | tokIf | tokFn => simp at sign
            | _ => simp at keyword
      | comparison =>
          intro stops result k more
          exact (comparison_loop zero).enter zero (ih stops.of_tighter _ _
            ((term_loop zero).leave inside zero stops)) more
      | term =>
          intro stops result k more
          exact (term_loop zero).enter zero (ih stops.of_tighter _ _
            ((factor_loop zero).leave inside zero stops)) more
      | factor =>
          intro stops result k more
          exact (factor_loop zero).enter zero (ih stops.of_tighter) more
      | unary =>
          intro stops
          have runs := ih _ _ (application_leave zero inside stops)
          rcases derives.starts (by decide) with ⟨type, has, starts⟩
          refine unary_of_application zero runs has fun sign => ?_
          rcases starts with primary | ⟨loose, -⟩
          · cases type with
            | tokPlus | tokMinus => cases primary
            | _ => simp at sign
          · exact loose (by decide)
      | application =>
          intro result k more
          exact application_enter zero ih more
      | _ => simp at among
  | @binary level i j k operator left right head between among tail ihHead
      ihTail =>
      have inside := tail.inside ends
      cases level with
      | comparison =>
          intro stops result m more
          have operand := ihTail stops.of_tighter _ _
            ((term_loop zero).leave inside zero stops)
          refine ihHead (.of_has between ?_) _ _
            ((comparison_loop zero).again zero between among operand more)
          rw [List.mem_singleton.mp among]
          rfl
      | term =>
          intro stops result m more
          have operand := ihTail stops.of_tighter _ _
            ((factor_loop zero).leave inside zero stops)
          refine ihHead (.of_has between ?_) _ _
            ((term_loop zero).again zero between among operand more)
          cases operator with
          | tokPlus | tokMinus => rfl
          | _ => simp [Level.operators] at among
      | factor =>
          intro stops result m more
          have operand := ihTail stops.of_tighter
          refine ihHead (.of_has between ?_) _ _
            ((factor_loop zero).again zero between among operand more)
          cases operator with
          | tokStar | tokSlash => rfl
          | _ => simp [Level.operators] at among
      | _ => cases among
  | unary sign among derives ih =>
      intro stops
      exact sign_runs zero sign among (ih stops)
  | apply head tail ihHead ihTail =>
      intro result k more
      rcases tail.starts (by decide) with ⟨type, has, primary | ⟨loose, -⟩⟩
      · exact ihHead _ _
          (application_again zero has primary tail.nonempty ihTail more)
      · exact absurd (by decide) loose
  | false_ token => exact false_runs zero token (ends.next token (by decide))
  | true_ token => exact true_runs zero token (ends.next token (by decide))
  | integer token accepted =>
      exact integer_runs zero token accepted (ends.next token (by decide))
  | identifier token =>
      exact identifier_runs zero token (ends.next token (by decide))
  | parenthesis opened derives closed ih =>
      exact parenthesis_runs zero opened (ih (.of_has closed rfl)) closed
        (ends.next closed (by decide))
  | parenthesized opened derives closed ih =>
      rcases ih (.of_has closed rfl) with ⟨first, k, comma, head, more⟩
      exact parenthesized_runs zero opened head comma more closed
        (ends.next closed (by decide))

end

end Millie.Syntax
