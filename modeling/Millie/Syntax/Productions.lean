import Millie.Syntax.Parsing

/-!
# Every production does it

One lemma for each function, from the same statement about the productions it
calls: a call costs less than its caller because it is further down the chain
of productions, or because a token has been passed.
-/

namespace Millie.Syntax

open Weakest
open Millie.Symbols

/-! ## The cost of a call -/

/-- The calls a production can nest before it passes a token. -/
def Production.rank : Production → Nat
  | .tupleNext _ => 12
  | .tuple => 11
  | .expr => 10
  | .let_ => 9
  | .if_ => 8
  | .fn => 7
  | .comparison => 6
  | .term => 5
  | .factor => 4
  | .unary => 3
  | .application => 2
  | .applicationRest _ => 1
  | _ => 0

/-- A bound for the depth of a production from a context. -/
def cost (source : MillieTokens) (production : Production)
    (context : ParseContext) : Nat :=
  13 * (source.tokenArray.length - context.pos) + production.rank

theorem Production.rank_le (production : Production) : production.rank ≤ 12 := by
  cases production with
  | _ => exact Nat.le_of_ble_eq_true rfl

section

variable {source : MillieTokens} {intern : Intern} {start : ParseContext}
  {a b c : ParseContext} {P : Prop} {budget total : Nat}
  {production : Production}
  {recurse : Production → ParseM Expression}

theorem Excuse.mono {enough other : Prop} {stop : ParseStop}
    (excuse : Excuse source intern start enough stop)
    (weaker : other → enough) : Excuse source intern start other stop := by
  cases excuse with
  | fuel little => exact .fuel fun enough => little (weaker enough)
  | text token member outside => exact .text token member outside
  | symbols i stop fails => exact .symbols i stop fails

/-- The productions of less than a budget do what they should. -/
def Recurses (source : MillieTokens) (intern : Intern) (start : ParseContext)
    (budget : Nat) (recurse : Production → ParseM Expression) : Prop :=
  ∀ production context, Standing source intern start context →
    wpExcept (Excuse source intern start (cost source production context < budget))
      (recurse production) (Parsed source intern start production context)
      context

/-- A call from a context that is not before the caller's. -/
theorem cost_lower {caller : Production} (inside : a.pos < source.tokenArray.length)
    (forward : a.pos ≤ b.pos) (rank : production.rank < caller.rank) :
    cost source production b < cost source caller a := by
  unfold cost
  omega

/-- A call after a token has been passed. -/
theorem cost_later {caller : Production} (inside : a.pos < source.tokenArray.length)
    (later : a.pos < b.pos) :
    cost source production b < cost source caller a := by
  have rank := production.rank_le
  unfold cost
  omega

theorem recurse_rule {post : Expression → ParseContext → Prop}
    (recurses : Recurses source intern start budget recurse)
    (standing : Standing source intern start b)
    (cheaper : cost source production b < total)
    (next : ∀ expr c, Parsed source intern start production b expr c →
      post expr c) :
    wpExcept (Excuse source intern start (total ≤ budget))
      (recurse production) post b :=
  wpExcept_mono (recurses production b standing) next
    fun _ excuse => excuse.mono fun enough => Nat.lt_of_lt_of_le cheaper enough

/-! ## Binary operators -/

/-- The productions of a level with binary operators. -/
structure BinaryLevel (source : MillieTokens) (level : Level)
    (whole operand : Production) (rest : Expression → Production) : Prop where
  buildsWhole : ∀ before after pos expr last,
    whole.Builds source before after pos expr last = after level pos expr last
  buildsOperand : ∀ before after pos expr last,
    operand.Builds source before after pos expr last =
      after level.tighter pos expr last
  buildsRest : ∀ before after first pos expr last,
    (rest first).Builds source before after pos expr last =
      ∀ i, before level i first pos → after level i expr last
  operandRank : operand.rank < whole.rank
  restRank : ∀ first, (rest first).rank < whole.rank
  chained : level ∈ [.expr, .comparison, .term, .factor, .unary, .application]
  continues : ∀ type, level.continues type =
    (level.tighter.continues type || level.operators.contains type)
  wholeOther : whole ≠ .primary
  restOther : ∀ first, rest first ≠ .primary

theorem factor_level (source : MillieTokens) :
    BinaryLevel source .factor .factor .unary .factorRest where
  buildsWhole _ _ _ _ _ := rfl
  buildsOperand _ _ _ _ _ := rfl
  buildsRest _ _ _ _ _ _ := rfl
  operandRank := by decide
  restRank _ := Nat.succ_pos _
  chained := by decide
  continues _ := rfl
  wholeOther := nofun
  restOther _ := nofun

theorem term_level (source : MillieTokens) :
    BinaryLevel source .term .term .factor .termRest where
  buildsWhole _ _ _ _ _ := rfl
  buildsOperand _ _ _ _ _ := rfl
  buildsRest _ _ _ _ _ _ := rfl
  operandRank := by decide
  restRank _ := Nat.succ_pos _
  chained := by decide
  continues _ := rfl
  wholeOther := nofun
  restOther _ := nofun

theorem comparison_level (source : MillieTokens) :
    BinaryLevel source .comparison .comparison .term .comparisonRest where
  buildsWhole _ _ _ _ _ := rfl
  buildsOperand _ _ _ _ _ := rfl
  buildsRest _ _ _ _ _ _ := rfl
  operandRank := by decide
  restRank _ := Nat.succ_pos _
  chained := by decide
  continues _ := rfl
  wholeOther := nofun
  restOther _ := nofun

/-- A step that passes one of some tokens or does nothing. -/
def Passes (source : MillieTokens) (intern : Intern) (start : ParseContext)
    (matches_ : ParseM Bool) (types : List TokenType) : Prop :=
  ∀ (enough : Prop) (post : Bool → ParseContext → Prop) (a : ParseContext),
    Standing source intern start a →
    (∀ b, ∀ type ∈ types, source.Has a.pos type → b.pos = a.pos + 1 →
      Advances source intern start True a b → post true b) →
    ((∀ type ∈ types, ¬source.Has a.pos type) → post false a) →
    wpExcept (Excuse source intern start enough) matches_ post a

theorem parseBinary_spec {level : Level} {whole operand : Production}
    {rest : Expression → Production}
    (shape : BinaryLevel source level whole operand rest)
    (recurses : Recurses source intern start budget recurse)
    (standing : Standing source intern start a) :
    wpExcept (Excuse source intern start (cost source whole a ≤ budget))
      (parseBinary recurse operand rest)
      (Parsed source intern start whole a) a := by
  rw [parseBinary, wpExcept_bind]
  refine recurse_rule recurses standing
    (cost_lower standing.inside (Nat.le_refl _) shape.operandRank)
    fun expr b head => ?_
  refine recurse_rule recurses head.advances.standing
    (cost_lower standing.inside head.advances.forward (shape.restRank _))
    fun result c tail => ?_
  have derives := head.advances.trans tail.advances
  have spans := head.spans
  have stops := head.stops
  have restSpans := tail.spans
  have restStops := tail.stops
  simp only [shape.buildsOperand, shape.buildsRest] at derives spans stops
  simp only [shape.buildsRest] at restSpans restStops
  constructor
  · rw [shape.buildsWhole]
    exact derives.imp fun ⟨first, loop⟩ => loop _ (.chain level shape.chained first)
  · rw [shape.buildsWhole]
    exact restSpans _ spans
  · rw [shape.buildsWhole]
    exact restStops a.pos stops
  · intro primary
    exact absurd primary shape.wholeOther

theorem parseBinaryRest_spec {level : Level} {whole operand : Production}
    {rest : Expression → Production} {matches_ : ParseM Bool}
    (shape : BinaryLevel source level whole operand rest)
    (passes : Passes source intern start matches_ level.operators)
    (recurses : Recurses source intern start budget recurse)
    (standing : Standing source intern start a) (expr : Expression) :
    wpExcept (Excuse source intern start (cost source (rest expr) a ≤ budget))
      (parseBinaryRest source recurse matches_ operand rest expr)
      (Parsed source intern start (rest expr) a) a := by
  rw [parseBinaryRest, wpExcept_bind]
  refine passes _ _ _ standing ?_ ?_
  · intro b operator among has pos passed
    rw [if_pos rfl, wpExcept_bind]
    refine prevToken_rule pos has ?_
    rw [wpExcept_bind]
    refine recurse_rule recurses passed.standing
      (cost_later standing.inside (by omega)) fun right c tail => ?_
    have forward := tail.advances.forward
    refine recurse_rule recurses tail.advances.standing
      (cost_later standing.inside (by omega)) fun result d loop => ?_
    have derives := (passed.trans tail.advances).trans loop.advances
    have spans := tail.spans
    have stops := tail.stops
    have restSpans := loop.spans
    have restStops := loop.stops
    simp only [shape.buildsOperand, shape.buildsRest] at derives spans stops
    simp only [shape.buildsRest] at restSpans restStops
    constructor
    · rw [shape.buildsRest]
      refine derives.imp fun ⟨⟨_, second⟩, more⟩ i first => more i ?_
      exact .binary first has among (pos ▸ second)
    · rw [shape.buildsRest]
      intro i first
      exact restSpans i
        (.pair first spans (by omega) rfl first.first (Nat.le_refl _) rfl)
    · rw [shape.buildsRest]
      exact fun i _ => restStops i stops
    · intro primary
      exact absurd primary (shape.restOther _)
  · intro none
    rw [if_neg Bool.false_ne_true, wpExcept_pure]
    constructor
    · rw [shape.buildsRest]
      exact (Advances.refl standing).imp fun _ i derives => derives
    · rw [shape.buildsRest]
      exact fun i spans => spans
    · rw [shape.buildsRest]
      intro i stops type has
      rw [shape.continues, stops type has, Bool.false_or]
      by_contra among
      rw [Bool.not_eq_false, List.contains_iff_mem] at among
      exact none type among has
    · intro primary
      exact absurd primary (shape.restOther _)

/-! ## Application and signs -/

theorem parseApplication_spec
    (recurses : Recurses source intern start budget recurse)
    (standing : Standing source intern start a) :
    wpExcept (Excuse source intern start (cost source .application a ≤ budget))
      (parseApplication recurse)
      (Parsed source intern start .application a) a := by
  rw [parseApplication, wpExcept_bind]
  refine recurse_rule recurses standing
    (cost_lower standing.inside (Nat.le_refl _) (by decide)) fun expr b head => ?_
  refine recurse_rule recurses head.advances.standing
    (cost_lower standing.inside head.advances.forward (Nat.lt_succ_self _))
    fun result c tail => ?_
  constructor
  · refine (head.advances.trans tail.advances).imp fun ⟨first, loop⟩ => ?_
    exact loop a.pos (.chain .application (by decide) first)
  · exact tail.spans a.pos head.spans
  · exact tail.stops a.pos fun _ _ => rfl
  · exact nofun

theorem parseApplicationRest_spec
    (recurses : Recurses source intern start budget recurse)
    (standing : Standing source intern start a) (expr : Expression) :
    wpExcept (Excuse source intern start
        (cost source (.applicationRest expr) a ≤ budget))
      (parseApplicationRest source recurse expr)
      (Parsed source intern start (.applicationRest expr) a) a := by
  rcases standing.token with ⟨token, member, at_⟩
  rw [parseApplicationRest, wpExcept_bind, wpExcept_of_eq (peekToken_eq at_)]
  cases primary : token.type.isPrimary with
  | true =>
      rw [if_pos rfl, wpExcept_bind]
      refine recurse_rule recurses standing
        (cost_lower standing.inside (Nat.le_refl _) Nat.zero_lt_one)
        fun arg b tail => ?_
      have later := tail.consumes rfl _ ⟨token, at_, rfl⟩ primary
      refine recurse_rule recurses tail.advances.standing
        (cost_later standing.inside later) fun result c loop => ?_
      constructor
      · refine (tail.advances.trans loop.advances).imp ?_
        intro ⟨second, more⟩ i first
        exact more i (.apply first second)
      · intro i first
        exact loop.spans i
          (.pair first tail.spans (Nat.le_refl _) rfl first.first
            (Nat.le_refl _) rfl)
      · intro i _
        exact loop.stops i fun _ _ => rfl
      · exact nofun
  | false =>
      rw [if_neg Bool.false_ne_true, wpExcept_pure]
      constructor
      · exact (Advances.refl standing).imp fun _ i derives => derives
      · exact fun i spans => spans
      · intro i _ type has
        rw [← MillieTokens.Has.unique ⟨token, at_, rfl⟩ has]
        exact primary
      · exact nofun

theorem parseUnary_spec (ends : source.EndsInEof)
    (recurses : Recurses source intern start budget recurse)
    (standing : Standing source intern start a) :
    wpExcept (Excuse source intern start (cost source .unary a ≤ budget))
      (parseUnary source recurse)
      (Parsed source intern start .unary a) a := by
  rw [parseUnary, wpExcept_bind]
  refine matchV_rule ends standing (by decide) (by decide) ?_ ?_
  · intro b operator among has pos passed
    rw [if_pos rfl, wpExcept_bind]
    refine prevToken_rule pos has ?_
    rw [wpExcept_bind]
    refine prevPos_rule pos ?_
    rw [wpExcept_bind]
    refine recurse_rule recurses passed.standing
      (cost_later standing.inside (by omega)) fun right c arg => ?_
    rw [wpExcept_pure]
    constructor
    · refine (passed.trans arg.advances).imp fun ⟨_, derives⟩ => ?_
      exact .unary has among (pos ▸ derives)
    · have first := Spans.first arg.spans
      have low : a.pos ≤ right.range.startToken := by omega
      exact Spans.single arg.spans rfl (Nat.le_refl _) low rfl
    · exact arg.stops
    · exact nofun
  · intro _
    rw [if_neg Bool.false_ne_true]
    refine recurse_rule recurses standing
      (cost_lower standing.inside (Nat.le_refl _) (by decide))
      fun expr b inner => ?_
    constructor
    · exact inner.advances.imp fun derives => .chain .unary (by decide) derives
    · exact inner.spans
    · exact inner.stops
    · exact nofun

/-! ## Expressions that start with a keyword -/

/-- What is passed as a tighter phrase is passed as an expression. -/
theorem Parsed.expression {caller : Production} {expr : Expression}
    (inner : Parsed source intern start .comparison a expr b)
    (plain : caller ∈ [.fn, .if_, .let_, .expr]) :
    Parsed source intern start caller a expr b := by
  simp only [List.mem_cons, List.not_mem_nil, or_false] at plain
  rcases plain with rfl | rfl | rfl | rfl
  all_goals
    exact ⟨inner.advances.imp fun derives => .chain .expr (by decide) derives,
      inner.spans, inner.stops, nofun⟩

/-- The productions for expressions differ in what they can start with only. -/
theorem Parsed.other {caller callee : Production} {expr : Expression}
    (inner : Parsed source intern start callee a expr b)
    (from_ : callee ∈ [.fn, .if_, .let_, .expr])
    (plain : caller ∈ [.fn, .if_, .let_, .expr]) :
    Parsed source intern start caller a expr b := by
  simp only [List.mem_cons, List.not_mem_nil, or_false] at from_ plain
  rcases from_ with rfl | rfl | rfl | rfl
  all_goals rcases plain with rfl | rfl | rfl | rfl
  all_goals exact ⟨inner.advances, inner.spans, inner.stops, nofun⟩

theorem parseFn_spec (ends : source.EndsInEof)
    (recurses : Recurses source intern start budget recurse)
    (standing : Standing source intern start a) :
    wpExcept (Excuse source intern start (cost source .fn a ≤ budget))
      (parseFn source intern recurse)
      (Parsed source intern start .fn a) a := by
  rw [parseFn, wpExcept_bind]
  refine match_rule ends standing (by decide) (by decide) ?_ ?_
  · intro b has pos passed
    rw [if_pos rfl, wpExcept_bind]
    refine prevPos_rule pos ?_
    rw [wpExcept_bind]
    refine parseSymbol_rule ends passed.standing fun variable_ c _ named => ?_
    rw [wpExcept_bind]
    refine expect_rule ends named.standing (by decide) (by decide) _ fun d arrow => ?_
    rw [wpExcept_bind]
    have named' := named.forward
    have arrow' := arrow.forward
    refine recurse_rule recurses arrow.standing
      (cost_later standing.inside (by omega)) fun body e inner => ?_
    rw [wpExcept_pure]
    constructor
    · refine (((passed.trans named).trans arrow).trans inner.advances).imp ?_
      rintro ⟨⟨⟨-, isId, next, rfl⟩, isArrow, after⟩, derives⟩
      rw [next] at isArrow after
      rw [after, pos] at derives
      rw [pos] at isId isArrow ⊢
      exact .fn has isId isArrow derives
    · have first := Spans.first inner.spans
      have low : a.pos ≤ body.range.startToken := by omega
      exact Spans.single inner.spans rfl (Nat.le_refl _) low rfl
    · exact inner.stops
    · exact nofun
  · intro _
    rw [if_neg Bool.false_ne_true]
    refine recurse_rule recurses standing
      (cost_lower standing.inside (Nat.le_refl _) (by decide))
      fun expr b inner => ?_
    exact inner.expression (by decide)

theorem parseIf_spec (ends : source.EndsInEof)
    (recurses : Recurses source intern start budget recurse)
    (standing : Standing source intern start a) :
    wpExcept (Excuse source intern start (cost source .if_ a ≤ budget))
      (parseIf source recurse) (Parsed source intern start .if_ a) a := by
  rw [parseIf, wpExcept_bind]
  refine match_rule ends standing (by decide) (by decide) ?_ ?_
  · intro b has pos passed
    rw [if_pos rfl, wpExcept_bind]
    refine prevPos_rule pos ?_
    rw [wpExcept_bind]
    refine recurse_rule recurses passed.standing
      (cost_later standing.inside (by omega)) fun test c condition => ?_
    rw [wpExcept_bind]
    refine expect_rule ends condition.advances.standing (by decide) (by decide)
      _ fun d then_ => ?_
    rw [wpExcept_bind]
    have conditionForward := condition.advances.forward
    have thenForward := then_.forward
    refine recurse_rule recurses then_.standing
      (cost_later standing.inside (by omega)) fun thenArm e left => ?_
    rw [wpExcept_bind]
    refine expect_rule ends left.advances.standing (by decide) (by decide) _
      fun f else_ => ?_
    rw [wpExcept_bind]
    have leftForward := left.advances.forward
    have elseForward := else_.forward
    refine recurse_rule recurses else_.standing
      (cost_later standing.inside (by omega)) fun elseArm g right => ?_
    rw [wpExcept_pure]
    constructor
    · have whole := ((passed.trans condition.advances).trans then_).trans
        left.advances
      refine ((whole.trans else_).trans right.advances).imp ?_
      rintro ⟨⟨⟨⟨⟨-, test⟩, isThen, thenPos⟩, thenArm⟩, isElse, elsePos⟩, elseArm⟩
      rw [thenPos] at thenArm
      rw [elsePos] at elseArm
      exact .if_ has (pos ▸ test) isThen thenArm isElse elseArm
    · have first := Spans.first condition.spans
      have low : a.pos ≤ test.range.startToken := by omega
      exact Spans.triple condition.spans left.spans right.spans thenForward
        elseForward rfl (Nat.le_refl _) low rfl
    · exact right.stops
    · exact nofun
  · intro _
    rw [if_neg Bool.false_ne_true]
    refine recurse_rule recurses standing
      (cost_lower standing.inside (Nat.le_refl _) (by decide))
      fun expr b inner => ?_
    exact inner.other (by decide) (by decide)

/-- The part of `_ParseLet` after `let`, or `let rec`. -/
theorem parseLet_rest {make : Symbol → Expression → Expression → Expression}
    (ends : source.EndsInEof)
    (recurses : Recurses source intern start budget recurse)
    (standing : Standing source intern start a)
    (later : a.pos < b.pos) (passed : Advances source intern start P a b)
    (range : ∀ symbol value body, (make symbol value body).range =
      ⟨a.pos, body.range.endToken⟩)
    (children : ∀ symbol value body,
      (make symbol value body).children = [value, body])
    (derives : ∀ value body j k, P → source.Has b.pos .tokId →
      source.Has (b.pos + 1) .tokEquals →
      Derives source (symbolAt source intern start) (Accepted source) .expr
        (b.pos + 2) value j →
      source.Has j .tokIn →
      Derives source (symbolAt source intern start) (Accepted source) .expr
        (j + 1) body k →
      Derives source (symbolAt source intern start) (Accepted source) .expr
        a.pos (make (symbolAt source intern start b.pos) value body) k) :
    wpExcept (Excuse source intern start (cost source .let_ a ≤ budget))
      (do
        let variable_ ← parseSymbol source intern
        expect source .tokEquals
          "Expected an '=' after the variable in the let."
        let value ← recurse .expr
        expect source .tokIn
          "Expected an 'in' after the variable value in the let."
        let body ← recurse .expr
        return make variable_ value body)
      (Parsed source intern start .let_ a) b := by
  rw [wpExcept_bind]
  refine parseSymbol_rule ends passed.standing fun variable_ c _ named => ?_
  rw [wpExcept_bind]
  refine expect_rule ends named.standing (by decide) (by decide) _
    fun d equals => ?_
  rw [wpExcept_bind]
  have namedForward := named.forward
  have equalsForward := equals.forward
  refine recurse_rule recurses equals.standing
    (cost_later standing.inside (by omega)) fun value e bound => ?_
  rw [wpExcept_bind]
  refine expect_rule ends bound.advances.standing (by decide) (by decide) _
    fun f in_ => ?_
  rw [wpExcept_bind]
  have boundForward := bound.advances.forward
  have inForward := in_.forward
  refine recurse_rule recurses in_.standing
    (cost_later standing.inside (by omega)) fun body g scope => ?_
  rw [wpExcept_pure]
  constructor
  · have whole := ((passed.trans named).trans equals).trans bound.advances
    refine ((whole.trans in_).trans scope.advances).imp ?_
    rintro ⟨⟨⟨⟨⟨before, isId, idPos, rfl⟩, isEquals, equalsPos⟩, value⟩, isIn,
      inPos⟩, body⟩
    rw [idPos] at isEquals equalsPos
    rw [equalsPos] at value
    rw [inPos] at body
    exact derives _ _ _ _ before isId isEquals value isIn body
  · have first := Spans.first bound.spans
    refine Spans.pair bound.spans scope.spans inForward (children _ _ _) ?_ ?_ ?_
    · exact Nat.le_of_eq (congrArg TokenRange.startToken (range _ _ _)).symm
    · rw [range]
      have low : a.pos ≤ value.range.startToken := by omega
      exact low
    · rw [range]
  · exact scope.stops
  · exact nofun

theorem parseLet_spec (ends : source.EndsInEof)
    (recurses : Recurses source intern start budget recurse)
    (standing : Standing source intern start a) :
    wpExcept (Excuse source intern start (cost source .let_ a ≤ budget))
      (parseLet source intern recurse) (Parsed source intern start .let_ a)
      a := by
  rw [parseLet, wpExcept_bind]
  refine match_rule ends standing (by decide) (by decide) ?_ ?_
  · intro b has pos passed
    rw [if_pos rfl, wpExcept_bind]
    refine prevPos_rule pos ?_
    rw [wpExcept_bind]
    refine match_rule ends passed.standing (by decide) (by decide) ?_ ?_
    · intro c isRec recPos passedRec
      refine parseLet_rest ends recurses standing (by omega)
        (passed.trans passedRec) (fun _ _ _ => rfl) (fun _ _ _ => rfl) ?_
      intro value body j k _ isId isEquals bound isIn scope
      rw [recPos, pos] at isId isEquals bound ⊢
      exact .letrec has (pos ▸ isRec) isId isEquals bound isIn scope
    · intro _
      refine parseLet_rest ends recurses standing (by omega) passed
        (fun _ _ _ => rfl) (fun _ _ _ => rfl) ?_
      intro value body j k _ isId isEquals bound isIn scope
      rw [pos] at isId isEquals bound ⊢
      exact .let_ has isId isEquals bound isIn scope
  · intro _
    rw [if_neg Bool.false_ne_true]
    refine recurse_rule recurses standing
      (cost_lower standing.inside (Nat.le_refl _) (by decide))
      fun expr b inner => ?_
    exact inner.other (by decide) (by decide)

theorem parseExpr_spec
    (recurses : Recurses source intern start budget recurse)
    (standing : Standing source intern start a) :
    wpExcept (Excuse source intern start (cost source .expr a ≤ budget))
      (parseExpr recurse) (Parsed source intern start .expr a) a := by
  rw [parseExpr]
  refine recurse_rule recurses standing
    (cost_lower standing.inside (Nat.le_refl _) (by decide))
    fun expr b inner => ?_
  exact inner.other (by decide) (by decide)

/-! ## Tuples -/

/-- `_ParseTupleNext` counts the components. -/
theorem Derives.lengthBefore {symbolAt : Nat → Symbol}
    {literal : Nat → UInt64 → Prop} {i j : Nat} {rest : Expression}
    (derives : Derives source symbolAt literal .components i rest j) :
    lengthBefore rest = spineLength rest + 1 := by
  cases derives with
  | last => rfl
  | more derives =>
      cases derives with
      | tuple => rfl
      | chain level among => simp at among
      | binary head between among => cases among
  | chain level among => simp at among
  | binary head between among => cases among

theorem parseTupleNext_spec
    (recurses : Recurses source intern start budget recurse)
    (standing : Standing source intern start a) (first : Expression) :
    wpExcept (Excuse source intern start
        (cost source (.tupleNext first) a ≤ budget))
      (parseTupleNext recurse first)
      (Parsed source intern start (.tupleNext first) a) a := by
  rw [parseTupleNext, wpExcept_bind]
  refine recurse_rule recurses standing
    (cost_lower standing.inside (Nat.le_refl _) (Nat.lt_succ_self _))
    fun rest b tail => ?_
  rw [wpExcept_pure]
  constructor
  · refine tail.advances.imp fun derives i j pos comma head => ?_
    rw [Derives.lengthBefore derives]
    rw [← pos] at derives
    exact .tuple head comma derives
  · intro i j pos _ head
    exact Spans.pair head tail.spans (by omega) rfl head.first (Nat.le_refl _)
      rfl
  · intro i j _ _ _
    exact tail.stops
  · exact nofun

/-- Any token stops an expression if no comma follows it. -/
theorem Level.Stops.components {i : Nat}
    (stops : Level.expr.Stops source i) (none : ¬source.Has i .tokComma) :
    Level.components.Stops source i := by
  intro type has
  have other : (type == .tokComma) = false := by
    refine beq_false_of_ne fun comma => none ?_
    exact comma ▸ has
  have inner := stops type has
  simp only [Level.continues] at inner ⊢
  rw [inner, other]
  rfl

theorem parseTuple_spec (ends : source.EndsInEof)
    (recurses : Recurses source intern start budget recurse)
    (standing : Standing source intern start a) :
    wpExcept (Excuse source intern start (cost source .tuple a ≤ budget))
      (parseTuple source recurse) (Parsed source intern start .tuple a) a := by
  rw [parseTuple, wpExcept_bind]
  refine recurse_rule recurses standing
    (cost_lower standing.inside (Nat.le_refl _) (by decide))
    fun car b head => ?_
  rw [wpExcept_bind]
  have forward := head.advances.forward
  refine match_rule ends head.advances.standing (by decide) (by decide) ?_ ?_
  · intro c comma pos passed
    rw [if_pos rfl]
    refine recurse_rule recurses passed.standing
      (cost_later standing.inside (by omega)) fun result d tail => ?_
    constructor
    · refine ((head.advances.trans passed).trans tail.advances).imp ?_
      rintro ⟨⟨first, -⟩, more⟩
      exact .more (more a.pos b.pos pos.symm comma first)
    · exact tail.spans a.pos b.pos pos.symm comma head.spans
    · exact tail.stops a.pos b.pos pos.symm comma head.stops
    · exact nofun
  · intro none
    rw [if_neg Bool.false_ne_true, wpExcept_pure]
    have first := Spans.first head.spans
    constructor
    · exact head.advances.imp .last
    · exact Spans.single head.spans rfl first (Nat.le_refl _) rfl
    · exact Level.Stops.components head.stops none
    · exact nofun

/-! ## Primaries -/

/-- A primary of one token. -/
theorem Parsed.leaf {expr : Expression}
    (passed : Advances source intern start P a b) (pos : b.pos = a.pos + 1)
    (range : expr.range = ⟨a.pos, a.pos⟩) (children : expr.children = [])
    (derives : P → Derives source (symbolAt source intern start)
      (Accepted source) .primary a.pos expr (a.pos + 1)) :
    Parsed source intern start .primary a expr b := by
  constructor
  · refine passed.imp fun holds => ?_
    rw [pos]
    exact derives holds
  · refine Spans.leaf children ?_ ?_ ?_
    all_goals
      simp only [range]
      omega
  · exact fun _ _ => rfl
  · intro _ _ _ _
    omega

theorem parseInteger_spec {enough : Prop}
    (has : source.Has a.pos .tokIntLiteral) (pos : b.pos = a.pos + 1)
    (passed : Advances source intern start True a b) :
    wpExcept (Excuse source intern start enough) (parseInteger source)
      (Parsed source intern start .primary a) b := by
  rcases has with ⟨token, at_, isInteger⟩
  have same : b = ({ b with pos := a.pos } : ParseContext).advanced := by
    rw [ParseContext.advanced, ← pos]
  have struct : prevTokenStruct source b = .ok (token, b) := by
    rw [same]
    exact prevTokenStruct_eq at_
  have member := List.mem_of_getElem? at_
  rw [parseInteger, wpExcept_bind, wpExcept_of_eq struct, wpExcept_bind]
  by_cases inside : token.start + token.length ≤ source.buffer.length
  · have text : tokenText source token = .ok _ := if_pos inside
    rw [text, wpExcept_of_eq (lift_eq (.ok _))]
    cases read : readLiteral 0
        ((source.buffer.drop token.start).take token.length) with
    | mk literal overflow =>
        cases overflow with
        | true =>
            dsimp only
            rw [if_pos rfl, wpExcept_bind,
              wpExcept_of_eq (syntaxErrorToken_eq _), wpExcept_bind]
            have stays := ParseContext.report_pos token
              "Integer literal overflow" b
            have reported := passed.trans
              (.report passed.standing member "Integer literal overflow")
            refine prevPos_rule (stays.trans pos) ?_
            rw [wpExcept_pure]
            exact .leaf reported (stays.trans pos) rfl rfl (·.2.elim)
        | false =>
            dsimp only
            rw [if_neg Bool.false_ne_true, wpExcept_bind]
            refine prevPos_rule pos ?_
            rw [wpExcept_pure]
            exact .leaf passed pos rfl rfl fun _ =>
              .integer ⟨token, at_, isInteger⟩ ⟨token, _, at_, text, read⟩
  · have text : tokenText source token = .error .textOutside := if_neg inside
    rw [text, wpExcept, lift_eq]
    exact .text token member (Nat.lt_of_not_le inside)

theorem parseParenthesis_spec (ends : source.EndsInEof)
    (recurses : Recurses source intern start budget recurse)
    (standing : Standing source intern start a)
    (has : source.Has a.pos .tokLParen) (pos : b.pos = a.pos + 1)
    (passed : Advances source intern start True a b) :
    wpExcept (Excuse source intern start (cost source .primary a ≤ budget))
      (parseParenthesis source recurse)
      (Parsed source intern start .primary a) b := by
  rw [parseParenthesis, wpExcept_bind]
  refine recurse_rule recurses passed.standing
    (cost_later standing.inside (by omega)) fun expr c head => ?_
  rw [wpExcept_bind]
  have forward := head.advances.forward
  refine match_rule ends head.advances.standing (by decide) (by decide) ?_ ?_
  · intro d comma commaPos passedComma
    rw [if_pos rfl, wpExcept_bind]
    refine recurse_rule recurses passedComma.standing
      (cost_later standing.inside (by omega)) fun result e tail => ?_
    rw [wpExcept_bind]
    have tailForward := tail.advances.forward
    refine expect_rule ends tail.advances.standing (by decide) (by decide) _
      fun f closed => ?_
    rw [wpExcept_pure]
    have closedForward := closed.forward
    constructor
    · have inner := (passed.trans head.advances).trans passedComma
      refine ((inner.trans tail.advances).trans closed).imp ?_
      rintro ⟨⟨⟨⟨-, first⟩, -⟩, more⟩, isClosed, last⟩
      rw [last]
      exact .parenthesized has
        (pos ▸ more b.pos c.pos commaPos.symm comma first) isClosed
    · have spans := tail.spans b.pos c.pos commaPos.symm comma head.spans
      exact spans.mono (by omega) closedForward
    · exact fun _ _ => rfl
    · intro _ _ _ _
      omega
  · intro none
    rw [if_neg Bool.false_ne_true, wpExcept_bind, wpExcept_pure, wpExcept_bind]
    refine expect_rule ends head.advances.standing (by decide) (by decide) _
      fun f closed => ?_
    rw [wpExcept_pure]
    have closedForward := closed.forward
    constructor
    · refine ((passed.trans head.advances).trans closed).imp ?_
      rintro ⟨⟨-, first⟩, isClosed, last⟩
      rw [last]
      exact .parenthesis has (pos ▸ first) isClosed
    · exact Spans.mono head.spans (by omega) closedForward
    · exact fun _ _ => rfl
    · intro _ _ _ _
      omega

theorem parsePrimary_spec (ends : source.EndsInEof)
    (recurses : Recurses source intern start budget recurse)
    (standing : Standing source intern start a) :
    wpExcept (Excuse source intern start (cost source .primary a ≤ budget))
      (parsePrimary source intern recurse)
      (Parsed source intern start .primary a) a := by
  rw [parsePrimary, wpExcept_bind]
  refine match_rule ends standing (by decide) (by decide) ?_ fun notFalse => ?_
  · intro b has pos passed
    rw [if_pos rfl, wpExcept_bind]
    refine prevPos_rule pos ?_
    rw [wpExcept_pure]
    exact .leaf passed pos rfl rfl fun _ => .false_ has
  rw [if_neg Bool.false_ne_true, wpExcept_bind]
  refine match_rule ends standing (by decide) (by decide) ?_ fun notTrue => ?_
  · intro b has pos passed
    rw [if_pos rfl, wpExcept_bind]
    refine prevPos_rule pos ?_
    rw [wpExcept_pure]
    exact .leaf passed pos rfl rfl fun _ => .true_ has
  rw [if_neg Bool.false_ne_true, wpExcept_bind]
  refine match_rule ends standing (by decide) (by decide) ?_ fun notInteger => ?_
  · intro b has pos passed
    rw [if_pos rfl]
    exact parseInteger_spec has pos passed
  rcases standing.token with ⟨token, member, at_⟩
  rw [if_neg Bool.false_ne_true, wpExcept_bind,
    wpExcept_of_eq (check_eq at_ (by decide))]
  by_cases isId : token.type = .tokId
  · have has : source.Has a.pos .tokId := ⟨token, at_, isId⟩
    rw [if_pos (beq_iff_eq.mpr isId), wpExcept_bind]
    refine parseSymbol_rule ends standing fun symbol b pos named => ?_
    rw [wpExcept_bind]
    refine prevPos_rule (pos has) ?_
    rw [wpExcept_pure]
    refine .leaf named (pos has) rfl rfl ?_
    rintro ⟨-, -, rfl⟩
    exact .identifier has
  rw [if_neg (by simpa using isId), wpExcept_bind]
  refine match_rule ends standing (by decide) (by decide) ?_ fun notParen => ?_
  · intro b has pos passed
    rw [if_pos rfl]
    exact parseParenthesis_spec ends recurses standing has pos passed
  rw [if_neg Bool.false_ne_true, wpExcept_bind]
  refine syntaxError_rule standing _ fun b pos reported => ?_
  have gets : (get : ParseM ParseContext) b = .ok (b, b) := rfl
  rw [wpExcept_bind, wpExcept_of_eq gets, wpExcept_pure]
  constructor
  · exact reported.imp False.elim
  · exact Spans.leaf rfl (Nat.le_of_eq pos.symm) (Nat.le_refl _) (Nat.le_refl _)
  · exact fun _ _ => rfl
  · intro _ type has primary
    have same := MillieTokens.Has.unique ⟨token, at_, rfl⟩ has
    cases type with
    | tokId => exact absurd same isId
    | tokIntLiteral => exact absurd has notInteger
    | tokTrue => exact absurd has notTrue
    | tokFalse => exact absurd has notFalse
    | tokLParen => exact absurd has notParen
    | _ => cases primary

/-! ## All productions -/

/-- What `parseProduction` does, from the same about what it calls. -/
theorem parseProduction_spec (ends : source.EndsInEof)
    (recurses : Recurses source intern start budget recurse)
    (standing : Standing source intern start a) (production : Production) :
    wpExcept (Excuse source intern start (cost source production a ≤ budget))
      (parseProduction source intern recurse production)
      (Parsed source intern start production a) a := by
  have passes : ∀ types : List TokenType, .tokEof ∉ types → .tokId ∉ types →
      Passes source intern start (matchV source types) types :=
    fun types real plain _ _ _ standing => matchV_rule ends standing real plain
  have passesEquals : Passes source intern start (match_ source .tokEquals)
      [.tokEquals] := by
    intro enough post a standing yes no
    refine match_rule ends standing (by decide) (by decide) ?_ fun none => ?_
    · exact fun b has => yes b _ (List.mem_singleton.mpr rfl) has
    · refine no fun type member => ?_
      rw [List.mem_singleton.mp member]
      exact none
  cases production with
  | tupleNext first => exact parseTupleNext_spec recurses standing first
  | tuple => exact parseTuple_spec ends recurses standing
  | primary => exact parsePrimary_spec ends recurses standing
  | application => exact parseApplication_spec recurses standing
  | applicationRest expr =>
      exact parseApplicationRest_spec recurses standing expr
  | unary => exact parseUnary_spec ends recurses standing
  | factor => exact parseBinary_spec (factor_level source) recurses standing
  | factorRest expr =>
      exact parseBinaryRest_spec (factor_level source)
        (passes _ (by decide) (by decide)) recurses standing expr
  | term => exact parseBinary_spec (term_level source) recurses standing
  | termRest expr =>
      exact parseBinaryRest_spec (term_level source)
        (passes _ (by decide) (by decide)) recurses standing expr
  | comparison =>
      exact parseBinary_spec (comparison_level source) recurses standing
  | comparisonRest expr =>
      exact parseBinaryRest_spec (comparison_level source) passesEquals recurses
        standing expr
  | fn => exact parseFn_spec ends recurses standing
  | if_ => exact parseIf_spec ends recurses standing
  | let_ => exact parseLet_spec ends recurses standing
  | expr => exact parseExpr_spec recurses standing

/-- Every production does what it should, whatever its depth. -/
theorem parse_spec (ends : source.EndsInEof) (intern : Intern)
    (start : ParseContext) (fuel : Nat) :
    Recurses source intern start fuel (parse source intern fuel) := by
  induction fuel with
  | zero =>
      intro production context standing
      exact .fuel (Nat.not_lt_zero _)
  | succ fuel ih =>
      intro production context standing
      have spec := parseProduction_spec ends ih standing production
      exact wpExcept_mono spec (fun _ _ parsed => parsed)
        fun _ excuse => excuse.mono Nat.le_of_lt_succ

end

end Millie.Syntax
