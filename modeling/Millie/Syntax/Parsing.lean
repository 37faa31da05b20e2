import Millie.Syntax.Reading

/-!
# What a production does

From a position inside the tokens, every production ends at one that is not
before it, has read no token outside the array, has interned the identifiers it
passed, and has reported an error unless what it passed is a phrase.  While
nothing has been reported `lostCount` is zero, so the first error is never
suppressed.
-/

namespace Millie.Syntax

open Weakest
open Millie.Symbols

/-! ## Trees and their token ranges -/

/-- The nodes below a node. -/
def Expression.children : Expression → List Expression
  | .invalid _ | .error _ | .identifier _ _ | .integerConstant _ _ | .true_ _
  | .false_ _ => []
  | .lambda _ _ body => [body]
  | .apply _ function argument => [function, argument]
  | .let_ _ _ value body | .letrec _ _ value body => [value, body]
  | .if_ _ test thenArm elseArm => [test, thenArm, elseArm]
  | .binary _ _ left right => [left, right]
  | .unary _ _ arg => [arg]
  | .tuple _ first rest _ => [first, rest]
  | .tupleFinal _ first => [first]

/-- A property of every node of a tree. -/
inductive Everywhere (holds : Expression → Prop) : Expression → Prop where
  | node (expr : Expression) (here : holds expr)
      (below : ∀ child ∈ expr.children, Everywhere holds child) :
      Everywhere holds expr

/-- Every node's range is one, and has its children's inside. -/
inductive WellRanged : Expression → Prop where
  | node (expr : Expression)
      (ordered : expr.range.startToken ≤ expr.range.endToken)
      (inside : ∀ child ∈ expr.children,
        expr.range.startToken ≤ child.range.startToken ∧
          child.range.endToken ≤ expr.range.endToken)
      (children : ∀ child ∈ expr.children, WellRanged child) : WellRanged expr

/-- A well-ranged tree between two indices. -/
structure Spans (i : Nat) (expr : Expression) (j : Nat) : Prop where
  ranged : WellRanged expr
  first : i ≤ expr.range.startToken
  last : expr.range.endToken ≤ j

namespace Spans

variable {i j k l m n o : Nat} {first second third : Expression}

theorem ordered (spans : Spans i first j) :
    first.range.startToken ≤ first.range.endToken := by
  rcases spans.ranged with ⟨_, ordered, _, _⟩
  exact ordered

theorem mono (spans : Spans j first k) (before : i ≤ j) (after : k ≤ l) :
    Spans i first l :=
  ⟨spans.ranged, Nat.le_trans before spans.first,
    Nat.le_trans spans.last after⟩

/-- A node without children. -/
theorem leaf (none : first.children = []) (low : i ≤ first.range.startToken)
    (ordered : first.range.startToken ≤ first.range.endToken)
    (high : first.range.endToken ≤ j) : Spans i first j := by
  refine ⟨.node first ordered ?_ ?_, low, high⟩
  all_goals
    rw [none]
    exact nofun

/-- A node over one child. -/
theorem single {node : Expression} (spans : Spans j first k)
    (child : node.children = [first]) (low : i ≤ node.range.startToken)
    (starts : node.range.startToken ≤ first.range.startToken)
    (ends : node.range.endToken = first.range.endToken) :
    Spans i node k := by
  have ordered := spans.ordered
  refine ⟨.node node (by omega) ?_ ?_, low, ends ▸ spans.last⟩
  · simp only [child, List.mem_singleton, forall_eq]
    exact ⟨starts, Nat.le_of_eq ends.symm⟩
  · simp only [child, List.mem_singleton, forall_eq]
    exact spans.ranged

/-- A node over two children, one after the other. -/
theorem pair {node : Expression} (left : Spans j first k)
    (right : Spans l second m) (apart : k ≤ l)
    (children : node.children = [first, second])
    (low : i ≤ node.range.startToken)
    (starts : node.range.startToken ≤ first.range.startToken)
    (ends : node.range.endToken = second.range.endToken) :
    Spans i node m := by
  have leftOrdered := left.ordered
  have rightOrdered := right.ordered
  have leftLast := left.last
  have rightFirst := right.first
  refine ⟨.node node (by omega) ?_ ?_, low, ends ▸ right.last⟩
  · simp only [children, List.mem_cons, List.not_mem_nil, or_false,
      forall_eq_or_imp, forall_eq]
    omega
  · simp only [children, List.mem_cons, List.not_mem_nil, or_false,
      forall_eq_or_imp, forall_eq]
    exact ⟨left.ranged, right.ranged⟩

/-- A node over three children, one after the other. -/
theorem triple {node : Expression} (left : Spans j first k)
    (middle : Spans l second m) (right : Spans n third o) (leftApart : k ≤ l)
    (rightApart : m ≤ n) (children : node.children = [first, second, third])
    (low : i ≤ node.range.startToken)
    (starts : node.range.startToken ≤ first.range.startToken)
    (ends : node.range.endToken = third.range.endToken) :
    Spans i node o := by
  have leftOrdered := left.ordered
  have middleOrdered := middle.ordered
  have rightOrdered := right.ordered
  have leftLast := left.last
  have middleFirst := middle.first
  have middleLast := middle.last
  have rightFirst := right.first
  refine ⟨.node node (by omega) ?_ ?_, low, ends ▸ right.last⟩
  · simp only [children, List.mem_cons, List.not_mem_nil, or_false,
      forall_eq_or_imp, forall_eq]
    omega
  · simp only [children, List.mem_cons, List.not_mem_nil, or_false,
      forall_eq_or_imp, forall_eq]
    exact ⟨left.ranged, middle.ranged, right.ranged⟩

end Spans

/-! ## What a production builds -/

/-- The level of the phrase that a production passes. -/
def Production.level : Production → Level
  | .tupleNext _ => .tuple
  | .tuple => .components
  | .primary => .primary
  | .application | .applicationRest _ => .application
  | .unary => .unary
  | .factor | .factorRest _ => .factor
  | .term | .termRest _ => .term
  | .comparison | .comparisonRest _ => .comparison
  | .fn | .if_ | .let_ | .expr => .expr

/--
`after` holds of what a production passes, if `before` holds of what it carries
along.
-/
def Production.Builds (source : MillieTokens)
    (before after : Level → Nat → Expression → Nat → Prop)
    (production : Production) (pos : Nat) (expr : Expression) (last : Nat) :
    Prop :=
  match production with
  | .tupleNext first => ∀ i j, j + 1 = pos → source.Has j .tokComma →
      before .expr i first j → after .tuple i expr last
  | .applicationRest first | .factorRest first | .termRest first
  | .comparisonRest first => ∀ i, before production.level i first pos →
      after production.level i expr last
  | _ => after production.level pos expr last

/-- The token at an index does not continue a phrase of the level. -/
def Level.Stops (source : MillieTokens) (level : Level) (i : Nat) : Prop :=
  ∀ type, source.Has i type → level.continues type = false

/-- The value of the literal at an index, where `ParseExpression` takes it. -/
def Accepted (source : MillieTokens) (i : Nat) (value : UInt64) : Prop :=
  ∃ token text, source.tokenArray[i]? = some token ∧
    tokenText source token = .ok text ∧ readLiteral 0 text = (value, false)

/-- An error that is reported at a token. -/
def AtToken (source : MillieTokens) (report : ErrorReport) : Prop :=
  ∃ token ∈ source.tokenArray, report.startPos = token.start ∧
    report.endPos = token.start + token.length

section

variable (source : MillieTokens) (intern : Intern) (start : ParseContext)

/-- Inside the tokens, with the identifiers before it interned. -/
structure Standing (context : ParseContext) : Prop where
  inside : context.pos < source.tokenArray.length
  after : start.pos ≤ context.pos
  table : tableAt source intern start context.pos = .ok context.table

/-- What may stop the parser. -/
inductive Excuse (enough : Prop) : ParseStop → Prop where
  | fuel (little : ¬enough) : Excuse enough .outOfFuel
  | text (token : MillieToken) (member : token ∈ source.tokenArray)
      (outside : source.buffer.length < token.start + token.length) :
      Excuse enough .textOutside
  | symbols (i : Nat) (stop : Stop)
      (fails : tableAt source intern start i = .error (.symbolTable stop)) :
      Excuse enough (.symbolTable stop)

/--
One context follows another: the fact holds if the first has lost nothing and
nothing has been reported in between.
-/
structure Advances (fact : Prop) (before after : ParseContext) : Prop where
  forward : before.pos ≤ after.pos
  standing : Standing source intern start after
  reports : ∃ new, after.errors = before.errors ++ new ∧
    ∀ report ∈ new, AtToken source report
  quiet : before.lostCount = 0 → after.errors = before.errors →
    after.lostCount = 0 ∧ fact

/-- What a production does from a context. -/
structure Parsed (production : Production) (before : ParseContext)
    (expr : Expression) (after : ParseContext) : Prop where
  advances : Advances source intern start
    (production.Builds source
      (Derives source (symbolAt source intern start) (Accepted source))
      (Derives source (symbolAt source intern start) (Accepted source))
      before.pos expr after.pos) before after
  spans : production.Builds source (fun _ => Spans) (fun _ => Spans)
    before.pos expr after.pos
  stops : production.Builds source
    (fun level _ _ last => level.tighter.Stops source last)
    (fun level _ _ last => level.Stops source last) before.pos expr after.pos
  consumes : production = .primary → ∀ type, source.Has before.pos type →
    type.isPrimary = true → before.pos < after.pos

variable {source} {intern} {start} {a b c : ParseContext} {P Q : Prop}

theorem Standing.token (standing : Standing source intern start a) :
    ∃ token ∈ source.tokenArray, source.tokenArray[a.pos]? = some token :=
  ⟨_, List.getElem_mem standing.inside,
    List.getElem?_eq_getElem standing.inside⟩

namespace Advances

theorem refl (standing : Standing source intern start a) :
    Advances source intern start True a a :=
  ⟨Nat.le_refl _, standing, ⟨[], (List.append_nil _).symm, nofun⟩,
    fun calm _ => ⟨calm, trivial⟩⟩

theorem imp (advances : Advances source intern start P a b) (next : P → Q) :
    Advances source intern start Q a b where
  forward := advances.forward
  standing := advances.standing
  reports := advances.reports
  quiet calm same :=
    have holds := advances.quiet calm same
    ⟨holds.1, next holds.2⟩

theorem trans (first : Advances source intern start P a b)
    (second : Advances source intern start Q b c) :
    Advances source intern start (P ∧ Q) a c := by
  rcases first.reports with ⟨new, errors, atTokens⟩
  rcases second.reports with ⟨more, moreErrors, moreTokens⟩
  constructor
  · exact Nat.le_trans first.forward second.forward
  · exact second.standing
  · refine ⟨new ++ more, ?_, fun report member => ?_⟩
    · rw [moreErrors, errors, List.append_assoc]
    · rcases List.mem_append.mp member with early | late
      · exact atTokens report early
      · exact moreTokens report late
  · intro calm same
    have none : new ++ more = [] := by
      rw [moreErrors, errors, List.append_assoc] at same
      exact List.append_cancel_left (same.trans (List.append_nil _).symm)
    rcases List.append_eq_nil_iff.mp none with ⟨rfl, rfl⟩
    rw [List.append_nil] at errors moreErrors
    have left := first.quiet calm errors
    have right := second.quiet left.1 moreErrors
    exact ⟨right.1, left.2, right.2⟩

/-- A syntax error at a token. -/
theorem report (standing : Standing source intern start a) {token : MillieToken}
    (member : token ∈ source.tokenArray) (message : String) :
    Advances source intern start False a (a.report token message) := by
  by_cases calm : a.lostCount = 0
  · have reported : a.report token message =
        { a with
          errors := a.errors ++
            [⟨message, token.start, token.start + token.length⟩]
          lostCount := 4 } :=
      if_pos calm
    rw [reported]
    refine ⟨Nat.le_refl _, ⟨standing.inside, standing.after, standing.table⟩,
      ⟨_, rfl, ?_⟩, ?_⟩
    · intro report new
      rw [List.mem_singleton.mp new]
      exact ⟨token, member, rfl, rfl⟩
    · intro _ same
      simp at same
  · have reported : a.report token message = { a with lostCount := 4 } :=
      if_neg calm
    rw [reported]
    exact ⟨Nat.le_refl _, ⟨standing.inside, standing.after, standing.table⟩,
      ⟨[], (List.append_nil _).symm, nofun⟩, fun lost => absurd lost calm⟩

end Advances

/-! ## Rules for the helpers -/

section

variable {type : TokenType} {enough : Prop} (ends : source.EndsInEof)

include ends in
/-- Past a token that is no identifier. -/
theorem Standing.next (standing : Standing source intern start a)
    (has : source.Has a.pos type) (real : type ≠ .tokEof)
    (plain : type ≠ .tokId) (pos : b.pos = a.pos + 1)
    (table : b.table = a.table) : Standing source intern start b := by
  have inside := ends.next has real
  rcases has with ⟨token, at_, rfl⟩
  constructor
  · rw [pos]
    exact inside
  · rw [pos]
    exact Nat.le_succ_of_le standing.after
  · rw [pos, table, tableAt_succ standing.after at_ standing.table]
    exact if_neg plain

include ends in
theorem Advances.next (standing : Standing source intern start a)
    (has : source.Has a.pos type) (real : type ≠ .tokEof)
    (plain : type ≠ .tokId) (pos : b.pos = a.pos + 1)
    (table : b.table = a.table) (errors : b.errors = a.errors)
    (calm : a.lostCount = 0 → b.lostCount = 0) :
    Advances source intern start True a b :=
  ⟨by omega, standing.next ends has real plain pos table,
    ⟨[], by rw [errors, List.append_nil], nofun⟩,
    fun lost _ => ⟨calm lost, trivial⟩⟩

theorem prevPos_rule {post : Nat → ParseContext → Prop} {i : Nat}
    (pos : b.pos = i + 1) (next : post i b) :
    wpExcept (Excuse source intern start enough) prevPos post b := by
  have returns : prevPos b = .ok (i, b) := by
    cases b with
    | mk table errors i lostCount =>
        cases pos
        rfl
  exact (wpExcept_of_eq returns).mpr next

theorem prevToken_rule {post : TokenType → ParseContext → Prop} {i : Nat}
    (pos : b.pos = i + 1) (has : source.Has i type) (next : post type b) :
    wpExcept (Excuse source intern start enough) (prevToken source) post b := by
  rcases has with ⟨token, at_, rfl⟩
  have same : b = ({ b with pos := i } : ParseContext).advanced := by
    rw [ParseContext.advanced, ← pos]
  have returns : prevToken source b = .ok (token.type, b) := by
    rw [same]
    exact prevToken_eq at_
  exact (wpExcept_of_eq returns).mpr next

include ends in
theorem match_rule {post : Bool → ParseContext → Prop}
    (standing : Standing source intern start a) (real : type ≠ .tokEof)
    (plain : type ≠ .tokId)
    (yes : ∀ b, source.Has a.pos type → b.pos = a.pos + 1 →
      Advances source intern start True a b → post true b)
    (no : ¬source.Has a.pos type → post false a) :
    wpExcept (Excuse source intern start enough) (match_ source type) post
      a := by
  rcases standing.token with ⟨token, member, at_⟩
  have returns := match_eq at_ real
  by_cases same : token.type = type
  · rw [if_pos same] at returns
    have has : source.Has a.pos type := ⟨_, at_, same⟩
    refine (wpExcept_of_eq returns).mpr (yes _ has rfl ?_)
    exact .next ends standing has real plain rfl rfl rfl
      fun calm => congrArg (· - 1) calm
  · rw [if_neg same] at returns
    refine (wpExcept_of_eq returns).mpr (no fun has => same ?_)
    exact MillieTokens.Has.unique ⟨_, at_, rfl⟩ has

include ends in
theorem matchV_rule {post : Bool → ParseContext → Prop}
    {types : List TokenType} (standing : Standing source intern start a)
    (real : .tokEof ∉ types) (plain : .tokId ∉ types)
    (yes : ∀ b, ∀ type ∈ types, source.Has a.pos type → b.pos = a.pos + 1 →
      Advances source intern start True a b → post true b)
    (no : (∀ type ∈ types, ¬source.Has a.pos type) → post false a) :
    wpExcept (Excuse source intern start enough) (matchV source types) post
      a := by
  rcases standing.token with ⟨token, member, at_⟩
  have returns := matchV_eq at_ real
  by_cases among : token.type ∈ types
  · rw [if_pos among] at returns
    have has : source.Has a.pos token.type := ⟨_, at_, rfl⟩
    refine (wpExcept_of_eq returns).mpr (yes _ _ among has rfl ?_)
    exact .next ends standing has (fun eof => real (eof ▸ among))
      (fun id => plain (id ▸ among)) rfl rfl rfl id
  · rw [if_neg among] at returns
    refine (wpExcept_of_eq returns).mpr (no fun type listed has => among ?_)
    rw [MillieTokens.Has.unique ⟨_, at_, rfl⟩ has]
    exact listed

theorem syntaxError_rule {post : Unit → ParseContext → Prop}
    (standing : Standing source intern start a) (message : String)
    (next : ∀ b, b.pos = a.pos → Advances source intern start False a b →
      post ⟨⟩ b) :
    wpExcept (Excuse source intern start enough)
      (syntaxError source message) post a := by
  rcases standing.token with ⟨token, member, at_⟩
  refine (wpExcept_of_eq (syntaxError_eq at_ message)).mpr (next _ ?_ ?_)
  · exact ParseContext.report_pos _ _ _
  · exact .report standing member message

include ends in
theorem expect_rule {post : Unit → ParseContext → Prop}
    (standing : Standing source intern start a) (real : type ≠ .tokEof)
    (plain : type ≠ .tokId) (message : String)
    (next : ∀ b, Advances source intern start
      (source.Has a.pos type ∧ b.pos = a.pos + 1) a b → post ⟨⟩ b) :
    wpExcept (Excuse source intern start enough)
      (expect source type message) post a := by
  rw [expect, wpExcept_bind]
  refine match_rule ends standing real plain ?_ ?_
  · intro b has pos advances
    exact (wpExcept_pure _ _ _).mpr (next b (advances.imp fun _ => ⟨has, pos⟩))
  · intro _
    refine syntaxError_rule standing message fun b _ advances => ?_
    exact next b (advances.imp False.elim)

include ends in
theorem parseSymbol_rule {post : Symbol → ParseContext → Prop}
    (standing : Standing source intern start a)
    (next : ∀ symbol b, (source.Has a.pos .tokId → b.pos = a.pos + 1) →
      Advances source intern start (source.Has a.pos .tokId ∧
        b.pos = a.pos + 1 ∧ symbol = symbolAt source intern start a.pos) a b →
      post symbol b) :
    wpExcept (Excuse source intern start enough)
      (parseSymbol source intern) post a := by
  rcases standing.token with ⟨token, member, at_⟩
  by_cases isId : token.type = .tokId
  · have has : source.Has a.pos .tokId := ⟨_, at_, isId⟩
    have run := @parseSymbol_eq source intern token a at_ isId
    have later := tableAt_succ standing.after at_ standing.table
    rw [internToken, if_pos isId] at later
    cases interned : internText source intern a.table token with
    | ok result =>
        rw [interned] at run later
        have symbol : result.1 = symbolAt source intern start a.pos := by
          simp only [symbolAt, at_, standing.table, interned]
        have inside := ends.next has (nofun : TokenType.tokId ≠ .tokEof)
        refine (wpExcept_of_eq run).mpr (next _ _ (fun _ => rfl) ?_)
        constructor
        · exact Nat.le_succ _
        · exact ⟨inside, Nat.le_succ_of_le standing.after, later⟩
        · exact ⟨[], (List.append_nil _).symm, nofun⟩
        · intro calm _
          exact ⟨congrArg (· - 1) calm, has, rfl, symbol⟩
    | error stop =>
        rw [interned] at run later
        rw [wpExcept, run]
        rcases internText_stop interned with ⟨rfl, outside⟩ | ⟨reason, rfl⟩
        · exact .text token member outside
        · exact .symbols _ _ later
  · refine (wpExcept_of_eq (parseSymbol_other at_ isId)).mpr (next _ _ ?_ ?_)
    · intro has
      exact absurd (MillieTokens.Has.unique ⟨_, at_, rfl⟩ has) isId
    · exact (Advances.report standing member
        _).imp False.elim

end

end

end Millie.Syntax
