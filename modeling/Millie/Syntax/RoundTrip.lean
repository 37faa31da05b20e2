import Millie.Syntax.Acceptance
import Millie.Syntax.Printing

/-!
# Parsing undoes printing

The lexemes of an abstract expression are a phrase of the grammar whose tree is
that expression, so that the tree is what `ParseExpression` returns for its text.
-/

namespace Millie.Syntax

open Millie.Symbols

/-! ## The same expression -/

section

variable (names : Symbol → ByteString → Prop)

mutual

/-- A tree is an abstract expression, up to positions and the symbols' names. -/
inductive Shows : Abstract → Expression → Prop where
  | identifier {id : Identifier} {range : TokenRange} {symbol : Symbol}
      (named : names symbol id.text) :
      Shows (.identifier id) (.identifier range symbol)
  | integer {value : UInt64} {range : TokenRange} :
      Shows (.integer value) (.integerConstant range value)
  | true_ {range : TokenRange} : Shows .true_ (.true_ range)
  | false_ {range : TokenRange} : Shows .false_ (.false_ range)
  | unary {operator : Sign} {arg : Abstract} {range : TokenRange}
      {argTree : Expression} (argShown : Shows arg argTree) :
      Shows (.unary operator arg) (.unary range operator argTree)
  | binary {operator : Operator} {left right : Abstract} {range : TokenRange}
      {leftTree rightTree : Expression} (leftShown : Shows left leftTree)
      (rightShown : Shows right rightTree) :
      Shows (.binary operator left right)
        (.binary range operator leftTree rightTree)
  | apply {function argument : Abstract} {range : TokenRange}
      {functionTree argumentTree : Expression}
      (functionShown : Shows function functionTree)
      (argumentShown : Shows argument argumentTree) :
      Shows (.apply function argument) (.apply range functionTree argumentTree)
  | fn {id : Identifier} {body : Abstract} {range : TokenRange}
      {symbol : Symbol} {bodyTree : Expression} (named : names symbol id.text)
      (bodyShown : Shows body bodyTree) :
      Shows (.fn id body) (.lambda range symbol bodyTree)
  | let_ {id : Identifier} {value body : Abstract} {range : TokenRange}
      {symbol : Symbol} {valueTree bodyTree : Expression}
      (named : names symbol id.text) (valueShown : Shows value valueTree)
      (bodyShown : Shows body bodyTree) :
      Shows (.let_ id value body) (.let_ range symbol valueTree bodyTree)
  | letrec {id : Identifier} {value body : Abstract} {range : TokenRange}
      {symbol : Symbol} {valueTree bodyTree : Expression}
      (named : names symbol id.text) (valueShown : Shows value valueTree)
      (bodyShown : Shows body bodyTree) :
      Shows (.letrec id value body) (.letrec range symbol valueTree bodyTree)
  | if_ {test thenArm elseArm : Abstract} {range : TokenRange}
      {testTree thenTree elseTree : Expression} (testShown : Shows test testTree)
      (thenShown : Shows thenArm thenTree) (elseShown : Shows elseArm elseTree) :
      Shows (.if_ test thenArm elseArm) (.if_ range testTree thenTree elseTree)
  | tuple {first : Abstract} {rest : Components} {range : TokenRange}
      {firstTree restTree : Expression} (firstShown : Shows first firstTree)
      (restShown : ShowsRest rest restTree) :
      Shows (.tuple first rest)
        (.tuple range firstTree restTree (rest.length + 1))

/-- A spine is the components after the first. -/
inductive ShowsRest : Components → Expression → Prop where
  | last {component : Abstract} {range : TokenRange} {tree : Expression}
      (shown : Shows component tree) :
      ShowsRest (.last component) (.tupleFinal range tree)
  | more {component : Abstract} {rest : Components} {range : TokenRange}
      {tree restTree : Expression} (shown : Shows component tree)
      (restShown : ShowsRest rest restTree) :
      ShowsRest (.more component rest)
        (.tuple range tree restTree (rest.length + 1))

end

end

theorem ShowsRest.spineLength {names : Symbol → ByteString → Prop} :
    ∀ {rest : Components} {tree : Expression}, ShowsRest names rest tree →
      spineLength tree = rest.length
  | .last _, _, .last _ => rfl
  | .more _ _, _, .more _ restShown =>
      congrArg Nat.succ restShown.spineLength

/-! ## Levels -/

section

variable {source : MillieTokens} {symbolAt : Nat → Symbol}
  {literal : Nat → UInt64 → Prop} {i j : Nat} {expr : Expression}

/-- The levels of expressions that are not tuples without parentheses. -/
def Level.plain (level : Level) : Prop :=
  level ≠ .components ∧ level ≠ .tuple

/-- A primary expression is one of every level. -/
theorem Derives.raise (derives : Derives source symbolAt literal .primary i
    expr j) {level : Level} (plain : level.plain) :
    Derives source symbolAt literal level i expr j := by
  have application := Derives.chain .application (by decide) derives
  have unary := Derives.chain .unary (by decide) application
  have factor := Derives.chain .factor (by decide) unary
  have term := Derives.chain .term (by decide) factor
  have comparison := Derives.chain .comparison (by decide) term
  cases level with
  | components => exact absurd rfl plain.1
  | tuple => exact absurd rfl plain.2
  | expr => exact .chain .expr (by decide) comparison
  | comparison => exact comparison
  | term => exact term
  | factor => exact factor
  | unary => exact unary
  | application => exact application
  | primary => exact derives

/-- What is of a tighter level is an expression. -/
theorem Derives.widen {level : Level} (plain : level.plain)
    (derives : Derives source symbolAt literal level i expr j) :
    Derives source symbolAt literal .expr i expr j := by
  have comparison (inner : Derives source symbolAt literal .comparison i expr j) :
      Derives source symbolAt literal .expr i expr j :=
    .chain .expr (by decide) inner
  have term (inner : Derives source symbolAt literal .term i expr j) :=
    comparison (.chain .comparison (by decide) inner)
  have factor (inner : Derives source symbolAt literal .factor i expr j) :=
    term (.chain .term (by decide) inner)
  have unary (inner : Derives source symbolAt literal .unary i expr j) :=
    factor (.chain .factor (by decide) inner)
  have application (inner : Derives source symbolAt literal .application i expr
      j) := unary (.chain .unary (by decide) inner)
  cases level with
  | components => exact absurd rfl plain.1
  | tuple => exact absurd rfl plain.2
  | expr => exact derives
  | comparison => exact comparison derives
  | term => exact term derives
  | factor => exact factor derives
  | unary => exact unary derives
  | application => exact application derives
  | primary => exact derives.raise ⟨nofun, nofun⟩

end

/-- The level of a binary operator. -/
def Operator.level (operator : Operator) : Level :=
  match operator.1 with
  | .tokEquals => .comparison
  | .tokStar | .tokSlash => .factor
  | _ => .term

theorem Operator.among (operator : Operator) :
    operator.1 ∈ operator.level.operators ∧ operator.level.plain ∧
      operator.level.tighter.plain := by
  rcases operator with ⟨type, among⟩
  simp only [List.mem_cons, List.not_mem_nil, or_false] at among
  rcases among with rfl | rfl | rfl | rfl | rfl
  all_goals
    exact ⟨by simp [level, Level.operators], by simp [level, Level.plain],
      by simp [level, Level.tighter, Level.plain]⟩

/-! ## Segments of the tokens -/

/-- From an index on, the tokens are some lexemes. -/
def Segment (source : MillieTokens) (i : Nat) (lexemes : List Lexeme) : Prop :=
  ∀ k lexeme, lexemes[k]? = some lexeme →
    ∃ token, source.tokenArray[i + k]? = some token ∧
      Spells source.buffer token lexeme

section

variable {source : MillieTokens} {i : Nat} {lexeme : Lexeme}
  {lexemes first second : List Lexeme}

theorem Segment.head (segment : Segment source i (lexeme :: lexemes)) :
    ∃ token, source.tokenArray[i]? = some token ∧
      Spells source.buffer token lexeme :=
  segment 0 lexeme rfl

theorem Segment.has (segment : Segment source i (lexeme :: lexemes)) :
    source.Has i lexeme.type := by
  rcases segment.head with ⟨token, at_, spells⟩
  exact ⟨token, at_, spells.type⟩

theorem Segment.tail (segment : Segment source i (lexeme :: lexemes)) :
    Segment source (i + 1) lexemes := by
  intro k other at_
  rw [Nat.add_assoc, Nat.add_comm 1]
  exact segment (k + 1) other at_

theorem Segment.left (segment : Segment source i (first ++ second)) :
    Segment source i first := by
  intro k other at_
  have inside := (List.getElem?_eq_some_iff.mp at_).1
  exact segment k other (by rw [List.getElem?_append_left inside, at_])

theorem Segment.right (segment : Segment source i (first ++ second)) :
    Segment source (i + first.length) second := by
  intro k other at_
  rw [Nat.add_assoc]
  refine segment (first.length + k) other ?_
  rw [List.getElem?_append_right (Nat.le_add_right _ _), Nat.add_sub_cancel_left,
    at_]

theorem Segment.of_forall {tokens : List MillieToken} {eof : MillieToken}
    (all : source.tokenArray = tokens ++ [eof])
    (spelled : List.Forall₂ (Spells source.buffer) tokens lexemes) :
    Segment source 0 lexemes := by
  intro k lexeme at_
  have inside := (List.getElem?_eq_some_iff.mp at_).1
  rw [← spelled.length_eq] at inside
  refine ⟨tokens[k], ?_, ?_⟩
  · rw [Nat.zero_add, all, List.getElem?_append_left inside,
      List.getElem?_eq_getElem inside]
  · have pair := List.forall₂_iff_get.mp spelled
    have same := (List.getElem?_eq_some_iff.mp at_).2
    rw [← same]
    exact pair.2 k inside _

end

/-! ## The phrase of an expression -/

theorem decimalFrom_toDigits {digits : List Char}
    (decimal : ∀ c ∈ digits, (byte c).toNat = c.toNat) (value : Nat) :
    decimalFrom value (digits.map byte) = Nat.ofDigitChars 10 digits value := by
  induction digits generalizing value with
  | nil => simp [decimalFrom]
  | cons c digits ih =>
      rcases List.forall_mem_cons.mp decimal with ⟨first, others⟩
      rw [Nat.ofDigitChars_cons, ← ih others, Nat.mul_comm]
      show decimalFrom (value * 10 + ((byte c).toNat - 48)) _ = _
      rw [first]
      rfl

/-- The digits of a literal are its value. -/
theorem decimal_value (value : UInt64) :
    decimalFrom 0 (Lexeme.decimal value).text = value.toNat := by
  show decimalFrom 0 ((Nat.toDigits 10 value.toNat).map byte) = _
  rw [decimalFrom_toDigits fun c member => (decimal_digit member).1]
  exact Nat.ofDigitChars_ten_toDigits

section

variable (source : MillieTokens) (symbolAt : Nat → Symbol)
  (names : Symbol → ByteString → Prop)

/-- Some lexemes, from an index on, are a phrase that shows an expression. -/
def Phrase (expr : Abstract) (level : Level) (i : Nat) (lexemes : List Lexeme) :
    Prop :=
  ∃ tree j, j = i + lexemes.length ∧
    Derives source symbolAt (Decimal source) level i tree j ∧
    Shows names expr tree

/-- The lexemes of an expression are a phrase wherever they stand. -/
def Readable (expr : Abstract) : Prop :=
  ∀ i, Segment source i expr.lexemes →
    Phrase source symbolAt names expr
      (if expr.isCompound then .expr else .primary) i expr.lexemes

/-- The lexemes of a spine are one. -/
def ReadableRest (rest : Components) : Prop :=
  ∀ i, Segment source i rest.lexemes →
    ∃ tree j, j = i + rest.lexemes.length ∧
      Derives source symbolAt (Decimal source) .components i tree j ∧
      ShowsRest names rest tree

/-- Every identifier of the tokens is named by its symbol. -/
def Naming : Prop :=
  ∀ p token, source.tokenArray[p]? = some token → token.type = .tokId →
    names (symbolAt p) (source.text token)

end

section

variable {source : MillieTokens} {symbolAt : Nat → Symbol}
  {names : Symbol → ByteString → Prop} {expr : Abstract} {i : Nat}

/-- The identifier at an index, by its symbol. -/
theorem Segment.named {id : Identifier} {lexemes : List Lexeme}
    (naming : Naming source symbolAt names)
    (segment : Segment source i (id.lexeme :: lexemes)) :
    names (symbolAt i) id.text := by
  rcases segment.head with ⟨token, at_, spells⟩
  have named := naming i token at_ spells.type
  rw [MillieTokens.text, spells.text] at named
  exact named

/-- A phrase of a plain level is an expression. -/
theorem Readable.of_level {level : Level} (plain : level.plain)
    (compound : expr.isCompound = true)
    (phrase : ∀ i, Segment source i expr.lexemes →
      Phrase source symbolAt names expr level i expr.lexemes) :
    Readable source symbolAt names expr := by
  intro i segment
  rcases phrase i segment with ⟨tree, j, ends, derives, shows⟩
  rw [compound, if_pos rfl]
  exact ⟨tree, j, ends, derives.widen plain, shows⟩

/-- An expression alone. -/
theorem Readable.whole (readable : Readable source symbolAt names expr)
    (segment : Segment source i expr.lexemes) :
    Phrase source symbolAt names expr .expr i expr.lexemes := by
  rcases readable i segment with ⟨tree, j, ends, derives, shows⟩
  refine ⟨tree, j, ends, derives.widen ?_, shows⟩
  split
  · exact ⟨nofun, nofun⟩
  · exact ⟨nofun, nofun⟩

/-- An expression as an operand is a primary expression. -/
theorem Readable.operand (readable : Readable source symbolAt names expr)
    (segment : Segment source i (expr.enclose expr.lexemes)) :
    Phrase source symbolAt names expr .primary i
      (expr.enclose expr.lexemes) := by
  rw [Abstract.enclose] at segment ⊢
  split
  · rename_i compound
    rw [if_pos compound] at segment
    rcases readable.whole segment.tail.left with ⟨tree, j, rfl, derives, shows⟩
    refine ⟨tree, _, ?_, .parenthesis segment.has derives
      segment.tail.right.has, shows⟩
    rw [List.length_cons, List.length_append, List.length_singleton]
    omega
  · rename_i simple
    rw [if_neg simple] at segment
    have phrase := readable i segment
    rw [if_neg simple] at phrase
    exact phrase

/-! ### One kind of expression at a time -/

variable {arg left right function argument value body test thenArm elseArm
  first component : Abstract} {rest : Components} {id : Identifier}

theorem readable_unary (operator : Sign)
    (argReadable : Readable source symbolAt names arg) :
    Readable source symbolAt names (.unary operator arg) := by
  refine .of_level (show Level.unary.plain from ⟨nofun, nofun⟩) rfl ?_
  intro i segment
  rw [Abstract.lexemes] at segment ⊢
  rcases argReadable.operand segment.tail with ⟨tree, j, ends, derives, shows⟩
  refine ⟨_, j, ?_, .unary segment.has operator.2
    (derives.raise ⟨nofun, nofun⟩), .unary shows⟩
  rw [ends, List.length_cons]
  omega

theorem readable_binary (operator : Operator)
    (leftReadable : Readable source symbolAt names left)
    (rightReadable : Readable source symbolAt names right) :
    Readable source symbolAt names (.binary operator left right) := by
  rcases operator.among with ⟨among, plain, tighter⟩
  refine .of_level plain rfl ?_
  intro i segment
  rw [Abstract.lexemes] at segment ⊢
  rcases leftReadable.operand segment.left with
    ⟨leftTree, j, rfl, leftDerives, leftShows⟩
  rcases rightReadable.operand segment.right.tail with
    ⟨rightTree, k, ends, rightDerives, rightShows⟩
  refine ⟨_, k, ?_, .binary (leftDerives.raise plain) segment.right.has among
    (rightDerives.raise tighter), .binary leftShows rightShows⟩
  rw [ends, List.length_append, List.length_cons]
  omega

theorem readable_apply
    (functionReadable : Readable source symbolAt names function)
    (argumentReadable : Readable source symbolAt names argument) :
    Readable source symbolAt names (.apply function argument) := by
  refine .of_level (show Level.application.plain from ⟨nofun, nofun⟩) rfl ?_
  intro i segment
  rw [Abstract.lexemes] at segment ⊢
  rcases functionReadable.operand segment.left with
    ⟨functionTree, j, rfl, functionDerives, functionShows⟩
  rcases argumentReadable.operand segment.right with
    ⟨argumentTree, k, ends, argumentDerives, argumentShows⟩
  refine ⟨_, k, ?_, .apply (functionDerives.raise ⟨nofun, nofun⟩)
    argumentDerives, .apply functionShows argumentShows⟩
  rw [ends, List.length_append]
  omega

theorem readable_fn (naming : Naming source symbolAt names)
    (bodyReadable : Readable source symbolAt names body) :
    Readable source symbolAt names (.fn id body) := by
  refine .of_level (show Level.expr.plain from ⟨nofun, nofun⟩) rfl ?_
  intro i segment
  rw [Abstract.lexemes] at segment ⊢
  rcases bodyReadable.operand segment.tail.tail.tail with
    ⟨bodyTree, j, ends, bodyDerives, bodyShows⟩
  refine ⟨_, j, ?_, .fn segment.has segment.tail.has segment.tail.tail.has
    (bodyDerives.raise ⟨nofun, nofun⟩),
    .fn (segment.tail.named naming) bodyShows⟩
  simp only [List.length_cons]
  omega

theorem readable_let (naming : Naming source symbolAt names)
    (valueReadable : Readable source symbolAt names value)
    (bodyReadable : Readable source symbolAt names body) :
    Readable source symbolAt names (.let_ id value body) := by
  refine .of_level (show Level.expr.plain from ⟨nofun, nofun⟩) rfl ?_
  intro i segment
  rw [Abstract.lexemes] at segment ⊢
  have after := segment.tail.tail.tail
  rcases valueReadable.operand after.left with
    ⟨valueTree, j, rfl, valueDerives, valueShows⟩
  rcases bodyReadable.operand after.right.tail with
    ⟨bodyTree, k, ends, bodyDerives, bodyShows⟩
  refine ⟨_, k, ?_, .let_ segment.has segment.tail.has segment.tail.tail.has
    (valueDerives.raise ⟨nofun, nofun⟩) after.right.has
    (bodyDerives.raise ⟨nofun, nofun⟩),
    .let_ (segment.tail.named naming) valueShows bodyShows⟩
  simp only [List.length_cons, List.length_append]
  omega

theorem readable_letrec (naming : Naming source symbolAt names)
    (valueReadable : Readable source symbolAt names value)
    (bodyReadable : Readable source symbolAt names body) :
    Readable source symbolAt names (.letrec id value body) := by
  refine .of_level (show Level.expr.plain from ⟨nofun, nofun⟩) rfl ?_
  intro i segment
  rw [Abstract.lexemes] at segment ⊢
  have recursive := segment.tail.tail
  have after := recursive.tail.tail
  rcases valueReadable.operand after.left with
    ⟨valueTree, j, rfl, valueDerives, valueShows⟩
  rcases bodyReadable.operand after.right.tail with
    ⟨bodyTree, k, ends, bodyDerives, bodyShows⟩
  refine ⟨_, k, ?_, .letrec segment.has segment.tail.has recursive.has
    recursive.tail.has (valueDerives.raise ⟨nofun, nofun⟩) after.right.has
    (bodyDerives.raise ⟨nofun, nofun⟩),
    .letrec (recursive.named naming) valueShows bodyShows⟩
  simp only [List.length_cons, List.length_append]
  omega

theorem readable_if (testReadable : Readable source symbolAt names test)
    (thenReadable : Readable source symbolAt names thenArm)
    (elseReadable : Readable source symbolAt names elseArm) :
    Readable source symbolAt names (.if_ test thenArm elseArm) := by
  refine .of_level (show Level.expr.plain from ⟨nofun, nofun⟩) rfl ?_
  intro i segment
  rw [Abstract.lexemes] at segment ⊢
  have afterTest := segment.tail.right
  have afterThen := afterTest.tail.right
  rcases testReadable.operand segment.tail.left with
    ⟨testTree, j, rfl, testDerives, testShows⟩
  rcases thenReadable.operand afterTest.tail.left with
    ⟨thenTree, k, rfl, thenDerives, thenShows⟩
  rcases elseReadable.operand afterThen.tail with
    ⟨elseTree, l, ends, elseDerives, elseShows⟩
  refine ⟨_, l, ?_, .if_ segment.has (testDerives.raise ⟨nofun, nofun⟩)
    afterTest.has (thenDerives.raise ⟨nofun, nofun⟩) afterThen.has
    (elseDerives.raise ⟨nofun, nofun⟩), .if_ testShows thenShows elseShows⟩
  simp only [List.length_cons, List.length_append]
  omega

theorem readable_tuple (firstReadable : Readable source symbolAt names first)
    (restReadable : ReadableRest source symbolAt names rest) :
    Readable source symbolAt names (.tuple first rest) := by
  intro i segment
  rw [Abstract.lexemes] at segment ⊢
  have after := segment.tail.right
  rcases firstReadable.operand segment.tail.left with
    ⟨firstTree, j, rfl, firstDerives, firstShows⟩
  rcases restReadable _ after.tail.left with
    ⟨restTree, k, rfl, restDerives, restShows⟩
  have phrase := Derives.parenthesized segment.has
    (.tuple (firstDerives.raise ⟨nofun, nofun⟩) after.has restDerives)
    after.tail.right.has
  rw [restShows.spineLength] at phrase
  refine ⟨_, _, ?_, phrase, .tuple firstShows restShows⟩
  simp only [List.length_cons, List.length_append, List.length_nil]
  omega

theorem readable_last
    (componentReadable : Readable source symbolAt names component) :
    ReadableRest source symbolAt names (.last component) := by
  intro i segment
  rw [Components.lexemes] at segment ⊢
  rcases componentReadable.operand segment with
    ⟨tree, j, ends, derives, shows⟩
  exact ⟨_, j, ends, .last (derives.raise ⟨nofun, nofun⟩), .last shows⟩

theorem readable_more
    (componentReadable : Readable source symbolAt names component)
    (restReadable : ReadableRest source symbolAt names rest) :
    ReadableRest source symbolAt names (.more component rest) := by
  intro i segment
  rw [Components.lexemes] at segment ⊢
  rcases componentReadable.operand segment.left with
    ⟨tree, j, rfl, derives, shows⟩
  rcases restReadable _ segment.right.tail with
    ⟨restTree, k, ends, restDerives, restShows⟩
  have phrase := Derives.more
    (.tuple (derives.raise ⟨nofun, nofun⟩) segment.right.has restDerives)
  rw [restShows.spineLength] at phrase
  refine ⟨_, k, ?_, phrase, .more shows restShows⟩
  rw [ends, List.length_append, List.length_cons]
  omega

theorem readable_leaf {lexeme : Lexeme} (simple : expr.isCompound = false)
    (lexemes : expr.lexemes = [lexeme])
    (leaf : ∀ i, Segment source i [lexeme] → ∃ tree,
      Derives source symbolAt (Decimal source) .primary i tree (i + 1) ∧
        Shows names expr tree) : Readable source symbolAt names expr := by
  intro i segment
  rw [lexemes] at segment
  rcases leaf i segment with ⟨tree, derives, shows⟩
  rw [simple, if_neg Bool.false_ne_true, lexemes]
  exact ⟨tree, _, rfl, derives, shows⟩

theorem readable_integer (value : UInt64) :
    Readable source symbolAt names (.integer value) := by
  refine readable_leaf rfl rfl fun i segment => ?_
  rcases segment.head with ⟨token, at_, spells⟩
  have decimal : Decimal source i value := by
    refine ⟨token, at_, ?_⟩
    rw [MillieTokens.text, spells.text]
    exact decimal_value value
  exact ⟨_, .integer segment.has decimal, .integer⟩

mutual

/-- The lexemes of every expression are a phrase that shows it. -/
theorem Abstract.readable (naming : Naming source symbolAt names) :
    ∀ expr : Abstract, Readable source symbolAt names expr
  | .identifier _ => readable_leaf rfl rfl fun _ segment =>
      ⟨_, .identifier segment.has, .identifier (segment.named naming)⟩
  | .integer value => readable_integer value
  | .true_ => readable_leaf rfl rfl fun _ segment =>
      ⟨_, .true_ segment.has, .true_⟩
  | .false_ => readable_leaf rfl rfl fun _ segment =>
      ⟨_, .false_ segment.has, .false_⟩
  | .unary operator arg => readable_unary operator (arg.readable naming)
  | .binary operator left right =>
      readable_binary operator (left.readable naming) (right.readable naming)
  | .apply function argument =>
      readable_apply (function.readable naming) (argument.readable naming)
  | .fn _ body => readable_fn naming (body.readable naming)
  | .let_ _ value body =>
      readable_let naming (value.readable naming) (body.readable naming)
  | .letrec _ value body =>
      readable_letrec naming (value.readable naming) (body.readable naming)
  | .if_ test thenArm elseArm =>
      readable_if (test.readable naming) (thenArm.readable naming)
        (elseArm.readable naming)
  | .tuple first rest =>
      readable_tuple (first.readable naming) (rest.readable naming)

theorem Components.readable (naming : Naming source symbolAt names) :
    ∀ rest : Components, ReadableRest source symbolAt names rest
  | .last component => readable_last (component.readable naming)
  | .more component rest =>
      readable_more (component.readable naming) (rest.readable naming)

end

end

/-! ## The round trip -/

/-- The distinct identifiers of an expression. -/
def Abstract.identifiers (expr : Abstract) : List ByteString :=
  firstOccurrences ((expr.lexemes.filter (·.type == .tokId)).map (·.text))

theorem identifierTexts_spelled {source : MillieTokens}
    {tokens : List MillieToken} {lexemes : List Lexeme}
    (spelled : List.Forall₂ (Spells source.buffer) tokens lexemes) :
    identifierTexts source tokens =
      (lexemes.filter (·.type == .tokId)).map (·.text) := by
  induction spelled with
  | nil => rfl
  | @cons token lexeme tokens lexemes spells spelled ih =>
      have text : source.text token = lexeme.text := spells.text
      rw [identifierTexts_cons, ih, spells.type, text]
      by_cases isId : lexeme.type = .tokId
      · simp [isId]
      · simp [isId]

/-- The tokens are read back as an expression. -/
structure ReadsBack (hash32 : ByteString → UInt32) (symbolFuel : Nat)
    (source : MillieTokens) (expr : Abstract) : Prop where
  /-- Whatever the symbol table does, a run that returns has the tree. -/
  returned : ∀ table errors tree after,
    parseExpression hash32 symbolFuel source table errors = .ok (tree, after) →
    after.errors = errors ∧ Shows (fun _ _ => True) expr tree
  /-- With as many identifiers as the table is made for, it returns. -/
  named : expr.identifiers.length < 30198988 → 2 ^ 25 ≤ symbolFuel →
    ∃ tree after,
      parseExpression hash32 symbolFuel source symbolTableCreate [] =
        .ok (tree, after) ∧
      after.errors = [] ∧
      Shows (fun symbol text => findSymbolKey after.table symbol = some text)
        expr tree

section

variable {source : MillieTokens} {tokens : List MillieToken} {eof : MillieToken}
  {expr : Abstract}

/-- The identifiers of the tokens are those of the expression. -/
theorem identifiers_spelled (all : source.tokenArray = tokens ++ [eof])
    (isEof : eof.type = .tokEof)
    (spelled : List.Forall₂ (Spells source.buffer) tokens expr.lexemes) :
    identifiers source = expr.identifiers ∧
      firstOccurrences (identifierTexts source tokens) = expr.identifiers := by
  have none : identifierTexts source [eof] = [] := by
    rw [identifierTexts_cons, isEof, if_neg nofun]
    rfl
  have texts := identifierTexts_spelled spelled
  rw [identifiers, all, identifierTexts_append, none, List.append_nil, texts]
  exact ⟨rfl, rfl⟩

/-- The table after the parse has a name for the symbol of every identifier. -/
theorem naming_table {hash32 : ByteString → UInt32} {symbolFuel : Nat}
    {table : SymbolTable} (texts : TextsInside source)
    (all : source.tokenArray = tokens ++ [eof]) (isEof : eof.type = .tokEof)
    (spelled : List.Forall₂ (Spells source.buffer) tokens expr.lexemes)
    (few : expr.identifiers.length < 30198988) (enough : 2 ^ 25 ≤ symbolFuel)
    (reached : tableAt source (findOrCreateSymbol hash32 symbolFuel)
      ⟨symbolTableCreate, [], 0, 0⟩ tokens.length = .ok table) :
    Naming source
      (parsedSymbols hash32 symbolFuel source symbolTableCreate [])
      (fun symbol text => findSymbolKey table symbol = some text) := by
  rcases identifiers_spelled all isEof spelled with ⟨whole, before⟩
  rw [← whole] at few
  rcases tableAt_interned hash32 texts few enough [] tokens.length with
    ⟨last, bits, same, interned⟩
  rw [same] at reached
  cases reached
  have front : source.tokenArray.take tokens.length = tokens := by
    rw [all, List.take_left]
  rw [front, before, ← whole] at interned
  intro p token at_ isId
  have member : source.text token ∈ identifiers source := by
    refine mem_foldl_remember.mpr (.inr (List.mem_map.mpr ⟨token, ?_, rfl⟩))
    exact List.mem_filter.mpr ⟨List.mem_of_getElem? at_, beq_iff_eq.mpr isId⟩
  rw [parsedSymbols, symbolAt_number texts few enough [] at_ isId]
  exact (interned.symbolKey _).1 _ member rfl

end

/-- Printing an expression, scanning the text and parsing gives it back. -/
theorem parse_render (hash32 : ByteString → UInt32) (symbolFuel : Nat)
    (blank : Blank) (expr : Abstract) :
    ∃ source, lexBuffer (expr.render blank) = .ok (source, []) ∧
      ReadsBack hash32 symbolFuel source expr := by
  rcases lexBuffer_spaced blank expr.reads with
    ⟨source, tokens, lexed, -, all, spelled⟩
  have from_ := fromLexer lexed
  have segment := Segment.of_forall all spelled
  have last : source.tokenArray.length - 1 = 0 + expr.lexemes.length := by
    rw [all, List.length_append, spelled.length_eq, List.length_singleton,
      Nat.add_sub_cancel, Nat.zero_add]
  have sentence : ∀ table errors tree after,
      parseExpression hash32 symbolFuel source table errors =
        .ok (tree, after) →
      ∀ names, Naming source
        (parsedSymbols hash32 symbolFuel source table errors) names →
      after.pos = tokens.length ∧ after.errors = errors ∧
        Shows names expr tree := by
    intro table errors tree after returns names naming
    rcases (expr.readable naming).whole segment with
      ⟨shown, j, ends, derives, shows⟩
    rw [ends, ← last] at derives
    rcases parse_sentence from_ returns derives with ⟨rfl, position, quiet⟩
    rw [position, last, Nat.zero_add, spelled.length_eq]
    exact ⟨rfl, quiet, shows⟩
  refine ⟨source, lexed, ?_, ?_⟩
  · intro table errors tree after returns
    exact (sentence table errors tree after returns _
      fun _ _ _ _ => trivial).2
  · intro few enough
    have few' : (identifiers source).length < 30198988 := by
      rw [(identifiers_spelled all rfl spelled).1]
      exact few
    rcases (parser_bounded from_.ends hash32 symbolFuel).2.2 from_.texts few'
      enough [] with ⟨tree, after, returns⟩
    have parsed := parseExpression_parsed from_.ends returns
    have position := (sentence _ _ _ _ returns (fun _ _ => True)
      fun _ _ _ _ => trivial).1
    have reached := parsed.advances.standing.table
    rw [position] at reached
    have naming := naming_table from_.texts all rfl spelled few enough reached
    exact ⟨tree, after, returns, (sentence _ _ _ _ returns _ naming).2⟩

end Millie.Syntax
