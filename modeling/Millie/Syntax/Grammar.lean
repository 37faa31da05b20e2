import Millie.Syntax.Parser

/-!
# The grammar

A phrase is a part of the token array, given by its first index and the index
after its last, together with its tree.  Which symbol the identifier at an index
has, and which values its integer literal may have, are parameters.
-/

namespace Millie.Syntax

open Millie.Symbols

/-- The token at an index has a type. -/
def MillieTokens.Has (source : MillieTokens) (i : Nat) (type : TokenType) :
    Prop :=
  ∃ token, source.tokenArray[i]? = some token ∧ token.type = type

theorem MillieTokens.Has.unique {source : MillieTokens} {i : Nat}
    {first second : TokenType} (left : source.Has i first)
    (right : source.Has i second) : first = second := by
  rcases left with ⟨token, at_, rfl⟩
  rcases right with ⟨other, same, rfl⟩
  rw [at_] at same
  cases same
  rfl

/-! ## Levels -/

/-- What a phrase can be; `tuple` stands for two components or more. -/
inductive Level where
  | components
  | tuple
  | expr
  | comparison
  | term
  | factor
  | unary
  | application
  | primary
deriving DecidableEq

namespace Level

/-- The level of the phrases that a phrase of the level can consist of. -/
def tighter : Level → Level
  | components | tuple => expr
  | expr => comparison
  | comparison => term
  | term => factor
  | factor => unary
  | unary => application
  | application | primary => primary

/-- The binary operators between the operands of a phrase. -/
def operators : Level → List TokenType
  | comparison => [.tokEquals]
  | term => [.tokPlus, .tokMinus]
  | factor => [.tokStar, .tokSlash]
  | _ => []

/-- The tokens after which a phrase of the level can go on. -/
def continues : Level → TokenType → Bool
  | primary, _ => false
  | application, type | unary, type => type.isPrimary
  | factor, type => type.isPrimary || factor.operators.contains type
  | term, type =>
      type.isPrimary || factor.operators.contains type ||
        term.operators.contains type
  | comparison, type | expr, type =>
      type.isPrimary || factor.operators.contains type ||
        term.operators.contains type || comparison.operators.contains type
  | components, type | tuple, type =>
      type.isPrimary || factor.operators.contains type ||
        term.operators.contains type || comparison.operators.contains type ||
        type == .tokComma

end Level

/-! ## Phrases -/

/-- The number of components from a node to the end of its tuple. -/
def spineLength : Expression → Nat
  | .tuple _ _ rest _ => spineLength rest + 1
  | _ => 1

section

variable (source : MillieTokens) (symbolAt : Nat → Symbol)
  (literal : Nat → UInt64 → Prop)

/-- The derivations of the grammar. -/
inductive Derives : Level → Nat → Expression → Nat → Prop where
  | last {i j : Nat} {first : Expression} (derives : Derives .expr i first j) :
      Derives .components i (makeTupleFinal first) j
  | more {i j : Nat} {rest : Expression} (derives : Derives .tuple i rest j) :
      Derives .components i rest j
  | tuple {i j k : Nat} {first rest : Expression}
      (head : Derives .expr i first j) (comma : source.Has j .tokComma)
      (tail : Derives .components (j + 1) rest k) :
      Derives .tuple i (makeTuple first rest (spineLength rest + 1)) k
  | let_ {i j k : Nat} {value body : Expression} (letToken : source.Has i .tokLet)
      (id : source.Has (i + 1) .tokId) (equals : source.Has (i + 2) .tokEquals)
      (bound : Derives .expr (i + 3) value j) (in_ : source.Has j .tokIn)
      (scope : Derives .expr (j + 1) body k) :
      Derives .expr i (makeLet i (symbolAt (i + 1)) value body) k
  | letrec {i j k : Nat} {value body : Expression}
      (letToken : source.Has i .tokLet) (rec_ : source.Has (i + 1) .tokRec)
      (id : source.Has (i + 2) .tokId) (equals : source.Has (i + 3) .tokEquals)
      (bound : Derives .expr (i + 4) value j) (in_ : source.Has j .tokIn)
      (scope : Derives .expr (j + 1) body k) :
      Derives .expr i (makeLetRec i (symbolAt (i + 2)) value body) k
  | if_ {i j k l : Nat} {test thenArm elseArm : Expression}
      (ifToken : source.Has i .tokIf) (condition : Derives .expr (i + 1) test j)
      (then_ : source.Has j .tokThen) (left : Derives .expr (j + 1) thenArm k)
      (else_ : source.Has k .tokElse) (right : Derives .expr (k + 1) elseArm l) :
      Derives .expr i (makeIf i test thenArm elseArm) l
  | fn {i j : Nat} {body : Expression} (fnToken : source.Has i .tokFn)
      (id : source.Has (i + 1) .tokId) (arrow : source.Has (i + 2) .tokArrow)
      (scope : Derives .expr (i + 3) body j) :
      Derives .expr i (makeLambda i (symbolAt (i + 1)) body) j
  | chain (level : Level) {i j : Nat} {expr : Expression}
      (among : level ∈ [.expr, .comparison, .term, .factor, .unary,
        .application])
      (derives : Derives level.tighter i expr j) : Derives level i expr j
  | binary {level : Level} {i j k : Nat} {operator : TokenType}
      {left right : Expression} (head : Derives level i left j)
      (between : source.Has j operator) (among : operator ∈ level.operators)
      (tail : Derives level.tighter (j + 1) right k) :
      Derives level i (makeBinary operator left right) k
  | unary {i j : Nat} {operator : TokenType} {arg : Expression}
      (sign : source.Has i operator)
      (among : operator ∈ [.tokPlus, .tokMinus])
      (derives : Derives .unary (i + 1) arg j) :
      Derives .unary i (makeUnary i operator arg) j
  | apply {i j k : Nat} {funcExpr argExpr : Expression}
      (head : Derives .application i funcExpr j)
      (tail : Derives .primary j argExpr k) :
      Derives .application i (makeApply funcExpr argExpr) k
  | false_ {i : Nat} (token : source.Has i .tokFalse) :
      Derives .primary i (makeBooleanLiteral i false) (i + 1)
  | true_ {i : Nat} (token : source.Has i .tokTrue) :
      Derives .primary i (makeBooleanLiteral i true) (i + 1)
  | integer {i : Nat} {value : UInt64} (token : source.Has i .tokIntLiteral)
      (accepted : literal i value) :
      Derives .primary i (makeIntegerLiteral i value) (i + 1)
  | identifier {i : Nat} (token : source.Has i .tokId) :
      Derives .primary i (makeIdentifier i (symbolAt i)) (i + 1)
  | parenthesis {i j : Nat} {expr : Expression}
      (opened : source.Has i .tokLParen) (derives : Derives .expr (i + 1) expr j)
      (closed : source.Has j .tokRParen) : Derives .primary i expr (j + 1)
  | parenthesized {i j : Nat} {expr : Expression}
      (opened : source.Has i .tokLParen)
      (derives : Derives .tuple (i + 1) expr j)
      (closed : source.Has j .tokRParen) : Derives .primary i expr (j + 1)

end

/-! ## Well-formed trees -/

mutual

/-- No error, no symbol zero, and tuples that are spines. -/
def WellFormed : Expression → Prop
  | .invalid _ | .error _ | .tupleFinal _ _ => False
  | .identifier _ id => id ≠ invalidSymbol
  | .integerConstant _ _ | .true_ _ | .false_ _ => True
  | .lambda _ id body => id ≠ invalidSymbol ∧ WellFormed body
  | .apply _ function argument => WellFormed function ∧ WellFormed argument
  | .let_ _ id value body | .letrec _ id value body =>
      id ≠ invalidSymbol ∧ WellFormed value ∧ WellFormed body
  | .if_ _ test thenArm elseArm =>
      WellFormed test ∧ WellFormed thenArm ∧ WellFormed elseArm
  | .binary _ _ left right => WellFormed left ∧ WellFormed right
  | .unary _ _ arg => WellFormed arg
  | .tuple _ first rest length =>
      WellFormed first ∧ Spine rest ∧ length = spineLength rest + 1

/-- The components of a tuple from a node to its end. -/
def Spine : Expression → Prop
  | .tuple _ first rest length =>
      WellFormed first ∧ Spine rest ∧ length = spineLength rest + 1
  | .tupleFinal _ first => WellFormed first
  | _ => False

end

/-- What the tree of a phrase of a level is. -/
def Level.Shape : Level → Expression → Prop
  | .components => Spine
  | .tuple => fun expr => ∃ range first rest length,
      expr = .tuple range first rest length ∧ WellFormed expr
  | _ => WellFormed

section

variable {source : MillieTokens} {symbolAt : Nat → Symbol}
  {literal : Nat → UInt64 → Prop}

/-- A phrase is not empty. -/
theorem Derives.nonempty {level : Level} {i j : Nat} {expr : Expression}
    (derives : Derives source symbolAt literal level i expr j) : i < j := by
  induction derives with
  | tuple | let_ | letrec | if_ | fn | binary | unary | apply | parenthesis
  | parenthesized => omega
  | last first ih | more rest ih | chain level among derives ih => exact ih
  | false_ | true_ | integer | identifier => exact Nat.lt_succ_self _

/-- The tree of a derivation is well formed when identifiers have symbols. -/
theorem Derives.shape {level : Level} {i j n : Nat} {expr : Expression}
    (symbols : ∀ p < n, source.Has p .tokId → symbolAt p ≠ invalidSymbol)
    (derives : Derives source symbolAt literal level i expr j)
    (inside : j ≤ n) : level.Shape expr := by
  induction derives with
  | last first ih => exact ih inside
  | more rest ih =>
      rcases ih inside with ⟨range, first, rest, length, rfl, wellFormed⟩
      exact wellFormed
  | tuple head comma tail ihHead ihTail =>
      have before := tail.nonempty
      exact ⟨_, _, _, _, rfl, ihHead (by omega), ihTail inside, rfl⟩
  | let_ letToken id equals bound in_ scope ihBound ihScope =>
      have first := bound.nonempty
      have before := scope.nonempty
      exact ⟨symbols _ (by omega) id, ihBound (by omega), ihScope inside⟩
  | letrec letToken rec_ id equals bound in_ scope ihBound ihScope =>
      have first := bound.nonempty
      have before := scope.nonempty
      exact ⟨symbols _ (by omega) id, ihBound (by omega), ihScope inside⟩
  | if_ ifToken condition then_ left else_ right ihTest ihThen ihElse =>
      have first := left.nonempty
      have before := right.nonempty
      exact ⟨ihTest (by omega), ihThen (by omega), ihElse inside⟩
  | fn fnToken id arrow scope ih =>
      have before := scope.nonempty
      exact ⟨symbols _ (by omega) id, ih inside⟩
  | chain level among derives ih =>
      have inner := ih inside
      simp only [List.mem_cons, List.not_mem_nil, or_false] at among
      rcases among with rfl | rfl | rfl | rfl | rfl | rfl
      all_goals exact inner
  | @binary level i j k operator left right head between among tail ihHead
      ihTail =>
      have before := tail.nonempty
      have leftShape := ihHead (by omega)
      have rightShape := ihTail inside
      cases level with
      | comparison | term | factor => exact ⟨leftShape, rightShape⟩
      | _ => cases among
  | unary sign among arg ih => exact ih inside
  | apply head tail ihHead ihTail =>
      have before := tail.nonempty
      exact ⟨ihHead (by omega), ihTail inside⟩
  | false_ | true_ | integer => trivial
  | identifier token => exact symbols _ (by omega) token
  | parenthesis opened inner closed ih => exact ih (by omega)
  | parenthesized opened inner closed ih =>
      rcases ih (by omega) with ⟨range, first, rest, length, rfl, wellFormed⟩
      exact wellFormed

end

end Millie.Syntax
