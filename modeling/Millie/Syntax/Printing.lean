import Millie.Syntax.Spacing

/-!
# Printing

Abstract expressions have no positions and no symbols.  They are printed as a
list of lexemes, with every compound operand in parentheses, and the lexemes are
then spaced by blanks; a tuple is in parentheses of its own.  `LexBuffer` reads
the lexemes back from that text.
-/

namespace Millie.Syntax

open Millie.Symbols

/-! ## Abstract expressions -/

/-- The unary operators. -/
abbrev Sign : Type :=
  { type : TokenType // type ∈ [.tokPlus, .tokMinus] }

/-- The binary operators. -/
abbrev Operator : Type :=
  { type : TokenType //
    type ∈ [.tokPlus, .tokMinus, .tokStar, .tokSlash, .tokEquals] }

mutual

/-- An expression of the language. -/
inductive Abstract where
  | identifier (id : Identifier)
  | integer (value : UInt64)
  | true_
  | false_
  | unary (operator : Sign) (arg : Abstract)
  | binary (operator : Operator) (left right : Abstract)
  | apply (function argument : Abstract)
  | fn (id : Identifier) (body : Abstract)
  | let_ (id : Identifier) (value body : Abstract)
  | letrec (id : Identifier) (value body : Abstract)
  | if_ (test thenArm elseArm : Abstract)
  | tuple (first : Abstract) (rest : Components)

/-- The components of a tuple after the first. -/
inductive Components where
  | last (component : Abstract)
  | more (component : Abstract) (rest : Components)

end

/-- The number of components. -/
def Components.length : Components → Nat
  | .last _ => 1
  | .more _ rest => rest.length + 1

/-- Whether the text of an expression has to be enclosed as an operand. -/
def Abstract.isCompound : Abstract → Bool
  | .identifier _ | .integer _ | .true_ | .false_ | .tuple _ _ => false
  | _ => true

/-! ## Lexemes -/

/-- The lexeme of an integer literal. -/
def Lexeme.decimal (value : UInt64) : Lexeme :=
  ⟨(Nat.toDigits 10 value.toNat).map byte, .tokIntLiteral⟩

/-- The lexemes of an expression as an operand, from those it has alone. -/
def Abstract.enclose (expr : Abstract) (lexemes : List Lexeme) : List Lexeme :=
  if expr.isCompound then
    .fixed .tokLParen :: (lexemes ++ [.fixed .tokRParen])
  else lexemes

mutual

/-- The lexemes of an expression. -/
@[simp]
def Abstract.lexemes : Abstract → List Lexeme
  | .identifier id => [id.lexeme]
  | .integer value => [.decimal value]
  | .true_ => [.fixed .tokTrue]
  | .false_ => [.fixed .tokFalse]
  | .unary operator arg => .fixed operator :: arg.enclose arg.lexemes
  | .binary operator left right =>
      left.enclose left.lexemes ++
        .fixed operator :: right.enclose right.lexemes
  | .apply function argument =>
      function.enclose function.lexemes ++ argument.enclose argument.lexemes
  | .fn id body =>
      .fixed .tokFn :: id.lexeme :: .fixed .tokArrow ::
        body.enclose body.lexemes
  | .let_ id value body =>
      .fixed .tokLet :: id.lexeme :: .fixed .tokEquals ::
        (value.enclose value.lexemes ++
          .fixed .tokIn :: body.enclose body.lexemes)
  | .letrec id value body =>
      .fixed .tokLet :: .fixed .tokRec :: id.lexeme :: .fixed .tokEquals ::
        (value.enclose value.lexemes ++
          .fixed .tokIn :: body.enclose body.lexemes)
  | .if_ test thenArm elseArm =>
      .fixed .tokIf :: (test.enclose test.lexemes ++
        .fixed .tokThen :: (thenArm.enclose thenArm.lexemes ++
          .fixed .tokElse :: elseArm.enclose elseArm.lexemes))
  | .tuple first rest =>
      .fixed .tokLParen :: (first.enclose first.lexemes ++
        .fixed .tokComma :: (rest.lexemes ++ [.fixed .tokRParen]))

/-- The lexemes of some components, with commas between them. -/
@[simp]
def Components.lexemes : Components → List Lexeme
  | .last component => component.enclose component.lexemes
  | .more component rest =>
      component.enclose component.lexemes ++ .fixed .tokComma :: rest.lexemes

end

/-- The lexemes of an expression as an operand. -/
def Abstract.operand (expr : Abstract) : List Lexeme :=
  expr.enclose expr.lexemes

/-! ## Text -/

/-- Text between two tokens. -/
structure Blank where
  text : ByteString
  nonempty : text ≠ []
  blank : ∀ c ∈ text, isSpace c = true ∨ c = byte '\n'

/-- Lexemes, each followed by a blank. -/
def spaced (blank : Blank) (lexemes : List Lexeme) : ByteString :=
  lexemes.flatMap fun lexeme => lexeme.text ++ blank.text

/-- The text of an expression. -/
def Abstract.render (blank : Blank) (expr : Abstract) : ByteString :=
  spaced blank expr.lexemes

/-! ## Integer literals -/

theorem decimal_digit {n : Nat} {c : Char} (member : c ∈ Nat.toDigits 10 n) :
    (byte c).toNat = c.toNat ∧ isDigit (byte c) = true := by
  have digit := Nat.isDigit_of_mem_toDigits (by decide) (by decide) member
  have bounds : 48 ≤ c.toNat ∧ c.toNat ≤ 57 := by
    simpa [Char.isDigit, UInt32.le_iff_toNat_le] using digit
  have same : (byte c).toNat = c.toNat := by
    rw [byte, UInt8.toNat_ofNat', Nat.mod_eq_of_lt]
    omega
  refine ⟨same, isDigit_iff.mpr ?_⟩
  rw [same]
  exact bounds

theorem decimal_digits (value : UInt64) :
    ∀ c ∈ (Lexeme.decimal value).text, isDigit c = true := by
  intro c member
  rcases List.mem_map.mp member with ⟨digit, inDigits, rfl⟩
  exact (decimal_digit inDigits).2

theorem Lexeme.Reads.decimal (value : UInt64) :
    (Lexeme.decimal value).Reads := by
  refine .number ?_ (decimal_digits value)
  intro empty
  exact Nat.toDigits_ne_nil (List.map_eq_nil_iff.mp empty)

/-! ## Reading all lexemes -/

theorem enclose_reads {expr : Abstract} {lexemes : List Lexeme}
    (reads : ∀ lexeme ∈ lexemes, lexeme.Reads) :
    ∀ lexeme ∈ expr.enclose lexemes, lexeme.Reads := by
  intro lexeme member
  rw [Abstract.enclose] at member
  split_ifs at member with compound
  · simp only [List.mem_cons, List.mem_append, List.not_mem_nil,
      or_false] at member
    rcases member with rfl | inside | rfl
    · exact .fixed (by decide)
    · exact reads lexeme inside
    · exact .fixed (by decide)
  · exact reads lexeme member

theorem Sign.spelled (operator : Sign) : HasSpelling operator.1 := by
  rcases operator with ⟨type, among⟩
  simp only [List.mem_cons, List.not_mem_nil, or_false] at among
  rcases among with rfl | rfl
  all_goals exact ⟨nofun, nofun, nofun⟩

theorem Operator.spelled (operator : Operator) : HasSpelling operator.1 := by
  rcases operator with ⟨type, among⟩
  simp only [List.mem_cons, List.not_mem_nil, or_false] at among
  rcases among with rfl | rfl | rfl | rfl | rfl
  all_goals exact ⟨nofun, nofun, nofun⟩

theorem forall_reads_fixed {type : TokenType} {lexemes : List Lexeme}
    (spelled : HasSpelling type) (reads : ∀ lexeme ∈ lexemes, lexeme.Reads) :
    ∀ lexeme ∈ .fixed type :: lexemes, lexeme.Reads :=
  List.forall_mem_cons.mpr ⟨.fixed spelled, reads⟩

theorem forall_reads_append {left right : List Lexeme}
    (first : ∀ lexeme ∈ left, lexeme.Reads)
    (second : ∀ lexeme ∈ right, lexeme.Reads) :
    ∀ lexeme ∈ left ++ right, lexeme.Reads :=
  List.forall_mem_append.mpr ⟨first, second⟩

mutual

/-- Every lexeme of an expression is one. -/
theorem Abstract.reads : ∀ (expr : Abstract), ∀ lexeme ∈ expr.lexemes,
    lexeme.Reads
  | .identifier id => List.forall_mem_singleton.mpr id.reads
  | .integer value => List.forall_mem_singleton.mpr (.decimal value)
  | .true_ | .false_ => List.forall_mem_singleton.mpr (.fixed (by decide))
  | .unary operator arg =>
      forall_reads_fixed operator.spelled (enclose_reads arg.reads)
  | .binary operator left right =>
      forall_reads_append (enclose_reads left.reads)
        (forall_reads_fixed operator.spelled (enclose_reads right.reads))
  | .apply function argument =>
      forall_reads_append (enclose_reads function.reads)
        (enclose_reads argument.reads)
  | .fn id body =>
      forall_reads_fixed (by decide) <| List.forall_mem_cons.mpr ⟨id.reads,
        forall_reads_fixed (by decide) (enclose_reads body.reads)⟩
  | .let_ id value body =>
      forall_reads_fixed (by decide) <| List.forall_mem_cons.mpr ⟨id.reads,
        forall_reads_fixed (by decide) <|
          forall_reads_append (enclose_reads value.reads) <|
            forall_reads_fixed (by decide) (enclose_reads body.reads)⟩
  | .letrec id value body =>
      forall_reads_fixed (by decide) <| forall_reads_fixed (by decide) <|
        List.forall_mem_cons.mpr ⟨id.reads,
          forall_reads_fixed (by decide) <|
            forall_reads_append (enclose_reads value.reads) <|
              forall_reads_fixed (by decide) (enclose_reads body.reads)⟩
  | .if_ test thenArm elseArm =>
      forall_reads_fixed (by decide) <|
        forall_reads_append (enclose_reads test.reads) <|
          forall_reads_fixed (by decide) <|
            forall_reads_append (enclose_reads thenArm.reads) <|
              forall_reads_fixed (by decide) (enclose_reads elseArm.reads)
  | .tuple first rest =>
      forall_reads_fixed (by decide) <|
        forall_reads_append (enclose_reads first.reads) <|
          forall_reads_fixed (by decide) <|
            forall_reads_append rest.reads
              (List.forall_mem_singleton.mpr (.fixed (by decide)))

theorem Components.reads : ∀ (rest : Components), ∀ lexeme ∈ rest.lexemes,
    lexeme.Reads
  | .last component => enclose_reads component.reads
  | .more component rest =>
      forall_reads_append (enclose_reads component.reads)
        (forall_reads_fixed (by decide) rest.reads)

end

/-! ## The scan of spaced lexemes -/

theorem spacing_spaced (blank : Blank) {lexemes : List Lexeme}
    (reads : ∀ lexeme ∈ lexemes, lexeme.Reads) :
    Spacing lexemes (spaced blank lexemes) := by
  induction lexemes with
  | nil => exact .nil
  | cons lexeme lexemes ih =>
      rcases List.forall_mem_cons.mp reads with ⟨first, others⟩
      have before : BlankFirst (blank.text ++ spaced blank lexemes) := by
        cases text : blank.text with
        | nil => exact absurd text blank.nonempty
        | cons c tail =>
            intro d first
            cases first
            have isBlank := blank.blank c (text ▸ List.mem_cons_self)
            exact isBlank.imp_right .inl
      rw [spaced, List.flatMap_cons, List.append_assoc]
      exact .cons first (.blanks blank.blank) before (ih others)

/-- `LexBuffer` reads the lexemes back and reports no error. -/
theorem lexBuffer_spaced (blank : Blank) {lexemes : List Lexeme}
    (reads : ∀ lexeme ∈ lexemes, lexeme.Reads) :
    ∃ source tokens, lexBuffer (spaced blank lexemes) = .ok (source, []) ∧
      source.buffer = spaced blank lexemes ∧
      source.tokenArray =
        tokens ++ [⟨.tokEof, (spaced blank lexemes).length, 0⟩] ∧
      List.Forall₂ (Spells source.buffer) tokens lexemes :=
  (spacing_spaced blank reads).lexBuffer

end Millie.Syntax
