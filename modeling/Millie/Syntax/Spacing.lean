import Millie.Syntax.Coverage
import Mathlib.Data.List.Forall2

/-!
# Lexemes with space between them

Before a blank, a comment or the end of the buffer, the text of a token is the
piece at the front, and blanks and comments leave no token.  So `LexBuffer`
reads a sequence of lexemes back however they are spaced.
-/

namespace Millie.Syntax

open Millie.Symbols

/-! ## Lexemes -/

/-- The text of a token and its type. -/
structure Lexeme where
  text : ByteString
  type : TokenType

/-- The text of the tokens that are always spelled the same. -/
def spelling : TokenType → ByteString
  | .tokTrue => ['t', 'r', 'u', 'e'].map byte
  | .tokFalse => ['f', 'a', 'l', 's', 'e'].map byte
  | .tokLParen => ['('].map byte
  | .tokPlus => ['+'].map byte
  | .tokMinus => ['-'].map byte
  | .tokRParen => [')'].map byte
  | .tokFn => ['f', 'n'].map byte
  | .tokIf => ['i', 'f'].map byte
  | .tokIn => ['i', 'n'].map byte
  | .tokStar => ['*'].map byte
  | .tokSlash => ['/'].map byte
  | .tokEquals => ['='].map byte
  | .tokArrow => ['=', '>'].map byte
  | .tokLet => ['l', 'e', 't'].map byte
  | .tokRec => ['r', 'e', 'c'].map byte
  | .tokThen => ['t', 'h', 'e', 'n'].map byte
  | .tokElse => ['e', 'l', 's', 'e'].map byte
  | .tokComma => [','].map byte
  | .tokEof | .tokId | .tokIntLiteral => []

/-- The lexeme of such a token. -/
def Lexeme.fixed (type : TokenType) : Lexeme :=
  ⟨spelling type, type⟩

/-- The text of an identifier, which is no keyword. -/
structure Identifier where
  text : ByteString
  starts : ∃ c ∈ text.head?, isIdentifierStart c = true
  characters : ∀ c ∈ text, isIdentifierCharacter c = true
  fresh : ∀ keyword ∈ keywords, keyword.str ≠ text

/-- The lexeme of an identifier. -/
def Identifier.lexeme (id : Identifier) : Lexeme :=
  ⟨id.text, .tokId⟩

/-! ## Reading one lexeme -/

/-- A blank or a comment comes first, or nothing does. -/
def BlankFirst (rest : ByteString) : Prop :=
  ∀ c ∈ rest.head?, isSpace c = true ∨ c = byte '\n' ∨ c = byte '#'

/-- Before a blank, the lexeme is the piece at the front. -/
structure Lexeme.Reads (lexeme : Lexeme) : Prop where
  nonempty : lexeme.text ≠ []
  piece : ∀ rest, BlankFirst rest →
    nextPiece (lexeme.text ++ rest) = (.token lexeme.type, lexeme.text.length)
  safe : ∀ rest, BlankFirst rest → ¬Escapes (lexeme.text ++ rest)

section

variable {text rest : ByteString} {c : UInt8}

theorem BlankFirst.nil : BlankFirst [] := by
  simp [BlankFirst]

theorem BlankFirst.not_character (blank : BlankFirst rest) :
    ∀ c ∈ rest.head?, isIdentifierCharacter c = false := by
  intro c first
  by_contra character
  rw [Bool.not_eq_false] at character
  rcases character_not_blank character with ⟨notSpace, notNewline⟩
  rcases blank c first with space | newline | rfl
  · rw [notSpace] at space
    cases space
  · exact notNewline newline
  · exact absurd character (by decide)

theorem BlankFirst.takeWhile {kind : UInt8 → Bool} (blank : BlankFirst rest)
    (kinds : ∀ c, kind c = true → isIdentifierCharacter c = true) :
    rest.takeWhile kind = [] := by
  cases rest with
  | nil => rfl
  | cons c rest =>
      have other := blank.not_character c rfl
      rw [List.takeWhile_cons_of_neg]
      intro is
      rw [kinds c is] at other
      cases other

/-- Identifier characters before a blank are the word at the front. -/
theorem wordOf_before (characters : ∀ c ∈ text, isIdentifierCharacter c = true)
    (blank : BlankFirst rest) : wordOf (text ++ rest) = text :=
  (wordOf_append rest characters).mpr blank.not_character

/-- Before a blank, no keyword is followed by a zero byte. -/
theorem not_overruns (characters : ∀ c ∈ text, isIdentifierCharacter c = true)
    (blank : BlankFirst rest) : ¬Overruns (text ++ rest) := by
  rintro ⟨keyword, member, after, same⟩
  have word : wordOf (keyword.str ++ 0 :: after) = keyword.str := by
    refine (wordOf_append _ (keywords_characters keyword member)).mpr ?_
    intro c zero
    cases zero
    decide
  rw [← same, wordOf_before characters blank] at word
  rw [word] at same
  have zero := List.append_cancel_left same
  have first := blank 0 (by rw [zero]; rfl)
  revert first
  decide

theorem not_escapes (characters : ∀ c ∈ text, isIdentifierCharacter c = true)
    (nonempty : text ≠ []) (blank : BlankFirst rest) :
    ¬Escapes (text ++ rest) := by
  rintro (⟨comment, -⟩ | overruns)
  · cases text with
    | nil => exact nonempty rfl
    | cons c text =>
        cases comment
        exact absurd (characters _ List.mem_cons_self) (by decide)
  · exact not_overruns characters blank overruns

/-- Other text does not begin with a keyword. -/
theorem not_overruns_other (other : isIdentifierCharacter c = false) :
    ¬Overruns (c :: rest) := by
  rintro ⟨keyword, member, after, same⟩
  have nonempty : ∀ keyword ∈ keywords, keyword.str ≠ [] := by decide
  cases str : keyword.str with
  | nil => exact nonempty keyword member str
  | cons d str' =>
      rw [str] at same
      cases same
      have character := keywords_characters keyword member c
        (str ▸ List.mem_cons_self)
      rw [other] at character
      cases character

theorem not_escapes_other (other : isIdentifierCharacter c = false)
    (notComment : c ≠ byte '#') : ¬Escapes (c :: rest) := by
  rintro (⟨comment, -⟩ | overruns)
  · exact notComment (Option.some.inj comment)
  · exact not_overruns_other other overruns

end

/-- A word with the type that its text has. -/
theorem Lexeme.Reads.word {text : ByteString} {type : TokenType}
    (starts : ∃ c ∈ text.head?, isIdentifierStart c = true)
    (characters : ∀ c ∈ text, isIdentifierCharacter c = true)
    (classified : classify text = type) : Lexeme.Reads ⟨text, type⟩ := by
  rcases starts with ⟨c, first, start⟩
  cases text with
  | nil => cases first
  | cons d text =>
      cases first
      constructor
      · exact List.cons_ne_nil _ _
      · intro rest blank
        have word := wordOf_before characters blank
        rcases start_other start with
          ⟨noToken, notEquals, notSpace, notNewline, notComment⟩
        show nextPiece (c :: (text ++ rest)) = _
        rw [nextPiece, noToken]
        dsimp only
        rw [if_neg notEquals, notSpace, if_neg Bool.false_ne_true,
          if_neg notNewline, if_neg notComment, if_pos start, ← List.cons_append,
          word, classified]
      · intro rest blank
        exact not_escapes characters (List.cons_ne_nil _ _) blank

/-- Text of one character that is a token. -/
theorem Lexeme.Reads.punctuation {c : UInt8} {type : TokenType}
    (is : Syntax.punctuation c = some type)
    (other : isIdentifierCharacter c = false) : Lexeme.Reads ⟨[c], type⟩ := by
  constructor
  · exact List.cons_ne_nil _ _
  · intro rest blank
    show nextPiece (c :: rest) = _
    rw [nextPiece, is]
    rfl
  · intro rest blank
    refine not_escapes_other other ?_
    rintro rfl
    cases is

theorem Lexeme.Reads.equals : (Lexeme.fixed .tokEquals).Reads := by
  constructor
  · exact List.cons_ne_nil _ _
  · intro rest blank
    have notArrow : rest.head? ≠ some (byte '>') := by
      intro arrow
      have first := blank _ arrow
      revert first
      decide
    show nextPiece (byte '=' :: rest) = _
    have noToken : Syntax.punctuation (byte '=') = none := by decide
    rw [nextPiece, noToken]
    dsimp only
    rw [if_pos rfl, if_neg notArrow]
    rfl
  · intro rest blank
    exact not_escapes_other (by decide) (by decide)

theorem Lexeme.Reads.arrow : (Lexeme.fixed .tokArrow).Reads := by
  constructor
  · exact List.cons_ne_nil _ _
  · intro rest blank
    have noToken : Syntax.punctuation (byte '=') = none := by decide
    show nextPiece (byte '=' :: byte '>' :: rest) = _
    rw [nextPiece, noToken]
    rfl
  · intro rest blank
    exact not_escapes_other (by decide) (by decide)

/-- The tokens with one spelling. -/
def HasSpelling (type : TokenType) : Prop :=
  type ≠ .tokEof ∧ type ≠ .tokId ∧ type ≠ .tokIntLiteral

instance (type : TokenType) : Decidable (HasSpelling type) :=
  inferInstanceAs (Decidable (_ ∧ _ ∧ _))

theorem Lexeme.Reads.fixed {type : TokenType} (spelled : HasSpelling type) :
    (Lexeme.fixed type).Reads := by
  cases type with
  | tokEof => exact absurd rfl spelled.1
  | tokId => exact absurd rfl spelled.2.1
  | tokIntLiteral => exact absurd rfl spelled.2.2
  | tokEquals => exact .equals
  | tokArrow => exact .arrow
  | tokLParen | tokPlus | tokMinus | tokRParen | tokStar | tokSlash
  | tokComma => exact .punctuation (by decide) (by decide)
  | tokTrue | tokFalse | tokFn | tokIf | tokIn | tokLet | tokRec | tokThen
  | tokElse =>
      exact .word ⟨_, rfl, by decide⟩ (by decide +kernel) (by decide +kernel)

theorem Identifier.classified (id : Identifier) : classify id.text = .tokId := by
  have missing : keywords.find? (·.str == id.text) = none := by
    refine List.find?_eq_none.mpr fun keyword member same => ?_
    exact id.fresh keyword member (beq_iff_eq.mp same)
  rw [classify, missing]

theorem Identifier.reads (id : Identifier) : id.lexeme.Reads :=
  .word id.starts id.characters id.classified

/-- No other case of the switch is for a digit. -/
theorem digit_other {c : UInt8} (digit : isDigit c = true) :
    punctuation c = none ∧ c ≠ byte '=' ∧ isSpace c = false ∧
      c ≠ byte '\n' ∧ c ≠ byte '#' := by
  have character := digit_character digit
  have blank := character_not_blank character
  have other : ∀ d : UInt8, isDigit d = false → c ≠ d := by
    rintro d isNot rfl
    rw [digit] at isNot
    cases isNot
  refine ⟨?_, other _ (by decide), blank.1, blank.2, other _ (by decide)⟩
  simp only [punctuation]
  split_ifs with is is is is is is is
  all_goals first | rfl | exact absurd is (other _ (by decide))

/-- A string of digits. -/
theorem Lexeme.Reads.number {text : ByteString} (nonempty : text ≠ [])
    (digits : ∀ c ∈ text, isDigit c = true) :
    Lexeme.Reads ⟨text, .tokIntLiteral⟩ := by
  have characters : ∀ c ∈ text, isIdentifierCharacter c = true :=
    fun c member => digit_character (digits c member)
  cases text with
  | nil => exact absurd rfl nonempty
  | cons c text =>
      constructor
      · exact nonempty
      · intro rest blank
        have all : (c :: (text ++ rest)).takeWhile isDigit = c :: text := by
          rw [← List.cons_append, List.takeWhile_append_of_pos digits,
            blank.takeWhile fun c => digit_character, List.append_nil]
        have digit := digits c List.mem_cons_self
        rcases digit_other digit with
          ⟨noToken, notEquals, notSpace, notNewline, notComment⟩
        show nextPiece (c :: (text ++ rest)) = _
        rw [nextPiece, noToken]
        dsimp only
        rw [if_neg notEquals, notSpace, if_neg Bool.false_ne_true,
          if_neg notNewline, if_neg notComment, digit_not_start digit,
          if_neg Bool.false_ne_true, if_pos digit, all]
      · intro rest blank
        exact not_escapes characters nonempty blank

/-! ## Passing over text -/

/-- The scan goes on over a number of characters without an error. -/
structure Scans (buffer : ByteString) (state after : LexState)
    (count : Nat) : Prop where
  rounds : ∃ rounds ≤ count, ∀ fuel,
    lexLoop buffer (rounds + fuel) state = lexLoop buffer fuel after
  ptr : after.ptr = state.ptr + count
  errors : after.errors = state.errors
  calm : after.errorStart = none

section

variable {buffer rest : ByteString} {state middle after : LexState}
  {c : UInt8} {first second count : Nat}

theorem Scans.refl (calm : state.errorStart = none) :
    Scans buffer state state 0 :=
  ⟨⟨0, le_rfl, fun fuel => by rw [Nat.zero_add]⟩, rfl, rfl, calm⟩

theorem Scans.trans (left : Scans buffer state middle first)
    (right : Scans buffer middle after second) :
    Scans buffer state after (first + second) := by
  rcases left.rounds with ⟨leftRounds, leftLe, leftRuns⟩
  rcases right.rounds with ⟨rightRounds, rightLe, rightRuns⟩
  refine ⟨⟨leftRounds + rightRounds, by omega, fun fuel => ?_⟩, ?_,
    right.errors.trans left.errors, right.calm⟩
  · rw [Nat.add_assoc, leftRuns, rightRuns]
  · rw [right.ptr, left.ptr, Nat.add_assoc]

/-- One round of the scan passes the piece at the front. -/
theorem scans_piece {piece : Piece} (calm : state.errorStart = none)
    (at_ : buffer.drop state.ptr = c :: rest) (safe : ¬Escapes (c :: rest))
    (found : nextPiece (c :: rest) = (piece, count)) (pos : 0 < count)
    (other : piece ≠ .rejected) :
    Scans buffer state (state.after piece count) count := by
  have inside : state.ptr < buffer.length := by
    have length := length_of_drop at_
    omega
  have step : lexStep buffer state = .ok (state.after piece count) := by
    rw [lexStep, lexSwitch_eq at_ safe, found]
    rfl
  have quiet := LexState.after_other other count state
  rw [calm] at quiet
  refine ⟨⟨1, pos, fun fuel => ?_⟩, LexState.after_ptr piece count state,
    by simpa using quiet.1, quiet.2⟩
  rw [Nat.add_comm, lexLoop, if_pos inside, step]
  rfl

theorem Lexeme.Reads.passes {lexeme : Lexeme} (reads : lexeme.Reads)
    (calm : state.errorStart = none)
    (at_ : buffer.drop state.ptr = lexeme.text ++ rest)
    (blank : BlankFirst rest) :
    ∃ after, Scans buffer state after lexeme.text.length ∧
      after.tokens = state.tokens ++
        [⟨lexeme.type, state.ptr, lexeme.text.length⟩] := by
  have pos := List.length_pos_iff.mpr reads.nonempty
  have found := reads.piece rest blank
  have safe := reads.safe rest blank
  cases text : lexeme.text ++ rest with
  | nil => exact absurd (List.append_eq_nil_iff.mp text).1 reads.nonempty
  | cons c tail =>
      rw [text] at at_ found safe
      exact ⟨_, scans_piece calm at_ safe found pos nofun,
        LexState.after_tokens _ _ state⟩

/-- Text that leaves no token. -/
def Gap (text : ByteString) : Prop :=
  ∀ ⦃buffer rest : ByteString⦄ ⦃state : LexState⦄,
    state.errorStart = none → buffer.drop state.ptr = text ++ rest →
      ∃ after, Scans buffer state after text.length ∧
        after.tokens = state.tokens

theorem Gap.nil : Gap [] :=
  fun _ _ state calm _ => ⟨state, .refl calm, rfl⟩

theorem Gap.append {left right : ByteString} (leftGap : Gap left)
    (rightGap : Gap right) : Gap (left ++ right) := by
  intro buffer rest state calm at_
  rw [List.append_assoc] at at_
  rcases leftGap calm at_ with ⟨middle, passed, same⟩
  have further : buffer.drop middle.ptr = right ++ rest := by
    rw [passed.ptr, ← List.drop_drop, at_, List.drop_left]
  rcases rightGap passed.calm further with ⟨after, more, still⟩
  refine ⟨after, ?_, still.trans same⟩
  rw [List.length_append]
  exact passed.trans more

theorem Gap.blank (blank : isSpace c = true ∨ c = byte '\n') : Gap [c] := by
  intro buffer rest state calm at_
  rcases blank with space | rfl
  · have found : nextPiece (c :: rest) = (.space, 1) := by
      rcases isSpace_iff.mp space with rfl | rfl | rfl
      all_goals rfl
    have safe : ¬Escapes (c :: rest) := by
      rcases isSpace_iff.mp space with rfl | rfl | rfl
      all_goals exact not_escapes_other (by decide) (by decide)
    exact ⟨_, scans_piece calm at_ safe found Nat.one_pos nofun,
      LexState.after_tokens _ _ state⟩
  · have found : nextPiece (byte '\n' :: rest) = (.newline, 1) := rfl
    have safe : ¬Escapes (byte '\n' :: rest) :=
      not_escapes_other (by decide) (by decide)
    exact ⟨_, scans_piece calm at_ safe found Nat.one_pos nofun,
      LexState.after_tokens _ _ state⟩

theorem Gap.blanks {text : ByteString}
    (blank : ∀ c ∈ text, isSpace c = true ∨ c = byte '\n') : Gap text := by
  induction text with
  | nil => exact .nil
  | cons c text ih =>
      rcases List.forall_mem_cons.mp blank with ⟨first, others⟩
      exact (Gap.blank first).append (ih others)

/-- A comment is passed up to its newline, which is a piece of its own. -/
theorem Gap.comment {text : ByteString} (line : byte '\n' ∉ text) :
    Gap (byte '#' :: (text ++ [byte '\n'])) := by
  intro buffer rest state calm at_
  have all : ∀ c ∈ byte '#' :: text, (c != byte '\n') = true := by
    intro c member
    rw [bne_iff_ne]
    rintro rfl
    rcases List.mem_cons.mp member with same | inText
    · exact absurd same (by decide)
    · exact line inText
  have front : (byte '#' :: (text ++ byte '\n' :: rest)).takeWhile
      (· != byte '\n') = byte '#' :: text := by
    rw [← List.cons_append, List.takeWhile_append_of_pos all,
      List.takeWhile_cons_of_neg (by simp), List.append_nil]
  have found : nextPiece (byte '#' :: (text ++ byte '\n' :: rest)) =
      (.comment, text.length + 1) := by
    have kinds : punctuation (byte '#') = none ∧ byte '#' ≠ byte '=' ∧
        isSpace (byte '#') = false ∧ byte '#' ≠ byte '\n' := by
      decide
    rcases kinds with ⟨noToken, notEquals, notSpace, notNewline⟩
    rw [nextPiece, noToken]
    dsimp only
    rw [if_neg notEquals, notSpace, if_neg Bool.false_ne_true,
      if_neg notNewline, if_pos rfl, front, List.length_cons]
  have safe : ¬Escapes (byte '#' :: (text ++ byte '\n' :: rest)) := by
    rintro (⟨-, never⟩ | overruns)
    · exact never (by simp)
    · exact not_overruns_other (by decide) overruns
  have at' : buffer.drop state.ptr =
      byte '#' :: (text ++ byte '\n' :: rest) := by
    simpa using at_
  have passed := scans_piece calm at' safe found (Nat.succ_pos _)
    (by simp)
  have same := LexState.after_tokens .comment (text.length + 1) state
  have further :
      buffer.drop (state.after .comment (text.length + 1)).ptr =
        [byte '\n'] ++ rest := by
    rw [passed.ptr, ← List.drop_drop, at']
    simp
  rcases Gap.blank (.inr rfl) passed.calm further with ⟨after, more, still⟩
  refine ⟨after, ?_, still.trans same⟩
  simpa using passed.trans more

end

/-! ## The scan of spaced lexemes -/

/-- Lexemes one after the other, with gaps that end them. -/
inductive Spacing : List Lexeme → ByteString → Prop where
  | nil : Spacing [] []
  | cons {lexeme : Lexeme} {lexemes : List Lexeme} {gap text : ByteString}
      (reads : lexeme.Reads) (isGap : Gap gap)
      (blank : BlankFirst (gap ++ text)) (rest : Spacing lexemes text) :
      Spacing (lexeme :: lexemes) (lexeme.text ++ (gap ++ text))

/-- A token of a buffer is a lexeme. -/
structure Spells (buffer : ByteString) (token : MillieToken) (lexeme : Lexeme) :
    Prop where
  type : token.type = lexeme.type
  text : (buffer.drop token.start).take token.length = lexeme.text

/-- The scan finds the lexemes and nothing else. -/
theorem Spacing.passes {lexemes : List Lexeme} {text buffer : ByteString}
    {state : LexState} (spacing : Spacing lexemes text)
    (calm : state.errorStart = none) (at_ : buffer.drop state.ptr = text) :
    ∃ after tokens, Scans buffer state after text.length ∧
      after.tokens = state.tokens ++ tokens ∧
      List.Forall₂ (Spells buffer) tokens lexemes := by
  induction spacing generalizing state with
  | nil =>
      exact ⟨state, [], .refl calm, (List.append_nil _).symm, .nil⟩
  | @cons lexeme lexemes gap text reads isGap blank rest ih =>
      rcases reads.passes calm at_ blank with ⟨middle, passed, added⟩
      have afterToken : buffer.drop middle.ptr = gap ++ text := by
        rw [passed.ptr, ← List.drop_drop, at_, List.drop_left]
      rcases isGap passed.calm afterToken with ⟨next, skipped, same⟩
      have afterGap : buffer.drop next.ptr = text := by
        rw [skipped.ptr, ← List.drop_drop, afterToken, List.drop_left]
      rcases ih skipped.calm afterGap with
        ⟨after, tokens, further, more, spelled⟩
      refine ⟨after, ⟨lexeme.type, state.ptr, lexeme.text.length⟩ :: tokens,
        ?_, ?_, .cons ⟨rfl, ?_⟩ spelled⟩
      · rw [List.length_append, List.length_append]
        exact passed.trans (skipped.trans further)
      · rw [more, same, added, List.append_assoc]
        rfl
      · rw [at_, List.take_left]

/-- `LexBuffer` reads spaced lexemes back and reports no error. -/
theorem Spacing.lexBuffer {lexemes : List Lexeme} {text : ByteString}
    (spacing : Spacing lexemes text) :
    ∃ source tokens, lexBuffer text = .ok (source, []) ∧
      source.buffer = text ∧
      source.tokenArray = tokens ++ [⟨.tokEof, text.length, 0⟩] ∧
      List.Forall₂ (Spells source.buffer) tokens lexemes := by
  have start : text.drop lexStart.ptr = text := rfl
  rcases spacing.passes rfl start with
    ⟨after, tokens, passed, added, spelled⟩
  rcases passed.rounds with ⟨rounds, le, runs⟩
  have ended : ¬after.ptr < text.length := by
    rw [passed.ptr, lexStart]
    omega
  have loop : lexLoop text (text.length + 1) lexStart = .ok after := by
    obtain ⟨fuel, enough⟩ : ∃ fuel, text.length + 1 = rounds + (fuel + 1) :=
      ⟨text.length - rounds, by omega⟩
    rw [enough, runs, lexLoop, if_neg ended]
  have tokensEq : after.tokens = tokens := added
  have errorsEq : after.errors = [] := passed.errors
  refine ⟨⟨tokens ++ [⟨.tokEof, text.length, 0⟩], after.lines, text⟩, tokens,
    ?_, rfl, rfl, spelled⟩
  rw [Syntax.lexBuffer, loop, Stop.ok_bind, tokensEq, errorsEq]
  rfl

/-! ## Rendering tokens -/

/-- The lexemes of the language. -/
inductive IsToken : Lexeme → Prop where
  | fixed {type : TokenType} (spelled : HasSpelling type) :
      IsToken (.fixed type)
  | number {text : ByteString} (nonempty : text ≠ [])
      (digits : ∀ c ∈ text, isDigit c = true) :
      IsToken ⟨text, .tokIntLiteral⟩
  | identifier (id : Identifier) : IsToken id.lexeme

theorem IsToken.reads {lexeme : Lexeme} (is : IsToken lexeme) :
    lexeme.Reads := by
  cases is with
  | fixed spelled => exact .fixed spelled
  | number nonempty digits => exact .number nonempty digits
  | identifier id => exact id.reads

/-- What may stand between tokens. -/
inductive Trivia where
  | space
  | tab
  | carriageReturn
  | newline
  | comment (text : ByteString) (line : byte '\n' ∉ text)

/-- The characters of a piece of trivia. -/
def Trivia.text : Trivia → ByteString
  | space => [byte ' ']
  | tab => [byte '\t']
  | carriageReturn => [byte '\r']
  | newline => [byte '\n']
  | comment text _ => byte '#' :: (text ++ [byte '\n'])

theorem Trivia.gap (trivia : Trivia) : Gap trivia.text := by
  cases trivia with
  | comment text line => exact .comment line
  | _ => exact .blank (by decide)

theorem Trivia.blankFirst (trivia : Trivia) (rest : ByteString) :
    BlankFirst (trivia.text ++ rest) := by
  cases trivia with
  | _ => simp [BlankFirst, text, isSpace]

/-- A non-empty run of trivia. -/
structure Separator where
  trivia : List Trivia
  nonempty : trivia ≠ []

/-- The characters of a separator. -/
def Separator.text (separator : Separator) : ByteString :=
  separator.trivia.flatMap Trivia.text

theorem Trivia.gaps (trivia : List Trivia) :
    Gap (trivia.flatMap Trivia.text) := by
  induction trivia with
  | nil => exact .nil
  | cons first trivia ih =>
      rw [List.flatMap_cons]
      exact first.gap.append ih

theorem Separator.gap (separator : Separator) : Gap separator.text :=
  Trivia.gaps separator.trivia

theorem Separator.blankFirst (separator : Separator) (rest : ByteString) :
    BlankFirst (separator.text ++ rest) := by
  rcases separator with ⟨_ | ⟨first, trivia⟩, nonempty⟩
  · exact absurd rfl nonempty
  · rw [text, List.flatMap_cons, List.append_assoc]
    exact first.blankFirst _

/-- The texts of some tokens, with separators between them. -/
def renderTokens : List Lexeme → (Nat → Separator) → ByteString
  | [], _ => []
  | [lexeme], _ => lexeme.text
  | lexeme :: next :: lexemes, separators =>
      lexeme.text ++ ((separators 0).text ++
        renderTokens (next :: lexemes) fun i => separators (i + 1))

theorem spacing_renderTokens {lexemes : List Lexeme}
    (tokens : ∀ lexeme ∈ lexemes, IsToken lexeme)
    (separators : Nat → Separator) :
    Spacing lexemes (renderTokens lexemes separators) := by
  induction lexemes generalizing separators with
  | nil => exact .nil
  | cons lexeme lexemes ih =>
      rcases List.forall_mem_cons.mp tokens with ⟨first, others⟩
      have rest := ih others fun i => separators (i + 1)
      cases lexemes with
      | nil =>
          have alone : Spacing [lexeme] (lexeme.text ++ ([] ++ [])) :=
            .cons first.reads .nil .nil .nil
          simpa [renderTokens] using alone
      | cons next lexemes =>
          exact .cons first.reads (separators 0).gap
            ((separators 0).blankFirst _) rest

/--
Whatever tokens are written out with whatever separators between them,
`LexBuffer` gives their types and texts back, in order, and one end of file.
-/
theorem lexBuffer_renderTokens
    (lexemes : List { lexeme : Lexeme // IsToken lexeme })
    (separators : Nat → Separator) :
    ∃ source tokens,
      lexBuffer (renderTokens (lexemes.map Subtype.val) separators) =
          .ok (source, []) ∧
        source.buffer = renderTokens (lexemes.map Subtype.val) separators ∧
        source.tokenArray =
          tokens ++ [⟨.tokEof, source.buffer.length, 0⟩] ∧
        List.Forall₂ (Spells source.buffer) tokens
          (lexemes.map Subtype.val) := by
  have tokens : ∀ lexeme ∈ lexemes.map Subtype.val, IsToken lexeme := by
    intro lexeme member
    rcases List.mem_map.mp member with ⟨token, -, rfl⟩
    exact token.2
  rcases (spacing_renderTokens tokens separators).lexBuffer with
    ⟨source, found, lexes, same, all, spelled⟩
  exact ⟨source, found, lexes, same, by rw [same]; exact all, spelled⟩

end Millie.Syntax
