import Millie.Syntax.Coverage

/-!
# Keywords

`LexBuffer` chooses the keywords to try by the first letter of a word and
compares them one after the other.  Without zero bytes this adds the same
token as taking all identifier characters first and classifying their text
afterwards.
-/

namespace Millie.Syntax

open Millie.Symbols

/-- A maximal run of identifier characters, classified by its text. -/
structure WordToken (buffer : ByteString) (token : MillieToken) : Prop where
  nonempty : 0 < token.length
  run : ∀ r, token.start ≤ r → r < token.start + token.length →
    ∃ c, buffer[r]? = some c ∧ isIdentifierCharacter c = true
  maximal : ∀ c, buffer[token.start + token.length]? = some c →
    isIdentifierCharacter c = false
  keyword : ∀ keyword ∈ keywords,
    (buffer.drop token.start).take token.length = keyword.str →
    token.type = keyword.token
  identifier : (∀ keyword ∈ keywords,
      (buffer.drop token.start).take token.length ≠ keyword.str) →
    token.type = .tokId

theorem classify_keyword {keyword : KeywordToken} (member : keyword ∈ keywords) :
    classify keyword.str = keyword.token := by
  have all : ∀ keyword ∈ keywords, classify keyword.str = keyword.token := by
    decide
  exact all keyword member

theorem classify_identifier {word : ByteString}
    (other : ∀ keyword ∈ keywords, word ≠ keyword.str) :
    classify word = .tokId := by
  have none : keywords.find? (·.str == word) = none := by
    rw [List.find?_eq_none]
    intro keyword member
    simpa using (other keyword member).symm
  rw [classify, none]

section

variable {buffer : ByteString} {p n : Nat} {piece : Piece} {c : UInt8}

/-- At the start of an identifier there is a word. -/
theorem Found.word_token (found : Found buffer p piece n)
    (at_ : buffer[p]? = some c) (start : isIdentifierStart c = true) :
    ∃ token : MillieToken, token.start = p ∧ token.length = n ∧
      piece = .token token.type ∧ WordToken buffer token := by
  rcases start_other start with
    ⟨noToken, notEquals, notSpace, notNewline, notComment⟩
  have same : ∀ {d : UInt8}, buffer[p]? = some d → d = c := by
    intro d here
    rw [at_] at here
    exact (Option.some.inj here).symm
  cases found with
  | word here start' pos inside stops =>
      refine ⟨⟨classify ((buffer.drop p).take n), p, n⟩, rfl, rfl, rfl, pos,
        inside, stops, ?_, ?_⟩
      · intro keyword member text
        exact (congrArg classify text).trans (classify_keyword member)
      · exact classify_identifier
  | punctuation here is =>
      rw [same here, noToken] at is
      cases is
  | arrow here => exact absurd (same here).symm notEquals
  | equals here => exact absurd (same here).symm notEquals
  | space here is =>
      rw [same here, notSpace] at is
      cases is
  | newline here => exact absurd (same here).symm notNewline
  | comment here => exact absurd (same here).symm notComment
  | number pos inside =>
      rcases inside p le_rfl (Nat.lt_add_of_pos_right pos) with
        ⟨d, here, digit⟩
      rw [same here] at digit
      rw [digit_not_start digit] at start
      cases start
  | rejected here _ _ _ _ _ notStart =>
      rw [same here, start] at notStart
      cases notStart

end

/--
Wherever the scan of a buffer without zero bytes stands at the start of an
identifier, it goes on with the token of the whole word.
-/
theorem lexStep_word {buffer : ByteString} (noZero : 0 ∉ buffer)
    {state : LexState} (reached : Reached buffer state) {c : UInt8}
    (at_ : buffer[state.ptr]? = some c) (start : isIdentifierStart c = true) :
    ∃ after token, lexStep buffer state = .ok after ∧
      after.tokens = state.tokens ++ [token] ∧
      after.ptr = state.ptr + token.length ∧ token.start = state.ptr ∧
      WordToken buffer token ∧ Reached buffer after := by
  have inside := (List.getElem?_eq_some_iff.mp at_).1
  have noHash : buffer[state.ptr]? = some (byte '#') →
      ∃ r, state.ptr < r ∧ buffer[r]? = some (byte '\n') := by
    intro hash
    rw [at_] at hash
    cases hash
    exact absurd start (by decide)
  have noOverrun : ¬BeforeZero buffer state.ptr := by
    rintro ⟨keyword, -, after, same⟩
    have zero : 0 ∈ buffer.drop state.ptr := by
      rw [same]
      exact List.mem_append_right _ List.mem_cons_self
    exact noZero (List.mem_of_mem_drop zero)
  rcases lexStep_returns inside noHash noOverrun with ⟨after, steps⟩
  rcases lexStep_found inside steps with ⟨piece, n, found, rfl, -⟩
  rcases found.word_token at_ start with ⟨token, begins, rfl, rfl, word⟩
  refine ⟨_, token, steps, ?_, LexState.after_ptr _ _ state, begins, word,
    reached.tail ⟨inside, steps⟩⟩
  rw [LexState.after_tokens, ← begins]

/-- `lets` at the start of a buffer. -/
theorem lexStep_lets : ∃ after token,
    lexStep (['l', 'e', 't', 's'].map byte) lexStart = .ok after ∧
      after.tokens = [token] ∧
      WordToken (['l', 'e', 't', 's'].map byte) token := by
  rcases lexStep_word (show 0 ∉ ['l', 'e', 't', 's'].map byte by
    decide) .refl rfl (by decide) with ⟨after, token, steps, tokens, -, -, word, -⟩
  exact ⟨after, token, steps, tokens, word⟩

end Millie.Syntax
