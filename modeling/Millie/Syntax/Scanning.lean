import Millie.Syntax.Lexer
import Mathlib.Data.List.TakeWhile

/-!
# One step of the scan

What the switch of `LexBuffer` does with the characters that remain: it takes
the longest piece of one kind off their front.  Words are classified by their
whole text; the matching of keywords character by character agrees with that,
unless a keyword is followed by a zero byte.
-/

namespace Millie.Syntax

open Millie.Symbols

/-! ## Strings from a position on -/

section

variable {string rest : ByteString} {i : Nat} {c : UInt8}

theorem charAt_cons (at_ : string.drop i = c :: rest) :
    charAt string i = .ok c := by
  have found : string[i]? = some c := by
    rw [← List.head?_drop, at_]
    rfl
  simp [charAt, found]

theorem charAt_nil (at_ : string.drop i = []) (inside : i ≤ string.length) :
    charAt string i = .ok 0 := by
  have outside := List.drop_eq_nil_iff.mp at_
  simp [charAt, Nat.le_antisymm inside outside]

theorem drop_succ (at_ : string.drop i = c :: rest) :
    string.drop (i + 1) = rest := by
  rw [← List.drop_drop, at_]
  rfl

theorem length_of_drop (at_ : string.drop i = c :: rest) :
    string.length - i = rest.length + 1 := by
  rw [← List.length_drop, at_]
  rfl

end

/-! ## Characters -/

section

variable {c : UInt8}

theorem isDigit_iff :
    isDigit c = true ↔ 48 ≤ c.toNat ∧ c.toNat ≤ 57 := by
  simp [isDigit, UInt8.le_iff_toNat_le, byte]

theorem isIdentifierStart_iff :
    isIdentifierStart c = true ↔
      (65 ≤ c.toNat ∧ c.toNat ≤ 90) ∨ (97 ≤ c.toNat ∧ c.toNat ≤ 122) ∨
        c.toNat = 95 := by
  simp [isIdentifierStart, UInt8.le_iff_toNat_le, byte, ← UInt8.toNat_inj,
    or_assoc]

/-- Identifiers go on with letters, digits and quotes. -/
theorem isIdentifierCharacter_iff :
    isIdentifierCharacter c = true ↔
      isIdentifierStart c = true ∨ isDigit c = true ∨ c.toNat = 39 ∨
        c.toNat = 34 := by
  simp only [isIdentifierStart_iff, isDigit_iff]
  simp [isIdentifierCharacter, UInt8.le_iff_toNat_le, byte, ← UInt8.toNat_inj]
  omega

theorem start_character (start : isIdentifierStart c = true) :
    isIdentifierCharacter c = true :=
  isIdentifierCharacter_iff.mpr (.inl start)

theorem digit_not_start (digit : isDigit c = true) :
    isIdentifierStart c = false := by
  rw [isDigit_iff] at digit
  rw [Bool.eq_false_iff, ne_eq, isIdentifierStart_iff]
  omega

/-- An identifier does not start with any other character of the switch. -/
theorem start_other (start : isIdentifierStart c = true) :
    punctuation c = none ∧ c ≠ byte '=' ∧ isSpace c = false ∧
      c ≠ byte '\n' ∧ c ≠ byte '#' := by
  rw [isIdentifierStart_iff] at start
  have other : ∀ d : UInt8, d.toNat < 65 → c ≠ d := by
    rintro d small rfl
    omega
  refine ⟨?_, other _ (by decide), ?_, other _ (by decide),
    other _ (by decide)⟩
  · simp only [punctuation]
    split_ifs with is is is is is is is
    all_goals first | rfl | exact absurd is (other _ (by decide))
  · simp [isSpace, other (byte ' ') (by decide), other (byte '\t') (by decide),
      other (byte '\r') (by decide)]

theorem character_ne_zero (is : isIdentifierCharacter c = true) : c ≠ 0 := by
  rintro rfl
  revert is
  decide

theorem digit_character (digit : isDigit c = true) :
    isIdentifierCharacter c = true :=
  isIdentifierCharacter_iff.mpr (.inr (.inl digit))

theorem isSpace_iff :
    isSpace c = true ↔ c = byte ' ' ∨ c = byte '\t' ∨ c = byte '\r' := by
  simp [isSpace, or_assoc]

theorem character_not_blank (is : isIdentifierCharacter c = true) :
    isSpace c = false ∧ c ≠ byte '\n' := by
  constructor
  · by_contra space
    rw [Bool.not_eq_false, isSpace_iff] at space
    rcases space with rfl | rfl | rfl
    all_goals exact absurd is (by decide)
  · rintro rfl
    exact absurd is (by decide)

theorem punctuation_not_blank {type : TokenType}
    (is : punctuation c = some type) : isSpace c = false ∧ c ≠ byte '\n' := by
  constructor
  · by_contra space
    rw [Bool.not_eq_false, isSpace_iff] at space
    rcases space with rfl | rfl | rfl
    all_goals cases is
  · rintro rfl
    cases is

end

/-! ## The inner loops -/

/-- The characters of a kind at the front of the rest are all scanned. -/
theorem scanWhile_eq (kind : UInt8 → Bool) {buffer rest : ByteString}
    {ptr : Nat} (at_ : buffer.drop ptr = rest) :
    scanWhile kind buffer rest.length ptr =
      .ok (ptr + (rest.takeWhile kind).length) := by
  induction rest generalizing ptr with
  | nil => rfl
  | cons c rest ih =>
      rw [List.length_cons, scanWhile, charAt_cons at_, Stop.ok_bind]
      split
      · rename_i is
        rw [ih (drop_succ at_), List.takeWhile_cons_of_pos is, List.length_cons]
        congr 1
        omega
      · rename_i isNot
        rw [List.takeWhile_cons_of_neg isNot]
        rfl

/-- A comment extends to the next newline; without one the loop runs out. -/
theorem skipComment_eq {buffer rest : ByteString} {ptr : Nat}
    (at_ : buffer.drop ptr = rest) (inside : ptr ≤ buffer.length) :
    skipComment buffer (rest.length + 1) ptr =
      if byte '\n' ∈ rest then
        .ok (ptr + (rest.takeWhile (· != byte '\n')).length)
      else .error .undefinedBehaviour := by
  induction rest generalizing ptr with
  | nil =>
      have zero : (0 : UInt8) ≠ byte '\n' := by decide
      simp [skipComment, charAt_nil at_ inside, zero]
  | cons c rest ih =>
      rw [List.length_cons, skipComment, charAt_cons at_, Stop.ok_bind]
      have inside' : ptr + 1 ≤ buffer.length := by
        have length := length_of_drop at_
        omega
      by_cases newline : c = byte '\n'
      · simp [newline]
        rfl
      · rw [if_neg newline, ih (drop_succ at_) inside']
        have other : (c != byte '\n') = true := by simpa using newline
        simp [other, Ne.symm newline, Nat.add_assoc, Nat.add_comm]

/-! ## Keywords -/

/-- Every keyword. -/
def keywords : List KeywordToken :=
  [⟨['e', 'l', 's', 'e'].map byte, .tokElse⟩,
    ⟨['f', 'a', 'l', 's', 'e'].map byte, .tokFalse⟩,
    ⟨['f', 'n'].map byte, .tokFn⟩,
    ⟨['i', 'f'].map byte, .tokIf⟩,
    ⟨['i', 'n'].map byte, .tokIn⟩,
    ⟨['l', 'e', 't'].map byte, .tokLet⟩,
    ⟨['r', 'e', 'c'].map byte, .tokRec⟩,
    ⟨['t', 'h', 'e', 'n'].map byte, .tokThen⟩,
    ⟨['t', 'r', 'u', 'e'].map byte, .tokTrue⟩]

/-- The token of a word. -/
def classify (word : ByteString) : TokenType :=
  match keywords.find? (·.str == word) with
  | some keyword => keyword.token
  | none => .tokId

/-- The identifier characters at the front. -/
def wordOf (rest : ByteString) : ByteString :=
  rest.takeWhile isIdentifierCharacter

/-- A keyword at the front that is followed by a zero byte. -/
def Overruns (rest : ByteString) : Prop :=
  ∃ keyword ∈ keywords, ∃ after, rest = keyword.str ++ 0 :: after

theorem keywords_characters : ∀ keyword ∈ keywords,
    ∀ c ∈ keyword.str, isIdentifierCharacter c = true := by
  decide +kernel

/-- Text is the word at the front when nothing continues it. -/
theorem wordOf_append {word : ByteString} (after : ByteString)
    (characters : ∀ c ∈ word, isIdentifierCharacter c = true) :
    wordOf (word ++ after) = word ↔
      ∀ c ∈ after.head?, isIdentifierCharacter c = false := by
  rw [wordOf, List.takeWhile_append_of_pos characters]
  cases after with
  | nil => simp
  | cons c after =>
      cases is : isIdentifierCharacter c with
      | true => simp [List.takeWhile_cons_of_pos is, is]
      | false => simp [is]

section

variable {buffer rest key after : ByteString} {keyword : KeywordToken}
    {ptr keywordStr : Nat}

/-- The pointers stop at the end of a keyword. -/
theorem matchKeyword_whole {string : ByteString}
    (at_ : buffer.drop ptr = key ++ after)
    (keyAt : string.drop keywordStr = key)
    (inside : keywordStr ≤ string.length) (stops : after.head? ≠ some 0) :
    matchKeyword buffer string (key ++ after).length ptr keywordStr =
      .ok (ptr + key.length, keywordStr + key.length) := by
  induction key generalizing ptr keywordStr with
  | nil =>
      cases after with
      | nil => rfl
      | cons c after =>
          have nonzero : c ≠ 0 := fun zero => stops (congrArg some zero)
          rw [List.nil_append, List.length_cons, matchKeyword, charAt_cons at_,
            charAt_nil keyAt inside, Stop.ok_bind, Stop.ok_bind,
            if_neg nonzero]
          rfl
  | cons c key ih =>
      have inside' : keywordStr + 1 ≤ string.length := by
        have length := length_of_drop keyAt
        omega
      rw [List.cons_append, List.length_cons, matchKeyword, charAt_cons at_,
        charAt_cons keyAt, Stop.ok_bind, Stop.ok_bind, if_pos rfl,
        ih (drop_succ at_) (drop_succ keyAt) inside', List.length_cons]
      congr 2 <;> omega

/-- The pointers stop inside a keyword that is not at the front. -/
theorem matchKeyword_part {string : ByteString}
    (at_ : buffer.drop ptr = rest) (keyAt : string.drop keywordStr = key)
    (differs : ¬key <+: rest) :
    ∃ count < key.length,
      matchKeyword buffer string rest.length ptr keywordStr =
        .ok (ptr + count, keywordStr + count) := by
  induction key generalizing ptr keywordStr rest with
  | nil => exact absurd (List.nil_prefix) differs
  | cons d key ih =>
      cases rest with
      | nil => exact ⟨0, Nat.succ_pos _, rfl⟩
      | cons c rest =>
          simp only [List.length_cons]
          rw [matchKeyword, charAt_cons at_, charAt_cons keyAt, Stop.ok_bind,
            Stop.ok_bind]
          by_cases same : c = d
          · subst same
            have differs' : ¬key <+: rest := fun front =>
              differs (List.cons_prefix_cons.mpr ⟨rfl, front⟩)
            rcases ih (drop_succ at_) (drop_succ keyAt) differs' with
              ⟨count, less, stops⟩
            refine ⟨count + 1, Nat.succ_lt_succ less, ?_⟩
            rw [if_pos rfl, stops]
            congr 2 <;> omega
          · exact ⟨0, Nat.succ_pos _, if_neg same⟩

/-- Past a keyword that is followed by a zero byte, the pointers go on. -/
theorem matchKeyword_over {string : ByteString}
    (at_ : buffer.drop ptr = key ++ 0 :: after)
    (keyAt : string.drop keywordStr = key)
    (inside : keywordStr ≤ string.length) :
    matchKeyword buffer string (key ++ 0 :: after).length ptr keywordStr =
        .error .undefinedBehaviour ∨
      ∃ last, matchKeyword buffer string (key ++ 0 :: after).length ptr
          keywordStr = .ok (last, string.length + 1) := by
  have beyond : charAt string (string.length + 1) =
      .error .undefinedBehaviour := by
    simp [charAt]
  induction key generalizing ptr keywordStr with
  | nil =>
      have same : keywordStr = string.length :=
        Nat.le_antisymm inside (List.drop_eq_nil_iff.mp keyAt)
      rw [List.nil_append, List.length_cons, matchKeyword, charAt_cons at_,
        charAt_nil keyAt inside, Stop.ok_bind, Stop.ok_bind, if_pos rfl, same]
      cases after with
      | nil => exact .inr ⟨_, rfl⟩
      | cons c after =>
          left
          rw [List.length_cons, matchKeyword, charAt_cons (drop_succ at_),
            beyond]
          rfl
  | cons c key ih =>
      have inside' : keywordStr + 1 ≤ string.length := by
        have length := length_of_drop keyAt
        omega
      rw [List.cons_append, List.length_cons, matchKeyword, charAt_cons at_,
        charAt_cons keyAt, Stop.ok_bind, Stop.ok_bind, if_pos rfl]
      exact ih (drop_succ at_) (drop_succ keyAt) inside'

theorem tryAddKeyword_over {state : LexState}
    (at_ : buffer.drop state.ptr = keyword.str ++ 0 :: after) :
    tryAddKeyword keyword buffer state = .error .undefinedBehaviour := by
  have left : buffer.length - state.ptr =
      (keyword.str ++ 0 :: after).length := by
    rw [← at_, List.length_drop]
  rw [tryAddKeyword, left]
  rcases matchKeyword_over at_ List.drop_zero (Nat.zero_le _) with
    stops | ⟨last, goes⟩
  · rw [stops]
    rfl
  · have beyond : charAt keyword.str (keyword.str.length + 1) =
        .error .undefinedBehaviour := by
      simp [charAt]
    rw [goes, Stop.ok_bind]
    simp only [beyond, Stop.error_bind]

theorem tryAddKeyword_eq {state : LexState}
    (at_ : buffer.drop state.ptr = rest) (inside : state.ptr ≤ buffer.length)
    (characters : ∀ c ∈ keyword.str, isIdentifierCharacter c = true)
    (noOverrun : ∀ after, rest ≠ keyword.str ++ 0 :: after) :
    tryAddKeyword keyword buffer state =
      .ok (if wordOf rest = keyword.str then
        some (state.addToken keyword.token keyword.str.length) else none) := by
  have left : buffer.length - state.ptr = rest.length := by
    rw [← at_, List.length_drop]
  rw [tryAddKeyword, left]
  by_cases front : keyword.str <+: rest
  · rcases front with ⟨after, rfl⟩
    have stops : after.head? ≠ some 0 := by
      intro zero
      cases after with
      | nil => cases zero
      | cons c after =>
          cases zero
          exact noOverrun after rfl
    rw [matchKeyword_whole at_ List.drop_zero (Nat.zero_le _) stops,
      Stop.ok_bind]
    have ends : charAt keyword.str (0 + keyword.str.length) = .ok 0 := by
      simp [charAt]
    simp only [ends, Stop.ok_bind, if_true]
    have afterAt : buffer.drop (state.ptr + keyword.str.length) = after := by
      rw [← List.drop_drop, at_, List.drop_left]
    have whole := wordOf_append after characters
    cases after with
    | nil =>
        have bound : state.ptr + keyword.str.length ≤ buffer.length := by
          have length : buffer.length - state.ptr = keyword.str.length := by
            rw [left, List.append_nil]
          omega
        have zero : isIdentifierCharacter 0 = false := by decide
        rw [charAt_nil afterAt bound, Stop.ok_bind, if_pos (whole.mpr nofun),
          zero, Nat.add_sub_cancel_left]
        rfl
    | cons c after =>
        rw [charAt_cons afterAt, Stop.ok_bind, Nat.add_sub_cancel_left]
        cases is : isIdentifierCharacter c with
        | true =>
            have differs : wordOf (keyword.str ++ c :: after) ≠ keyword.str :=
              fun same => by simpa [is] using whole.mp same c rfl
            rw [if_neg differs]
            rfl
        | false =>
            rw [if_pos (whole.mpr (by simpa using is))]
            rfl
  · rcases matchKeyword_part at_ List.drop_zero front with
      ⟨count, less, stops⟩
    have inWord : charAt keyword.str (0 + count) = .ok keyword.str[count] := by
      simp [charAt, less]
    have nonzero := character_ne_zero
      (characters _ (List.getElem_mem less))
    have differs : wordOf rest ≠ keyword.str := fun same =>
      front (same ▸ List.takeWhile_prefix _)
    rw [stops, Stop.ok_bind, if_neg differs]
    simp only [inWord, Stop.ok_bind, if_neg nonzero]
    rfl

end

/-- The tables hold the keywords by their first character. -/
theorem keywordTable_eq (c : UInt8) :
    (keywordTable c).getD [] =
      keywords.filter (·.str.head? == some c) := by
  unfold keywordTable
  split_ifs with e f i l r t
  · subst e
    decide
  · subst f
    decide
  · subst i
    decide
  · subst l
    decide
  · subst r
    decide
  · subst t
    decide
  · simp [keywords, Ne.symm e, Ne.symm f, Ne.symm i, Ne.symm l, Ne.symm r,
      Ne.symm t]

theorem mem_keywordTable {c : UInt8} {keyword : KeywordToken} :
    keyword ∈ (keywordTable c).getD [] ↔
      keyword ∈ keywords ∧ keyword.str.head? = some c := by
  rw [keywordTable_eq, List.mem_filter, beq_iff_eq]

section

variable {buffer rest : ByteString} {state : LexState}
    (at_ : buffer.drop state.ptr = rest) (inside : state.ptr ≤ buffer.length)

include at_ inside

/-- The first keyword of a table that is the word at the front. -/
theorem tryAddKeywords_eq (table : List KeywordToken)
    (subset : ∀ keyword ∈ table, keyword ∈ keywords)
    (noOverrun : ¬Overruns rest) :
    tryAddKeywords buffer state table =
      .ok ((table.find? (·.str == wordOf rest)).map fun keyword =>
        state.addToken keyword.token (wordOf rest).length) := by
  induction table with
  | nil => rfl
  | cons keyword table ih =>
      have member := subset keyword List.mem_cons_self
      have here := tryAddKeyword_eq at_ inside
        (keywords_characters keyword member)
        (fun after same => noOverrun ⟨keyword, member, after, same⟩)
      rw [tryAddKeywords, here, Stop.ok_bind]
      by_cases same : wordOf rest = keyword.str
      · simp [same]
        rfl
      · have differs : (keyword.str == wordOf rest) = false := by
          simpa using Ne.symm same
        rw [if_neg same, List.find?_cons_of_neg (by simp [differs])]
        exact ih fun other inTable => subset other (List.mem_cons_of_mem _ inTable)

/-- A keyword of the table that is followed by a zero byte. -/
theorem tryAddKeywords_over (table : List KeywordToken)
    (subset : ∀ keyword ∈ table, keyword ∈ keywords)
    (overruns : ∃ keyword ∈ table, ∃ after, rest = keyword.str ++ 0 :: after) :
    tryAddKeywords buffer state table = .error .undefinedBehaviour := by
  induction table with
  | nil =>
      rcases overruns with ⟨keyword, inTable, -⟩
      cases inTable
  | cons keyword table ih =>
      rw [tryAddKeywords]
      by_cases here : ∃ after, rest = keyword.str ++ 0 :: after
      · rcases here with ⟨after, rfl⟩
        rw [tryAddKeyword_over at_]
        rfl
      · rcases overruns with ⟨other, inTable, after, same⟩
        rcases List.mem_cons.mp inTable with rfl | inTable
        · exact absurd ⟨after, same⟩ here
        · have members := subset keyword List.mem_cons_self
          have notHere : wordOf rest ≠ keyword.str := by
            intro word
            have otherWord : wordOf rest = other.str := by
              rw [same]
              refine (wordOf_append _ (keywords_characters other
                (subset other (List.mem_cons_of_mem _ inTable)))).mpr ?_
              simp only [List.head?_cons, Option.mem_def, Option.some.injEq,
                forall_eq']
              decide
            exact here ⟨after, by rw [← word, otherWord, same]⟩
          have missed := tryAddKeyword_eq at_ inside
            (keywords_characters keyword members)
            (fun after same => here ⟨after, same⟩)
          rw [missed, if_neg notHere, Stop.ok_bind]
          exact ih (fun other inTable =>
            subset other (List.mem_cons_of_mem _ inTable))
            ⟨other, inTable, after, same⟩

omit inside in
theorem addRun_eq (kind : UInt8 → Bool) (type : TokenType) :
    addRun kind type buffer state =
      .ok (state.addToken type (rest.takeWhile kind).length) := by
  have left : buffer.length - state.ptr = rest.length := by
    rw [← at_, List.length_drop]
  rw [addRun, left, scanWhile_eq kind at_, Stop.ok_bind,
    Nat.add_sub_cancel_left]
  rfl

end

/-- The keyword whose text is a word is in the table of its first letter. -/
theorem find_keywordTable {c : UInt8} {word : ByteString}
    (first : word.head? = some c) :
    ((keywordTable c).getD []).find? (·.str == word) =
      keywords.find? (·.str == word) := by
  rw [keywordTable_eq, List.find?_filter]
  congr 1
  ext keyword
  by_cases same : keyword.str = word
  · simp [same, first]
  · simp [same]

theorem wordOf_cons {c : UInt8} {rest : ByteString}
    (is : isIdentifierCharacter c = true) :
    wordOf (c :: rest) = c :: wordOf rest :=
  List.takeWhile_cons_of_pos is

theorem overruns_cons {c : UInt8} {rest : ByteString} :
    Overruns (c :: rest) ↔ ∃ keyword ∈ (keywordTable c).getD [], ∃ after,
      c :: rest = keyword.str ++ 0 :: after := by
  constructor
  · rintro ⟨keyword, member, after, same⟩
    refine ⟨keyword, mem_keywordTable.mpr ⟨member, ?_⟩, after, same⟩
    have nonempty : ∀ keyword ∈ keywords, keyword.str ≠ [] := by decide
    cases text : keyword.str with
    | nil => exact absurd text (nonempty keyword member)
    | cons d text =>
        rw [text] at same
        cases same
        rfl
  · rintro ⟨keyword, member, after, same⟩
    exact ⟨keyword, (mem_keywordTable.mp member).1, after, same⟩

/-! ## Pieces -/

/-- What one round of the scan finds. -/
inductive Piece where
  | token (type : TokenType)
  | space
  | newline
  | comment
  | rejected
deriving DecidableEq

/-- The piece at the front and its length. -/
def nextPiece : ByteString → Piece × Nat
  | [] => (.rejected, 0)
  | c :: rest =>
      match punctuation c with
      | some type => (.token type, 1)
      | none =>
        if c = byte '=' then
          if rest.head? = some (byte '>') then (.token .tokArrow, 2)
          else (.token .tokEquals, 1)
        else if isSpace c then (.space, 1)
        else if c = byte '\n' then (.newline, 1)
        else if c = byte '#' then
          (.comment, ((c :: rest).takeWhile (· != byte '\n')).length)
        else if isIdentifierStart c then
          (.token (classify (wordOf (c :: rest))), (wordOf (c :: rest)).length)
        else if isDigit c then
          (.token .tokIntLiteral, ((c :: rest).takeWhile isDigit).length)
        else (.rejected, 1)

/-- The scan of the piece at the front leaves the buffer or a keyword. -/
def Escapes (rest : ByteString) : Prop :=
  (rest.head? = some (byte '#') ∧ byte '\n' ∉ rest) ∨ Overruns rest

/-- The state after the switch has found a piece, and `error_now`. -/
def Piece.found (length : Nat) (state : LexState) : Piece → LexState × Bool
  | token type => (state.addToken type length, false)
  | space | comment => (state.skip length, false)
  | newline => (state.addLine.skip length, false)
  | rejected => (state.skip length, true)

theorem keywordTable_start {c : UInt8} {table : List KeywordToken}
    (found : keywordTable c = some table) : isIdentifierStart c = true := by
  have starts : ∀ keyword ∈ keywords, ∀ d, keyword.str.head? = some d →
      isIdentifierStart d = true := by
    simp only [keywords, List.mem_cons, List.not_mem_nil, or_false]
    rintro keyword (rfl | rfl | rfl | rfl | rfl | rfl | rfl | rfl | rfl) d same
      <;> cases same <;> decide
  have nonempty : ∃ keyword, keyword ∈ (keywordTable c).getD [] := by
    revert found
    unfold keywordTable
    split_ifs <;> intro found <;> simp at found ⊢
  rcases nonempty with ⟨keyword, member⟩
  rcases mem_keywordTable.mp member with ⟨member, first⟩
  exact starts keyword member c first

section

variable {buffer rest : ByteString} {state : LexState} {c : UInt8}

/-- A word, whether its first letter begins keywords or not. -/
theorem lexWord_eq (at_ : buffer.drop state.ptr = c :: rest)
    (inside : state.ptr ≤ buffer.length)
    (start : isIdentifierStart c = true) (safe : ¬Overruns (c :: rest)) :
    (match keywordTable c with
      | some keywords => addWord keywords buffer state
      | none => addIdentifierToken buffer state) =
      .ok (state.addToken (classify (wordOf (c :: rest)))
        (wordOf (c :: rest)).length) := by
  have identifier : addIdentifierToken buffer state =
      .ok (state.addToken .tokId (wordOf (c :: rest)).length) :=
    addRun_eq at_ isIdentifierCharacter .tokId
  have first : (wordOf (c :: rest)).head? = some c := by
    rw [wordOf_cons (start_character start)]
    rfl
  have same := find_keywordTable first
  have subset : ∀ keyword ∈ (keywordTable c).getD [], keyword ∈ keywords :=
    fun keyword member => (mem_keywordTable.mp member).1
  cases table : keywordTable c with
  | none =>
      rw [table] at same
      rw [classify, ← same]
      exact identifier
  | some keywords' =>
      rw [table] at same subset
      have tried := tryAddKeywords_eq at_ inside keywords' subset safe
      simp only [addWord, tried, Stop.ok_bind]
      rw [classify, ← same]
      cases found : (keywords'.find? (·.str == wordOf (c :: rest))) with
      | none => simp [found, identifier]
      | some keyword =>
          simp [found]
          rfl

theorem lexWord_over (at_ : buffer.drop state.ptr = c :: rest)
    (inside : state.ptr ≤ buffer.length) (overruns : Overruns (c :: rest)) :
    ∃ table, keywordTable c = some table ∧
      addWord table buffer state = .error .undefinedBehaviour := by
  rcases overruns_cons.mp overruns with ⟨keyword, member, after, same⟩
  cases table : keywordTable c with
  | none =>
      rw [table] at member
      cases member
  | some keywords' =>
      have subset : ∀ keyword ∈ keywords', keyword ∈ keywords := by
        intro keyword inTable
        have inTables : keyword ∈ (keywordTable c).getD [] := by
          rw [table]
          exact inTable
        exact (mem_keywordTable.mp inTables).1
      rw [table] at member
      refine ⟨keywords', rfl, ?_⟩
      rw [addWord, tryAddKeywords_over at_ inside keywords' subset
        ⟨keyword, member, after, same⟩]
      rfl

theorem addEquals_eq (at_ : buffer.drop state.ptr = c :: rest) :
    addEquals buffer state =
      .ok (if rest.head? = some (byte '>') then state.addToken .tokArrow 2
        else state.addToken .tokEquals 1) := by
  have length := length_of_drop at_
  cases rest with
  | nil =>
      have last : ¬state.ptr + 1 < buffer.length := by
        rw [List.length_nil] at length
        omega
      rw [addEquals, if_neg last]
      rfl
  | cons d rest =>
      have more : state.ptr + 1 < buffer.length := by
        rw [List.length_cons] at length
        omega
      rw [addEquals, if_pos more, charAt_cons (drop_succ at_), Stop.ok_bind]
      by_cases arrow : d = byte '>'
      · simp [arrow]
        rfl
      · simp [arrow]
        rfl

/-- The switch finds the piece at the front. -/
theorem lexSwitch_eq (at_ : buffer.drop state.ptr = c :: rest)
    (safe : ¬Escapes (c :: rest)) :
    lexSwitch buffer state =
      .ok ((nextPiece (c :: rest)).1.found (nextPiece (c :: rest)).2 state) := by
  have length := length_of_drop at_
  have inside : state.ptr ≤ buffer.length := by omega
  rw [lexSwitch, charAt_cons at_, Stop.ok_bind, nextPiece]
  cases punctuation c with
  | some type => rfl
  | none =>
      dsimp only
      by_cases equals : c = byte '='
      · rw [if_pos equals, if_pos equals, addEquals_eq at_]
        split
        · rfl
        · rfl
      rw [if_neg equals, if_neg equals]
      by_cases space : isSpace c = true
      · rw [if_pos space, if_pos space]
        rfl
      rw [if_neg space, if_neg space]
      by_cases newline : c = byte '\n'
      · rw [if_pos newline, if_pos newline]
        rfl
      rw [if_neg newline, if_neg newline]
      by_cases comment : c = byte '#'
      · have closed : byte '\n' ∈ c :: rest := by
          by_contra never
          exact safe (.inl ⟨congrArg some comment, never⟩)
        have left : buffer.length + 1 - state.ptr = (c :: rest).length + 1 := by
          rw [List.length_cons]
          omega
        rw [if_pos comment, if_pos comment, left, skipComment_eq at_ inside,
          if_pos closed]
        rfl
      rw [if_neg comment, if_neg comment]
      by_cases start : isIdentifierStart c = true
      · have word := lexWord_eq at_ inside start fun overruns =>
          safe (.inr overruns)
        have notDigit : isDigit c = false := by
          by_contra digit
          rw [Bool.not_eq_false] at digit
          rw [digit_not_start digit] at start
          cases start
        cases table : keywordTable c with
        | some keywords =>
            rw [table] at word
            dsimp only at word ⊢
            simp only [word, Stop.ok_bind, if_pos start]
            rfl
        | none =>
            rw [table] at word
            dsimp only at word ⊢
            simp only [notDigit, word, Stop.ok_bind, if_pos start,
              Bool.false_eq_true, if_false]
            rfl
      · have noTable : keywordTable c = none := by
          cases table : keywordTable c with
          | none => rfl
          | some keywords => exact absurd (keywordTable_start table) start
        rw [noTable]
        dsimp only
        by_cases digit : isDigit c = true
        · have number := addRun_eq at_ isDigit .tokIntLiteral
          simp only [if_neg start, if_pos digit, addIntegerLiteral, number,
            Stop.ok_bind]
          rfl
        · simp only [if_neg start, if_neg digit]
          rfl

/-- A comment without an end and a keyword before a zero byte go too far. -/
theorem lexSwitch_escapes (at_ : buffer.drop state.ptr = c :: rest)
    (escapes : Escapes (c :: rest)) :
    lexSwitch buffer state = .error .undefinedBehaviour := by
  have length := length_of_drop at_
  have inside : state.ptr ≤ buffer.length := by omega
  rw [lexSwitch, charAt_cons at_, Stop.ok_bind]
  rcases escapes with ⟨comment, never⟩ | overruns
  · obtain rfl : c = byte '#' := Option.some.inj comment
    have left : buffer.length + 1 - state.ptr =
        (byte '#' :: rest).length + 1 := by
      rw [List.length_cons]
      omega
    have skipped : skipComment buffer (buffer.length + 1 - state.ptr)
        state.ptr = .error .undefinedBehaviour := by
      rw [left, skipComment_eq at_ inside, if_neg never]
    have kinds : punctuation (byte '#') = none ∧ byte '#' ≠ byte '=' ∧
        isSpace (byte '#') = false ∧ byte '#' ≠ byte '\n' := by
      decide
    rcases kinds with ⟨noToken, notEquals, notSpace, notNewline⟩
    rw [noToken]
    dsimp only
    rw [if_neg notEquals, notSpace, if_neg Bool.false_ne_true,
      if_neg notNewline, if_pos rfl, skipped]
    rfl
  · rcases lexWord_over at_ inside overruns with ⟨table, found, fails⟩
    have start := keywordTable_start found
    rcases start_other start with ⟨noToken, notEquals, notSpace, notNewline, notComment⟩
    rw [noToken, found]
    dsimp only
    rw [if_neg notEquals, notSpace, if_neg Bool.false_ne_true,
      if_neg notNewline, if_neg notComment, fails]
    rfl

end

end Millie.Syntax
