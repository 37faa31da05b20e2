import Millie.Syntax.Scanning
import Mathlib.Logic.Relation

/-!
# What the scan covers

Which characters lie in a comment, in a word or in no token at all is a
property of the buffer, whatever scans it.  The scan only ever stops between
two pieces, returns exactly when every comment is ended by a newline and no
keyword is followed by a zero byte, and accounts for every character it has
passed, except for a run of rejected characters at the end of the buffer.
-/

namespace Millie.Syntax

open Relation
open Millie.Symbols

/-! ## Positions of a buffer -/

/-- A `#` earlier on the line, or at the position itself. -/
def InComment (buffer : ByteString) (p : Nat) : Prop :=
  ∃ q ≤ p, buffer[q]? = some (byte '#') ∧
    ∀ r, q ≤ r → r ≤ p → buffer[r]? ≠ some (byte '\n')

/-- A letter or underscore before it, and identifier characters up to it. -/
def InWord (buffer : ByteString) (p : Nat) : Prop :=
  ∃ q < p, (∃ c, buffer[q]? = some c ∧ isIdentifierStart c = true) ∧
    ∀ r, q ≤ r → r < p →
      ∃ c, buffer[r]? = some c ∧ isIdentifierCharacter c = true

/-- A space, a tab, a carriage return or a newline. -/
def IsBlank (buffer : ByteString) (p : Nat) : Prop :=
  ∃ c, buffer[p]? = some c ∧ (isSpace c = true ∨ c = byte '\n')

/-- A character that is in no comment, no blank and no token. -/
structure Rejected (buffer : ByteString) (p : Nat) : Prop where
  noComment : ¬InComment buffer p
  character : ∃ c, buffer[p]? = some c ∧ punctuation c = none ∧
    c ≠ byte '=' ∧ isSpace c = false ∧ c ≠ byte '\n' ∧
    isIdentifierStart c = false ∧ isDigit c = false ∧
    (isIdentifierCharacter c = true → ¬InWord buffer p) ∧
    (c = byte '>' → ∀ q, q + 1 = p → buffer[q]? ≠ some (byte '='))

/-! ## Pieces at a position -/

/-- The piece of a number of characters that starts at a position. -/
inductive Found (buffer : ByteString) (p : Nat) : Piece → Nat → Prop where
  | punctuation {c : UInt8} {type : TokenType} (at_ : buffer[p]? = some c)
      (is : punctuation c = some type) : Found buffer p (.token type) 1
  | arrow (at_ : buffer[p]? = some (byte '='))
      (next : buffer[p + 1]? = some (byte '>')) :
      Found buffer p (.token .tokArrow) 2
  | equals (at_ : buffer[p]? = some (byte '='))
      (next : buffer[p + 1]? ≠ some (byte '>')) :
      Found buffer p (.token .tokEquals) 1
  | space {c : UInt8} (at_ : buffer[p]? = some c) (is : isSpace c = true) :
      Found buffer p .space 1
  | newline (at_ : buffer[p]? = some (byte '\n')) : Found buffer p .newline 1
  | comment {n : Nat} (at_ : buffer[p]? = some (byte '#')) (pos : 0 < n)
      (inside : ∀ r, p ≤ r → r < p + n →
        ∃ c, buffer[r]? = some c ∧ c ≠ byte '\n')
      (ends : buffer[p + n]? = some (byte '\n')) : Found buffer p .comment n
  | word {n : Nat} {c : UInt8} (at_ : buffer[p]? = some c)
      (start : isIdentifierStart c = true) (pos : 0 < n)
      (inside : ∀ r, p ≤ r → r < p + n →
        ∃ c, buffer[r]? = some c ∧ isIdentifierCharacter c = true)
      (stops : ∀ c, buffer[p + n]? = some c → isIdentifierCharacter c = false) :
      Found buffer p (.token (classify ((buffer.drop p).take n))) n
  | number {n : Nat} (pos : 0 < n)
      (inside : ∀ r, p ≤ r → r < p + n →
        ∃ c, buffer[r]? = some c ∧ isDigit c = true)
      (stops : ∀ c, buffer[p + n]? = some c → isDigit c = false) :
      Found buffer p (.token .tokIntLiteral) n
  | rejected {c : UInt8} (at_ : buffer[p]? = some c)
      (noToken : Syntax.punctuation c = none) (notEquals : c ≠ byte '=')
      (notSpace : isSpace c = false) (notNewline : c ≠ byte '\n')
      (notComment : c ≠ byte '#') (notStart : isIdentifierStart c = false)
      (notDigit : isDigit c = false) : Found buffer p .rejected 1

section

variable {buffer rest : ByteString} {p : Nat} {c : UInt8}

theorem getElem?_of_drop (at_ : buffer.drop p = rest) (k : Nat) :
    buffer[p + k]? = rest[k]? := by
  rw [← at_, List.getElem?_drop]

/-- The characters of a kind at the front, and the one that follows. -/
theorem run_found (kind : UInt8 → Bool) (at_ : buffer.drop p = rest) :
    (∀ r, p ≤ r → r < p + (rest.takeWhile kind).length →
      ∃ c, buffer[r]? = some c ∧ kind c = true) ∧
    (∀ c, buffer[p + (rest.takeWhile kind).length]? = some c →
      kind c = false) := by
  induction rest generalizing p with
  | nil =>
      refine ⟨fun r low high => absurd high (Nat.not_lt_of_le low), ?_⟩
      intro c found
      rw [getElem?_of_drop at_] at found
      cases found
  | cons d rest ih =>
      have here := getElem?_of_drop at_ 0
      rcases ih (drop_succ at_) with ⟨inside, stops⟩
      cases is : kind d with
      | true =>
          rw [List.takeWhile_cons_of_pos is, List.length_cons, ← Nat.add_assoc,
            Nat.add_right_comm]
          refine ⟨fun r low high => ?_, stops⟩
          rcases Nat.eq_or_lt_of_le low with rfl | less
          · exact ⟨d, here, is⟩
          · exact inside r less high
      | false =>
          rw [List.takeWhile_cons_of_neg (by simp [is])]
          refine ⟨fun r low high => absurd high (Nat.not_lt_of_le low), ?_⟩
          intro c found
          rw [List.length_nil, here] at found
          cases found
          exact is

theorem takeWhile_pos {kind : UInt8 → Bool} (is : kind c = true) :
    0 < ((c :: rest).takeWhile kind).length := by
  rw [List.takeWhile_cons_of_pos is]
  exact Nat.succ_pos _

/-- The characters before a newline end at one. -/
theorem newline_ends (at_ : buffer.drop p = rest)
    (closed : byte '\n' ∈ rest) :
    buffer[p + (rest.takeWhile (· != byte '\n')).length]? =
      some (byte '\n') := by
  induction rest generalizing p with
  | nil => cases closed
  | cons d rest ih =>
      by_cases newline : d = byte '\n'
      · rw [newline, List.takeWhile_cons_of_neg (by simp), List.length_nil,
          getElem?_of_drop at_ 0, newline]
        rfl
      · have other : (d != byte '\n') = true := by simpa using newline
        have later : byte '\n' ∈ rest :=
          (List.mem_cons.mp closed).resolve_left (Ne.symm newline)
        rw [List.takeWhile_cons_of_pos (p := (· != byte '\n')) other,
          List.length_cons, Nat.add_comm _ 1, ← Nat.add_assoc]
        exact ih (drop_succ at_) later

theorem nextPiece_found (at_ : buffer.drop p = c :: rest)
    (safe : ¬Escapes (c :: rest)) :
    Found buffer p (nextPiece (c :: rest)).1 (nextPiece (c :: rest)).2 := by
  have here : buffer[p]? = some c := getElem?_of_drop at_ 0
  have next : buffer[p + 1]? = rest.head? := by
    rw [getElem?_of_drop at_ 1, List.head?_eq_getElem?]
    rfl
  rw [nextPiece]
  cases token : punctuation c with
  | some type => exact .punctuation here token
  | none =>
      dsimp only
      by_cases equals : c = byte '='
      · subst equals
        rw [if_pos rfl]
        split
        · rename_i arrow
          exact .arrow here (next.trans arrow)
        · rename_i other
          exact .equals here (next ▸ other)
      rw [if_neg equals]
      by_cases space : isSpace c = true
      · rw [if_pos space]
        exact .space here space
      rw [if_neg space]
      by_cases newline : c = byte '\n'
      · rw [if_pos newline]
        exact .newline (newline ▸ here)
      rw [if_neg newline]
      by_cases comment : c = byte '#'
      · rw [if_pos comment]
        have closed : byte '\n' ∈ c :: rest := by
          by_contra never
          exact safe (.inl ⟨congrArg some comment, never⟩)
        have other : (c != byte '\n') = true := by simpa using newline
        rcases run_found (· != byte '\n') at_ with ⟨inside, stops⟩
        exact .comment (comment ▸ here) (takeWhile_pos other)
          (fun r low high => by simpa using inside r low high)
          (newline_ends at_ closed)
      rw [if_neg comment]
      by_cases start : isIdentifierStart c = true
      · rw [if_pos start]
        rcases run_found isIdentifierCharacter at_ with ⟨inside, stops⟩
        have word := Found.word here start (takeWhile_pos (start_character start))
          inside stops
        rw [at_, ← List.prefix_iff_eq_take.mp (List.takeWhile_prefix _)] at word
        exact word
      rw [if_neg start]
      by_cases digit : isDigit c = true
      · rw [if_pos digit]
        rcases run_found isDigit at_ with ⟨inside, stops⟩
        exact .number (takeWhile_pos digit) inside stops
      · rw [if_neg digit]
        exact .rejected here token equals (Bool.eq_false_iff.mpr space) newline
          comment (Bool.eq_false_iff.mpr start) (Bool.eq_false_iff.mpr digit)

end

/-! ## Boundaries -/

/-- A keyword is followed by a zero byte of the buffer. -/
def BeforeZero (buffer : ByteString) (p : Nat) : Prop :=
  ∃ keyword ∈ keywords, ∃ after,
    buffer.drop p = keyword.str ++ 0 :: after

/-- A position between two pieces. -/
structure Boundary (buffer : ByteString) (p : Nat) : Prop where
  inside : p ≤ buffer.length
  closed : ∀ q < p, buffer[q]? = some (byte '#') →
    ∃ r, q < r ∧ r ≤ p ∧ buffer[r]? = some (byte '\n')
  fresh : ∀ c, buffer[p]? = some c → isIdentifierCharacter c = true →
    ¬InWord buffer p
  noArrow : buffer[p]? = some (byte '>') →
    ∀ q, q + 1 = p → buffer[q]? ≠ some (byte '=')
  complete : ∀ q < p, BeforeZero buffer q →
    InComment buffer q ∨ InWord buffer q

section

variable {buffer : ByteString} {p n : Nat} {piece : Piece}

theorem Found.pos (found : Found buffer p piece n) : 0 < n := by
  cases found with
  | comment at_ pos | word at_ start pos | number pos => exact pos
  | _ => exact Nat.succ_pos _

/-- Every position of a piece is in the buffer. -/
theorem Found.character (found : Found buffer p piece n) {r : Nat}
    (low : p ≤ r) (high : r < p + n) : ∃ c, buffer[r]? = some c := by
  have first : ∀ {c : UInt8}, buffer[p]? = some c → r < p + 1 →
      ∃ c, buffer[r]? = some c := by
    intro c at_ high
    obtain rfl : r = p := by omega
    exact ⟨c, at_⟩
  cases found with
  | punctuation at_ is => exact first at_ high
  | arrow at_ next =>
      rcases Nat.eq_or_lt_of_le low with rfl | more
      · exact ⟨_, at_⟩
      · obtain rfl : r = p + 1 := by omega
        exact ⟨_, next⟩
  | equals at_ next => exact first at_ high
  | space at_ is => exact first at_ high
  | newline at_ => exact first at_ high
  | comment at_ pos inside ends =>
      rcases inside r low high with ⟨c, found, -⟩
      exact ⟨c, found⟩
  | word at_ start pos inside stops =>
      rcases inside r low high with ⟨c, found, -⟩
      exact ⟨c, found⟩
  | number pos inside stops =>
      rcases inside r low high with ⟨c, found, -⟩
      exact ⟨c, found⟩
  | rejected at_ => exact first at_ high

theorem Found.le_length (found : Found buffer p piece n) :
    p + n ≤ buffer.length := by
  have pos := found.pos
  rcases found.character (r := p + n - 1) (by omega) (by omega) with ⟨c, last⟩
  have inside := (List.getElem?_eq_some_iff.mp last).1
  omega

/-- Only a comment contains `#`. -/
theorem Found.not_hash (found : Found buffer p piece n)
    (other : piece ≠ .comment) {r : Nat} (low : p ≤ r) (high : r < p + n) :
    buffer[r]? ≠ some (byte '#') := by
  intro hash
  have first : ∀ {c : UInt8}, buffer[p]? = some c → r < p + 1 →
      c = byte '#' := by
    intro c at_ high
    obtain rfl : r = p := by omega
    rw [at_] at hash
    exact Option.some.inj hash
  cases found with
  | punctuation at_ is =>
      rw [first at_ high] at is
      cases is
  | arrow at_ next =>
      rcases Nat.eq_or_lt_of_le low with rfl | more
      · rw [at_] at hash
        exact absurd hash (by decide)
      · obtain rfl : r = p + 1 := by omega
        rw [next] at hash
        exact absurd hash (by decide)
  | equals at_ next => exact absurd (first at_ high) (by decide)
  | space at_ is =>
      rw [first at_ high] at is
      exact absurd is (by decide)
  | newline at_ => exact absurd (first at_ high) (by decide)
  | comment => exact other rfl
  | word at_ start pos inside stops =>
      rcases inside r low high with ⟨c, at_, is⟩
      rw [at_] at hash
      cases hash
      exact absurd is (by decide)
  | number pos inside stops =>
      rcases inside r low high with ⟨c, at_, is⟩
      rw [at_] at hash
      cases hash
      exact absurd is (by decide)
  | rejected at_ noToken notEquals notSpace notNewline notComment =>
      exact notComment (first at_ high)

/-- No piece but a word contains the start of an identifier and ends in the
middle of one. -/
theorem Found.not_inWord (found : Found buffer p piece n) {q : Nat}
    (low : p ≤ q) (high : q < p + n)
    (start : ∃ c, buffer[q]? = some c ∧ isIdentifierStart c = true)
    {c : UInt8} (next : buffer[p + n]? = some c)
    (is : isIdentifierCharacter c = true) : False := by
  rcases start with ⟨d, at_, start⟩
  have first : ∀ {e : UInt8}, buffer[p]? = some e → q < p + 1 →
      isIdentifierStart e = true := by
    intro e here high
    obtain rfl : q = p := by omega
    rw [here] at at_
    cases at_
    exact start
  cases found with
  | punctuation here is =>
      have other := (start_other (first here high)).1
      rw [is] at other
      cases other
  | arrow here after =>
      rcases Nat.eq_or_lt_of_le low with rfl | more
      · rw [here] at at_
        cases at_
        exact absurd start (by decide)
      · obtain rfl : q = p + 1 := by omega
        rw [after] at at_
        cases at_
        exact absurd start (by decide)
  | equals here => exact absurd (first here high) (by decide)
  | space here space =>
      have other := (start_other (first here high)).2.2.1
      rw [space] at other
      cases other
  | newline here => exact absurd (first here high) (by decide)
  | comment here pos inside ends =>
      rw [ends] at next
      cases next
      exact absurd is (by decide)
  | word here start' pos inside stops =>
      rw [stops c next] at is
      cases is
  | number pos inside stops =>
      rcases inside q low high with ⟨e, here, digit⟩
      rw [here] at at_
      cases at_
      rw [digit_not_start digit] at start
      cases start
  | rejected here noToken notEquals notSpace notNewline notComment notStart =>
      rw [first here high] at notStart
      cases notStart

/-- An `=` at the end of a piece is not followed by `>`. -/
theorem Found.not_arrow (found : Found buffer p piece n) {q : Nat}
    (last : q + 1 = p + n) (equals : buffer[q]? = some (byte '='))
    (next : buffer[p + n]? = some (byte '>')) : False := by
  have first : ∀ {c : UInt8}, buffer[p]? = some c → q + 1 = p + 1 →
      c = byte '=' := by
    intro c here same
    obtain rfl : q = p := by omega
    rw [here] at equals
    exact Option.some.inj equals
  have pos := found.pos
  cases found with
  | punctuation here is =>
      rw [first here last] at is
      cases is
  | arrow here after =>
      obtain rfl : q = p + 1 := by omega
      rw [after] at equals
      exact absurd equals (by decide)
  | equals here after => exact after next
  | space here is =>
      rw [first here last] at is
      exact absurd is (by decide)
  | newline here => exact absurd (first here last) (by decide)
  | comment here pos inside ends =>
      rw [ends] at next
      exact absurd next (by decide)
  | word here start pos inside stops =>
      rcases inside q (by omega) (by omega) with ⟨c, at_, is⟩
      rw [at_] at equals
      cases equals
      exact absurd is (by decide)
  | number pos inside stops =>
      rcases inside q (by omega) (by omega) with ⟨c, at_, is⟩
      rw [at_] at equals
      cases equals
      exact absurd is (by decide)
  | rejected here noToken notEquals => exact notEquals (first here last)

theorem BeforeZero.start (before : BeforeZero buffer p) :
    ∃ c, buffer[p]? = some c ∧ isIdentifierStart c = true := by
  rcases before with ⟨keyword, member, after, same⟩
  have starts : ∀ keyword ∈ keywords, ∃ c ∈ keyword.str.head?,
      isIdentifierStart c = true := by
    decide
  rcases starts keyword member with ⟨c, first, start⟩
  refine ⟨c, ?_, start⟩
  have here := getElem?_of_drop same 0
  rw [Nat.add_zero] at here
  rw [here, ← List.head?_eq_getElem?, List.head?_append, first]
  rfl

/-- A keyword that begins inside a piece is in a comment or a word. -/
theorem Found.complete (found : Found buffer p piece n)
    (here : ¬BeforeZero buffer p) {q : Nat} (low : p ≤ q) (high : q < p + n)
    (before : BeforeZero buffer q) : InComment buffer q ∨ InWord buffer q := by
  rcases before.start with ⟨c, at_, start⟩
  have more : p < q := by
    rcases Nat.eq_or_lt_of_le low with rfl | more
    · exact absurd before here
    · exact more
  cases found with
  | arrow first after =>
      obtain rfl : q = p + 1 := by omega
      rw [after] at at_
      cases at_
      exact absurd start (by decide)
  | comment first pos inside ends =>
      refine .inl ⟨p, low, first, fun r rLow rHigh newline => ?_⟩
      rcases inside r rLow (by omega) with ⟨d, found, other⟩
      rw [found] at newline
      exact other (Option.some.inj newline)
  | word first start' pos inside stops =>
      exact .inr ⟨p, more, ⟨_, first, start'⟩, fun r rLow rHigh =>
        inside r rLow (by omega)⟩
  | number pos inside stops =>
      rcases inside q low high with ⟨d, found, digit⟩
      rw [found] at at_
      cases at_
      rw [digit_not_start digit] at start
      cases start
  | _ => omega

/-- The end of a piece is a boundary again. -/
theorem Boundary.step (boundary : Boundary buffer p)
    (found : Found buffer p piece n) (here : ¬BeforeZero buffer p) :
    Boundary buffer (p + n) where
  inside := found.le_length
  closed := by
    intro q below hash
    rcases Nat.lt_or_ge q p with old | new
    · rcases boundary.closed q old hash with ⟨r, after, upTo, newline⟩
      exact ⟨r, after, by omega, newline⟩
    · by_cases comment : piece = .comment
      · subst comment
        cases found with
        | comment at_ pos inside ends => exact ⟨p + n, below, le_rfl, ends⟩
      · exact absurd hash (found.not_hash comment new below)
  fresh := by
    rintro c next is ⟨q, below, start, word⟩
    rcases Nat.lt_or_ge q p with old | new
    · rcases word p (by omega) (by have := found.pos; omega) with ⟨d, at_, is⟩
      exact boundary.fresh d at_ is ⟨q, old, start, fun r low high =>
        word r low (by omega)⟩
    · exact found.not_inWord new below start next is
  noArrow := by
    intro next q last equals
    exact found.not_arrow last equals next
  complete := by
    intro q below before
    rcases Nat.lt_or_ge q p with old | new
    · exact boundary.complete q old before
    · exact found.complete here new below before

theorem Boundary.start (buffer : ByteString) : Boundary buffer 0 where
  inside := Nat.zero_le _
  closed := by simp
  fresh := by
    rintro c - - ⟨q, below, -⟩
    cases below
  noArrow := by
    intro _ q last
    omega
  complete := by simp

end

/-! ## Running the scan -/

/-- The state after the piece that starts at a state's pointer. -/
def LexState.after (piece : Piece) (length : Nat) (state : LexState) :
    LexState :=
  let (next, errorNow) := piece.found length state
  collapseErrors state.ptr errorNow next

theorem LexState.after_ptr (piece : Piece) (length : Nat) (state : LexState) :
    (state.after piece length).ptr = state.ptr + length := by
  cases piece with
  | rejected =>
      cases start : state.errorStart <;>
        simp [after, Piece.found, collapseErrors, skip, start]
  | _ =>
      cases start : state.errorStart <;>
        simp [after, Piece.found, collapseErrors, skip, addLine, addToken,
          start]

section

variable {buffer : ByteString} {state after : LexState}

theorem exists_drop {p : Nat} (inside : p < buffer.length) :
    ∃ c rest, buffer.drop p = c :: rest :=
  ⟨_, _, List.drop_eq_getElem_cons inside⟩

theorem beforeZero_iff {p : Nat} {rest : ByteString}
    (at_ : buffer.drop p = rest) : BeforeZero buffer p ↔ Overruns rest := by
  rw [BeforeZero, at_]
  rfl

/-- A round of the scan passes a piece. -/
theorem lexStep_found (inside : state.ptr < buffer.length)
    (steps : lexStep buffer state = .ok after) :
    ∃ piece length, Found buffer state.ptr piece length ∧
      after = state.after piece length ∧ ¬BeforeZero buffer state.ptr := by
  rcases exists_drop inside with ⟨c, rest, at_⟩
  by_cases escapes : Escapes (c :: rest)
  · rw [lexStep, lexSwitch_escapes at_ escapes] at steps
    cases steps
  · rw [lexStep, lexSwitch_eq at_ escapes, Stop.ok_bind] at steps
    cases steps
    exact ⟨_, _, nextPiece_found at_ escapes, rfl,
      fun before => escapes (.inr ((beforeZero_iff at_).mp before))⟩

/-- A round of the scan returns unless a comment is open or a keyword stands
before a zero byte. -/
theorem lexStep_returns (inside : state.ptr < buffer.length)
    (closed : buffer[state.ptr]? = some (byte '#') →
      ∃ r, state.ptr < r ∧ buffer[r]? = some (byte '\n'))
    (noZero : ¬BeforeZero buffer state.ptr) :
    ∃ after, lexStep buffer state = .ok after := by
  rcases exists_drop inside with ⟨c, rest, at_⟩
  have safe : ¬Escapes (c :: rest) := by
    rintro (⟨hash, never⟩ | overruns)
    · have here : buffer[state.ptr]? = some (byte '#') := by
        rw [← hash]
        exact getElem?_of_drop at_ 0
      rcases closed here with ⟨r, later, newline⟩
      have there := getElem?_of_drop at_ (r - state.ptr)
      rw [Nat.add_sub_cancel' (Nat.le_of_lt later), newline] at there
      exact never (List.mem_of_getElem? there.symm)
    · exact noZero ((beforeZero_iff at_).mpr overruns)
  rw [lexStep, lexSwitch_eq at_ safe]
  exact ⟨_, rfl⟩

/-- The states that the loop of `LexBuffer` goes through. -/
def Reached (buffer : ByteString) : LexState → Prop :=
  ReflTransGen (fun state after =>
    state.ptr < buffer.length ∧ lexStep buffer state = .ok after) lexStart

theorem Reached.boundary (reached : Reached buffer state) :
    Boundary buffer state.ptr := by
  induction reached with
  | refl => exact Boundary.start buffer
  | tail _ step ih =>
      rcases lexStep_found step.1 step.2 with
        ⟨piece, length, found, rfl, noZero⟩
      rw [LexState.after_ptr]
      exact ih.step found noZero

/-- The loop ends in a state it has reached, at the end of the buffer. -/
theorem lexLoop_reached {fuel : Nat} (reached : Reached buffer state)
    (runs : lexLoop buffer fuel state = .ok after) :
    Reached buffer after ∧ after.ptr = buffer.length := by
  induction fuel generalizing state with
  | zero => cases runs
  | succ fuel ih =>
      rw [lexLoop] at runs
      split at runs
      · rename_i inside
        rcases Stop.bind_eq_ok_iff.mp runs with ⟨next, steps, rest⟩
        exact ih (reached.tail ⟨inside, steps⟩) rest
      · rename_i outside
        cases runs
        exact ⟨reached, Nat.le_antisymm reached.boundary.inside
          (Nat.le_of_not_lt outside)⟩

end

/-! ## When the scan returns -/

/-- Every `#` has a newline after it. -/
def CommentsEnd (buffer : ByteString) : Prop :=
  ∀ p : Nat, buffer[p]? = some (byte '#') →
    ∃ r : Nat, p < r ∧ buffer[r]? = some (byte '\n')

/-- No keyword is followed by a zero byte of the buffer. -/
def KeywordsEnd (buffer : ByteString) : Prop :=
  ∀ p, BeforeZero buffer p → InComment buffer p ∨ InWord buffer p

section

variable {buffer : ByteString} {state : LexState}

theorem lexLoop_returns (comments : CommentsEnd buffer)
    (keywords : KeywordsEnd buffer) {fuel : Nat}
    (boundary : Boundary buffer state.ptr)
    (enough : buffer.length - state.ptr < fuel) :
    ∃ after, lexLoop buffer fuel state = .ok after := by
  induction fuel generalizing state with
  | zero => cases enough
  | succ fuel ih =>
      rw [lexLoop]
      split
      · rename_i inside
        have noZero : ¬BeforeZero buffer state.ptr := by
          intro before
          rcases before.start with ⟨c, at_, start⟩
          rcases keywords state.ptr before with
            ⟨q, upTo, hash, line⟩ | word
          · rcases Nat.eq_or_lt_of_le upTo with rfl | below
            · rw [at_] at hash
              cases hash
              exact absurd start (by decide)
            · rcases boundary.closed q below hash with
                ⟨r, later, upTo, newline⟩
              exact line r (Nat.le_of_lt later) upTo newline
          · exact boundary.fresh c at_ (start_character start) word
        rcases lexStep_returns inside (comments state.ptr) noZero with
          ⟨after, steps⟩
        rcases lexStep_found inside steps with
          ⟨piece, length, found, same, -⟩
        have pos := found.pos
        have moved : after.ptr = state.ptr + length := by
          rw [same, LexState.after_ptr]
        rw [steps, Stop.ok_bind]
        apply ih
        · rw [moved]
          exact boundary.step found noZero
        · rw [moved]
          omega
      · exact ⟨state, rfl⟩

theorem lexBuffer_ok {result : MillieTokens × List ErrorReport}
    (returns : lexBuffer buffer = .ok result) :
    ∃ last, Reached buffer last ∧ last.ptr = buffer.length ∧
      result = (⟨last.tokens ++ [⟨.tokEof, buffer.length, 0⟩], last.lines,
        buffer⟩, last.errors) := by
  rcases Stop.bind_eq_ok_iff.mp returns with ⟨last, runs, same⟩
  cases same
  rcases lexLoop_reached .refl runs with ⟨reached, ended⟩
  exact ⟨last, reached, ended, rfl⟩

/--
`LexBuffer` terminates without a read outside the buffer or a keyword, and its
pointer stays in the buffer.
-/
structure LexesInside (buffer : ByteString) : Prop where
  returns : ∃ result, lexBuffer buffer = .ok result
  pointer : ∀ state, Reached buffer state → state.ptr ≤ buffer.length

/--
The scan stays inside its input if and only if every comment is ended by a
newline and no keyword is followed by a zero byte.
-/
theorem lexes_inside_iff (buffer : ByteString) :
    LexesInside buffer ↔ CommentsEnd buffer ∧ KeywordsEnd buffer := by
  constructor
  · rintro ⟨⟨result, returns⟩, -⟩
    rcases lexBuffer_ok returns with ⟨last, reached, ended, -⟩
    have boundary := reached.boundary
    rw [ended] at boundary
    constructor
    · intro p hash
      rcases boundary.closed p (List.getElem?_eq_some_iff.mp hash).1 hash with
        ⟨r, later, -, newline⟩
      exact ⟨r, later, newline⟩
    · intro p before
      rcases before.start with ⟨c, at_, -⟩
      exact boundary.complete p (List.getElem?_eq_some_iff.mp at_).1 before
  · rintro ⟨comments, keywords⟩
    refine ⟨?_, fun state reached => reached.boundary.inside⟩
    have boundary : Boundary buffer lexStart.ptr := Boundary.start buffer
    rcases lexLoop_returns comments keywords boundary
      (Nat.lt_succ_of_le (Nat.sub_le _ _)) with ⟨last, runs⟩
    rw [lexBuffer, runs]
    exact ⟨_, rfl⟩

/-- A comment at the end of the buffer, and `else` before a zero byte. -/
theorem lexes_inside_not :
    ¬LexesInside (['1', ' ', '#'].map byte) ∧
      ¬LexesInside (['e', 'l', 's', 'e'].map byte ++ [0]) := by
  constructor
  · rintro ⟨⟨result, returns⟩, -⟩
    have stops : lexBuffer (['1', ' ', '#'].map byte) =
        .error .undefinedBehaviour := by
      rfl
    rw [stops] at returns
    cases returns
  · rintro ⟨⟨result, returns⟩, -⟩
    have stops : lexBuffer (['e', 'l', 's', 'e'].map byte ++ [0]) =
        .error .undefinedBehaviour := by
      rfl
    rw [stops] at returns
    cases returns

end

/-! ## Accounting for every character -/

section

variable {buffer : ByteString} {p n : Nat}

/-- Outside comments no position of a piece is in a comment. -/
theorem Found.not_inComment {piece : Piece} (found : Found buffer p piece n)
    (boundary : Boundary buffer p) (other : piece ≠ .comment) {r : Nat}
    (low : p ≤ r) (high : r < p + n) : ¬InComment buffer r := by
  rintro ⟨q, upTo, hash, line⟩
  rcases Nat.lt_or_ge q p with old | new
  · rcases boundary.closed q old hash with ⟨t, later, before, newline⟩
    exact line t (Nat.le_of_lt later) (by omega) newline
  · exact found.not_hash other new (by omega) hash

/-- A character of a token is no blank and is not rejected. -/
theorem Found.in_token {type : TokenType}
    (found : Found buffer p (.token type) n) (boundary : Boundary buffer p)
    {r : Nat} (low : p ≤ r) (high : r < p + n) :
    ¬InComment buffer r ∧ ¬IsBlank buffer r ∧ ¬Rejected buffer r := by
  refine ⟨found.not_inComment boundary nofun low high, ?_⟩
  -- It suffices to look at the character.
  have decides : ∀ {c : UInt8}, buffer[r]? = some c →
      (isSpace c = false ∧ c ≠ byte '\n') →
      (Rejected buffer r → False) → ¬IsBlank buffer r ∧ ¬Rejected buffer r := by
    rintro c at_ ⟨notSpace, notNewline⟩ notRejected
    refine ⟨?_, notRejected⟩
    rintro ⟨d, there, is | is⟩
    · rw [at_] at there
      cases there
      rw [notSpace] at is
      cases is
    · rw [at_] at there
      cases there
      exact notNewline is
  have same : ∀ {c d : UInt8}, buffer[r]? = some c → buffer[r]? = some d →
      d = c := by
    intro c d first second
    rw [first] at second
    exact (Option.some.inj second).symm
  cases found with
  | @punctuation c type at_ is =>
      obtain rfl : r = p := by omega
      refine decides at_ (punctuation_not_blank is) ?_
      rintro ⟨-, d, there, noToken, -⟩
      rw [same at_ there, is] at noToken
      cases noToken
  | arrow at_ next =>
      rcases Nat.eq_or_lt_of_le low with rfl | more
      · refine decides at_ (by decide) ?_
        rintro ⟨-, d, there, -, notEquals, -⟩
        exact notEquals (same at_ there)
      · obtain rfl : r = p + 1 := by omega
        refine decides next (by decide) ?_
        rintro ⟨-, d, there, -, -, -, -, -, -, -, noArrow⟩
        exact noArrow (same next there) p rfl at_
  | equals at_ next =>
      obtain rfl : r = p := by omega
      refine decides at_ (by decide) ?_
      rintro ⟨-, d, there, -, notEquals, -⟩
      exact notEquals (same at_ there)
  | @word n c at_ start pos inside stops =>
      rcases inside r low high with ⟨d, there, is⟩
      refine decides there (character_not_blank is) ?_
      rintro ⟨-, e, there', -, -, -, -, notStart, -, noWord, -⟩
      obtain rfl := same there there'
      rcases Nat.eq_or_lt_of_le low with rfl | more
      · rw [same at_ there, start] at notStart
        cases notStart
      · exact noWord is ⟨p, more, ⟨c, at_, start⟩, fun q qLow qHigh =>
          inside q qLow (by omega)⟩
  | number pos inside stops =>
      rcases inside r low high with ⟨d, there, is⟩
      refine decides there (character_not_blank (digit_character is)) ?_
      rintro ⟨-, e, there', -, -, -, -, -, notDigit, -⟩
      obtain rfl := same there there'
      rw [is] at notDigit
      cases notDigit

theorem Found.in_blank {piece : Piece} (found : Found buffer p piece n)
    (blank : piece = .space ∨ piece = .newline) {r : Nat} (low : p ≤ r)
    (high : r < p + n) : IsBlank buffer r := by
  cases found with
  | @space c at_ is =>
      obtain rfl : r = p := by omega
      exact ⟨c, at_, .inl is⟩
  | newline at_ =>
      obtain rfl : r = p := by omega
      exact ⟨_, at_, .inr rfl⟩
  | _ => rcases blank with same | same <;> cases same

theorem Found.in_comment (found : Found buffer p .comment n) {r : Nat}
    (low : p ≤ r) (high : r < p + n) : InComment buffer r := by
  cases found with
  | comment at_ pos inside ends =>
      refine ⟨p, low, at_, fun q qLow qHigh newline => ?_⟩
      rcases inside q qLow (by omega) with ⟨c, there, other⟩
      rw [there] at newline
      exact other (Option.some.inj newline)

theorem Found.in_rejected (found : Found buffer p .rejected n)
    (boundary : Boundary buffer p) : n = 1 ∧ Rejected buffer p := by
  have noComment := found.not_inComment boundary nofun le_rfl
    (Nat.lt_add_of_pos_right found.pos)
  cases found with
  | @rejected c at_ noToken notEquals notSpace notNewline notComment notStart
      notDigit =>
      refine ⟨rfl, noComment, c, at_, noToken, notEquals, notSpace, notNewline,
        notStart, notDigit, boundary.fresh c at_, ?_⟩
      rintro rfl
      exact boundary.noArrow at_

theorem Rejected.not_blank (rejected : Rejected buffer p) :
    ¬IsBlank buffer p := by
  rintro ⟨c, at_, is⟩
  rcases rejected.character with ⟨d, there, -, -, notSpace, notNewline, -⟩
  rw [at_] at there
  cases there
  rcases is with space | newline
  · rw [notSpace] at space
    cases space
  · exact notNewline newline

theorem Found.not_rejected {piece : Piece} (found : Found buffer p piece n)
    (boundary : Boundary buffer p) (other : piece ≠ .rejected) {r : Nat}
    (low : p ≤ r) (high : r < p + n) : ¬Rejected buffer r := by
  intro rejected
  cases piece with
  | token type => exact (found.in_token boundary low high).2.2 rejected
  | space => exact rejected.not_blank (found.in_blank (.inl rfl) low high)
  | newline => exact rejected.not_blank (found.in_blank (.inr rfl) low high)
  | comment => exact rejected.noComment (found.in_comment low high)
  | rejected => exact other rfl

end

/-- The tokens of a state cover what is no comment, blank or rejected. -/
structure TokensAccount (buffer : ByteString) (state : LexState) : Prop where
  covers : ∀ p < state.ptr,
    (∃ t ∈ state.tokens, t.start ≤ p ∧ p < t.start + t.length) ↔
      ¬InComment buffer p ∧ ¬IsBlank buffer p ∧ ¬Rejected buffer p
  extent : ∀ t ∈ state.tokens, 0 < t.length ∧
    t.start + t.length ≤ state.ptr
  ordered : state.tokens.Pairwise fun t u => t.start + t.length ≤ u.start

/--
The errors of a state cover what is rejected, up to the run that has not been
reported yet.
-/
structure ErrorsAccount (buffer : ByteString) (state : LexState) : Prop where
  covers : ∀ p < state.ptr,
    ((∃ e ∈ state.errors, e.startPos ≤ p ∧ p < e.endPos) ∨
        ∃ start, state.errorStart = some start ∧ start ≤ p) ↔
      Rejected buffer p
  extent : ∀ e ∈ state.errors, e.startPos < e.endPos ∧ e.endPos ≤ state.ptr
  pending : ∀ start, state.errorStart = some start → start < state.ptr ∧
    ∀ e ∈ state.errors, e.endPos ≤ start
  last : (∃ start, state.errorStart = some start) ↔
    ∃ p, p + 1 = state.ptr ∧ Rejected buffer p

theorem LexState.after_tokens (piece : Piece) (length : Nat)
    (state : LexState) :
    (state.after piece length).tokens =
      match piece with
      | .token type => state.tokens ++ [⟨type, state.ptr, length⟩]
      | _ => state.tokens := by
  cases piece <;> cases start : state.errorStart <;>
    simp [after, Piece.found, collapseErrors, addToken, skip, addLine, start]

theorem LexState.after_rejected (length : Nat) (state : LexState) :
    (state.after .rejected length).errors = state.errors ∧
      (state.after .rejected length).errorStart =
        some (state.errorStart.getD state.ptr) := by
  cases start : state.errorStart <;>
    simp [after, Piece.found, collapseErrors, skip, start]

theorem LexState.after_other {piece : Piece} (other : piece ≠ .rejected)
    (length : Nat) (state : LexState) :
    (state.after piece length).errors = state.errors ++
        (match state.errorStart with
          | some start => [⟨"Unexpected characters", start, state.ptr⟩]
          | none => []) ∧
      (state.after piece length).errorStart = none := by
  cases piece with
  | rejected => exact absurd rfl other
  | _ =>
      cases start : state.errorStart <;>
        simp [after, Piece.found, collapseErrors, addToken, skip, addLine,
          start]

section

variable {buffer : ByteString} {state : LexState} {piece : Piece} {n : Nat}

theorem TokensAccount.step (account : TokensAccount buffer state)
    (boundary : Boundary buffer state.ptr)
    (found : Found buffer state.ptr piece n) :
    TokensAccount buffer (state.after piece n) := by
  have tokens := LexState.after_tokens piece n state
  have ptr := LexState.after_ptr piece n state
  -- No token reaches beyond the pointer.
  have old : ∀ p, state.ptr ≤ p →
      ¬∃ t ∈ state.tokens, t.start ≤ p ∧ p < t.start + t.length := by
    rintro p low ⟨t, member, -, high⟩
    have extent := (account.extent t member).2
    omega
  by_cases isToken : ∃ type, piece = .token type
  · rcases isToken with ⟨type, rfl⟩
    replace tokens : (state.after (.token type) n).tokens =
      state.tokens ++ [⟨type, state.ptr, n⟩] := tokens
    constructor
    · intro p below
      rw [ptr] at below
      rw [tokens]
      simp only [List.mem_append, List.mem_singleton, or_and_right, exists_or,
        exists_eq_left]
      rcases Nat.lt_or_ge p state.ptr with before | new
      · rw [← account.covers p before]
        constructor
        · rintro (covered | ⟨low, -⟩)
          · exact covered
          · omega
        · exact .inl
      · exact iff_of_true (.inr ⟨new, below⟩) (found.in_token boundary new below)
    · intro t member
      rw [tokens] at member
      rw [ptr]
      rcases List.mem_append.mp member with before | new
      · have extent := account.extent t before
        exact ⟨extent.1, by omega⟩
      · rw [List.mem_singleton.mp new]
        exact ⟨found.pos, le_rfl⟩
    · rw [tokens, List.pairwise_append]
      refine ⟨account.ordered, List.pairwise_singleton _ _, ?_⟩
      intro t member u new
      rw [List.mem_singleton.mp new]
      exact (account.extent t member).2
  · have same : (state.after piece n).tokens = state.tokens := by
      rw [tokens]
      cases piece with
      | token type => exact absurd ⟨type, rfl⟩ isToken
      | _ => rfl
    constructor
    · intro p below
      rw [ptr] at below
      rw [same]
      rcases Nat.lt_or_ge p state.ptr with before | new
      · exact account.covers p before
      · refine iff_of_false (old p new) ?_
        rintro ⟨noComment, noBlank, noReject⟩
        cases piece with
        | token type => exact isToken ⟨type, rfl⟩
        | space => exact noBlank (found.in_blank (.inl rfl) new below)
        | newline => exact noBlank (found.in_blank (.inr rfl) new below)
        | comment => exact noComment (found.in_comment new below)
        | rejected =>
            rcases found.in_rejected boundary with ⟨rfl, rejected⟩
            obtain rfl : p = state.ptr := by omega
            exact noReject rejected
    · intro t member
      rw [same] at member
      rw [ptr]
      have extent := account.extent t member
      exact ⟨extent.1, by omega⟩
    · rw [same]
      exact account.ordered

theorem ErrorsAccount.step (account : ErrorsAccount buffer state)
    (boundary : Boundary buffer state.ptr)
    (found : Found buffer state.ptr piece n) :
    ErrorsAccount buffer (state.after piece n) := by
  have ptr := LexState.after_ptr piece n state
  by_cases isRejected : piece = .rejected
  · subst isRejected
    rcases found.in_rejected boundary with ⟨rfl, rejected⟩
    rcases LexState.after_rejected 1 state with ⟨errors, start⟩
    have upTo : state.errorStart.getD state.ptr ≤ state.ptr := by
      cases begun : state.errorStart with
      | none => exact le_rfl
      | some first => exact Nat.le_of_lt (account.pending first begun).1
    constructor
    · intro p below
      rw [ptr] at below
      rw [errors, start]
      simp only [Option.some.injEq, exists_eq_left']
      rcases Nat.lt_or_ge p state.ptr with before | new
      · rw [← account.covers p before]
        cases begun : state.errorStart with
        | none => simp [Nat.not_le.mpr before]
        | some first => simp
      · obtain rfl : p = state.ptr := by omega
        exact iff_of_true (.inr upTo) rejected
    · intro e member
      rw [errors] at member
      rw [ptr]
      have extent := account.extent e member
      exact ⟨extent.1, by omega⟩
    · intro first begins
      rw [start, Option.some.injEq] at begins
      rw [errors, ptr, ← begins]
      refine ⟨Nat.lt_succ_of_le upTo, fun e member => ?_⟩
      cases begun : state.errorStart with
      | none => exact (account.extent e member).2
      | some first => exact (account.pending first begun).2 e member
    · rw [start, ptr]
      exact iff_of_true ⟨_, rfl⟩ ⟨state.ptr, rfl, rejected⟩
  · rcases LexState.after_other isRejected n state with ⟨errors, start⟩
    have notRejected : ∀ p, state.ptr ≤ p → p < state.ptr + n →
        ¬Rejected buffer p :=
      fun p low high => found.not_rejected boundary isRejected low high
    have pos := found.pos
    have extent : ∀ e ∈ (state.after piece n).errors,
        e.startPos < e.endPos ∧ e.endPos ≤ state.ptr := by
      intro e member
      rw [errors] at member
      rcases List.mem_append.mp member with before | new
      · exact account.extent e before
      · cases begun : state.errorStart with
        | none => simp [begun] at new
        | some first =>
            simp only [begun, List.mem_singleton] at new
            rw [new]
            exact ⟨(account.pending first begun).1, le_rfl⟩
    constructor
    · intro p below
      rw [ptr] at below
      rw [start]
      simp only [reduceCtorEq, false_and, exists_false, or_false]
      rcases Nat.lt_or_ge p state.ptr with before | new
      · rw [← account.covers p before, errors]
        cases begun : state.errorStart with
        | none => simp
        | some first => simp [or_and_right, exists_or, before]
      · refine iff_of_false ?_ (notRejected p new below)
        rintro ⟨e, member, -, high⟩
        have upTo := (extent e member).2
        omega
    · intro e member
      rw [ptr]
      have extent := extent e member
      exact ⟨extent.1, by omega⟩
    · intro first begins
      rw [start] at begins
      cases begins
    · rw [start, ptr]
      refine iff_of_false nofun ?_
      rintro ⟨p, last, rejected⟩
      exact notRejected p (by omega) (by omega) rejected

theorem Reached.accounts (reached : Reached buffer state) :
    TokensAccount buffer state ∧ ErrorsAccount buffer state := by
  induction reached with
  | refl =>
      constructor
      · constructor
        · intro p below
          cases below
        · intro t member
          cases member
        · exact List.Pairwise.nil
      · constructor
        · intro p below
          cases below
        · intro e member
          cases member
        · intro start begins
          cases begins
        · refine iff_of_false nofun ?_
          rintro ⟨p, last, -⟩
          cases last
  | @tail middle last before step ih =>
      rcases lexStep_found step.1 step.2 with ⟨piece, n, found, rfl, -⟩
      have boundary := Reached.boundary before
      exact ⟨ih.1.step boundary found, ih.2.step boundary found⟩

end

/-! ## The result of the scan -/

/-- What a character of the source can be part of. -/
inductive Part where
  | token
  | blank
  | comment
  | error
deriving DecidableEq

/-- A position is part of a token, a blank, a comment or a reported error. -/
def Part.Holds (result : MillieTokens × List ErrorReport) (p : Nat) :
    Part → Prop
  | token => ∃ t ∈ result.1.tokenArray, t.start ≤ p ∧ p < t.start + t.length
  | blank => IsBlank result.1.buffer p ∧ ¬InComment result.1.buffer p
  | comment => InComment result.1.buffer p
  | error => ∃ e ∈ result.2, e.startPos ≤ p ∧ p < e.endPos

/--
The tokens are in order and end with one `TOK_EOF` at the end of the buffer,
and every character is part of exactly one thing.
-/
structure AccountsForAll (result : MillieTokens × List ErrorReport) :
    Prop where
  ordered : result.1.tokenArray.Pairwise fun t u =>
    t.start < u.start ∧ t.start + t.length ≤ u.start
  ended : ∃ tokens, result.1.tokenArray =
    tokens ++ [⟨.tokEof, result.1.buffer.length, 0⟩] ∧
      ∀ t ∈ tokens, t.type ≠ .tokEof
  parts : ∀ p < result.1.buffer.length, ∃! part, Part.Holds result p part

/-- A word is an identifier or the keyword it spells. -/
theorem classify_ne {type : TokenType} (other : type ≠ .tokId)
    (none_ : ∀ keyword ∈ keywords, keyword.token ≠ type) (word : ByteString) :
    classify word ≠ type := by
  rw [classify]
  cases found : keywords.find? (·.str == word) with
  | none => exact other.symm
  | some keyword => exact none_ keyword (List.mem_of_find?_eq_some found)

section

variable {buffer : ByteString} {state : LexState}

/-- Every token is the piece at its position. -/
theorem Reached.token_found (reached : Reached buffer state) :
    ∀ t ∈ state.tokens, Found buffer t.start (.token t.type) t.length := by
  induction reached with
  | refl => exact nofun
  | @tail middle last before step ih =>
      rcases lexStep_found step.1 step.2 with ⟨piece, n, found, rfl, -⟩
      rw [LexState.after_tokens]
      cases piece with
      | token type =>
          intro t member
          rcases List.mem_append.mp member with old | new
          · exact ih t old
          · rw [List.mem_singleton.mp new]
            exact found
      | _ => exact ih

theorem Found.ne_eof {p n : Nat} {piece : Piece}
    (found : Found buffer p piece n) : piece ≠ .token .tokEof := by
  cases found with
  | @punctuation c type at_ is =>
      unfold Syntax.punctuation at is
      split_ifs at is
      all_goals cases is; exact nofun
  | word =>
      intro same
      exact classify_ne (by decide) (by decide) _ (Piece.token.inj same)
  | _ => exact nofun

end

/-- What a scan that returned has established. -/
theorem lexBuffer_accounts {buffer : ByteString}
    {result : MillieTokens × List ErrorReport}
    (returns : lexBuffer buffer = .ok result) :
    ∃ last, Reached buffer last ∧ last.ptr = buffer.length ∧
      TokensAccount buffer last ∧ ErrorsAccount buffer last ∧
      result = (⟨last.tokens ++ [⟨.tokEof, buffer.length, 0⟩], last.lines,
        buffer⟩, last.errors) := by
  rcases lexBuffer_ok returns with ⟨last, reached, ended, same⟩
  rcases reached.accounts with ⟨tokens, errors⟩
  exact ⟨last, reached, ended, tokens, errors, same⟩

/--
What the scan returns accounts for every character if and only if the buffer
does not end in a rejected one.
-/
theorem lex_accounts_iff {buffer : ByteString}
    {result : MillieTokens × List ErrorReport}
    (returns : lexBuffer buffer = .ok result) :
    AccountsForAll result ↔
      ∀ p, p + 1 = buffer.length → ¬Rejected buffer p := by
  rcases lexBuffer_accounts returns with
    ⟨last, reached, ended, tokens, errors, rfl⟩
  -- Only the last token is empty, so it covers nothing.
  have inToken : ∀ p < buffer.length,
      (∃ t ∈ last.tokens ++ [⟨.tokEof, buffer.length, 0⟩],
        t.start ≤ p ∧ p < t.start + t.length) ↔
        ¬InComment buffer p ∧ ¬IsBlank buffer p ∧ ¬Rejected buffer p := by
    intro p below
    rw [← tokens.covers p (ended ▸ below)]
    simp only [List.mem_append, List.mem_singleton, or_and_right, exists_or,
      exists_eq_left, Nat.add_zero]
    constructor
    · rintro (covered | ⟨low, high⟩)
      · exact covered
      · omega
    · exact .inl
  have inError : last.errorStart = none → ∀ p < buffer.length,
      (∃ e ∈ last.errors, e.startPos ≤ p ∧ p < e.endPos) ↔
        Rejected buffer p := by
    intro none p below
    rw [← errors.covers p (ended ▸ below), none]
    simp
  have finished : last.errorStart = none ↔
      ∀ p, p + 1 = buffer.length → ¬Rejected buffer p := by
    rw [← ended, ← not_iff_not, ← ne_eq, Option.ne_none_iff_exists']
    rw [errors.last]
    constructor
    · rintro ⟨p, last, rejected⟩ never
      exact never p last rejected
    · intro some
      by_contra never
      exact some fun p last rejected => never ⟨p, last, rejected⟩
  rw [← finished]
  constructor
  · intro accounts
    by_contra pending
    rcases Option.ne_none_iff_exists'.mp pending with ⟨start, begins⟩
    rcases errors.pending start begins with ⟨below, before⟩
    have rejected : Rejected buffer start :=
      (errors.covers start below).mp (.inr ⟨start, begins, le_rfl⟩)
    rcases accounts.parts start (ended ▸ below) with ⟨part, holds, -⟩
    cases part with
    | token => exact ((inToken start (ended ▸ below)).mp holds).2.2 rejected
    | blank => exact rejected.not_blank holds.1
    | comment => exact rejected.noComment holds
    | error =>
        rcases holds with ⟨e, member, -, high⟩
        exact absurd high (Nat.not_lt_of_le (before e member))
  · intro none
    refine ⟨?_, ⟨last.tokens, rfl, ?_⟩, ?_⟩
    · rw [List.pairwise_append]
      refine ⟨?_, List.pairwise_singleton _ _, ?_⟩
      · refine tokens.ordered.imp_of_mem ?_
        intro t u first _ apart
        have extent := (tokens.extent t first).1
        exact ⟨by omega, apart⟩
      · intro t member u new
        rw [List.mem_singleton.mp new]
        have extent := tokens.extent t member
        rw [ended] at extent
        have starts : t.start < buffer.length := by omega
        exact ⟨starts, extent.2⟩
    · intro t member same
      have found := (reached.token_found t member).ne_eof
      exact found (congrArg Piece.token same)
    · intro p below
      have covered := inToken p below
      have reported := inError none p below
      by_cases comment : InComment buffer p
      · refine ⟨.comment, comment, fun part holds => ?_⟩
        cases part with
        | token => exact absurd comment (covered.mp holds).1
        | blank => exact absurd comment holds.2
        | comment => rfl
        | error => exact absurd comment (reported.mp holds).noComment
      by_cases blank : IsBlank buffer p
      · refine ⟨.blank, ⟨blank, comment⟩, fun part holds => ?_⟩
        cases part with
        | token => exact absurd blank (covered.mp holds).2.1
        | blank => rfl
        | comment => exact absurd holds comment
        | error => exact absurd blank (reported.mp holds).not_blank
      by_cases rejected : Rejected buffer p
      · refine ⟨.error, reported.mpr rejected, fun part holds => ?_⟩
        cases part with
        | token => exact absurd rejected (covered.mp holds).2.2
        | blank => exact absurd holds.1 blank
        | comment => exact absurd holds comment
        | error => rfl
      · refine ⟨.token, covered.mpr ⟨comment, blank, rejected⟩,
          fun part holds => ?_⟩
        cases part with
        | token => rfl
        | blank => exact absurd holds.1 blank
        | comment => exact absurd holds comment
        | error => exact absurd (reported.mp holds) rejected

/-- `1 $ 2` ends in a token. -/
theorem lex_accounts_inner :
    AccountsForAll (⟨[⟨.tokIntLiteral, 0, 1⟩, ⟨.tokIntLiteral, 4, 1⟩,
        ⟨.tokEof, 5, 0⟩], [], ['1', ' ', '$', ' ', '2'].map byte⟩,
      [⟨"Unexpected characters", 2, 3⟩]) := by
  have returns : lexBuffer (['1', ' ', '$', ' ', '2'].map byte) =
      .ok (⟨[⟨.tokIntLiteral, 0, 1⟩, ⟨.tokIntLiteral, 4, 1⟩,
        ⟨.tokEof, 5, 0⟩], [], ['1', ' ', '$', ' ', '2'].map byte⟩,
      [⟨"Unexpected characters", 2, 3⟩]) := by
    rfl
  refine (lex_accounts_iff returns).mpr ?_
  rintro p last ⟨-, c, at_, -, -, -, -, -, notDigit, -⟩
  obtain rfl : p = 4 := by simpa using last
  cases at_
  exact absurd notDigit (by decide)

/-- The error at the end of `1 $` is never reported. -/
theorem lex_accounts_not : ∃ result,
    lexBuffer (['1', ' ', '$'].map byte) = .ok result ∧ result.2 = [] ∧
      ¬AccountsForAll result := by
  refine ⟨(⟨[⟨.tokIntLiteral, 0, 1⟩, ⟨.tokEof, 3, 0⟩], [],
    ['1', ' ', '$'].map byte⟩, []), rfl, rfl, ?_⟩
  intro accounts
  rcases accounts.parts 2 (by decide) with ⟨part, holds, -⟩
  cases part with
  | token =>
      rcases holds with ⟨t, member, low, high⟩
      simp only [List.mem_cons, List.not_mem_nil, or_false] at member
      rcases member with rfl | rfl
      · exact absurd high (by decide)
      · exact absurd low (by decide)
  | blank =>
      rcases holds.1 with ⟨c, at_, is⟩
      cases at_
      exact absurd is (by decide)
  | comment =>
      rcases holds with ⟨q, upTo, hash, -⟩
      have small : q = 0 ∨ q = 1 ∨ q = 2 := by omega
      rcases small with rfl | rfl | rfl
      all_goals exact absurd hash (by decide)
  | error =>
      rcases holds with ⟨e, member, -⟩
      cases member

end Millie.Syntax
