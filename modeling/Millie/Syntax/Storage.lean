import Millie.Memory.ArrayList
import Millie.Syntax.Coverage
import Mathlib.Data.Set.Card

/-!
# The arrays of the lexer

`LexBuffer` keeps the tokens and the newlines in two array lists.  The scan reads
neither, so what becomes of them is one call of `ArrayListAdd` after another, and
each of them holds no more than an array list can.
-/

namespace Millie.Syntax

open Millie.Symbols Millie.Memory

/-! ## The translation -/

/-- The bytes of an `unsigned`, the lowest first. -/
def bytes32 (value : Nat) : Item :=
  [.ofNat value, .ofNat (value / 256), .ofNat (value / 65536),
    .ofNat (value / 16777216)]

/-- The `unsigned` in four bytes. -/
def value32 (item : Item) : Nat :=
  item.foldr (fun byte value => byte.toNat + 256 * value) 0

/-- The bytes of a `struct MillieToken`. -/
def tokenItem (token : MillieToken) : Item :=
  bytes32 token.type.ctorIdx ++ bytes32 token.start ++ bytes32 token.length

/-- `LexBuffer` with `token_array` and `line_array`. -/
def lexArrays (uninit : Nat → UInt8) (buffer : ByteString) :
    Except Stop (ArrayList × ArrayList) := do
  let result ← lexBuffer buffer
  let tokenArray ← arrayListAddAll uninit (arrayListCreate uninit 12 200)
    (result.1.tokenArray.map tokenItem)
  let lineArray ← arrayListAddAll uninit (arrayListCreate uninit 4 100)
    (result.1.lineArray.map bytes32)
  return (tokenArray, lineArray)

theorem value32_bytes32 {value : Nat} (small : value < 4294967296) :
    value32 (bytes32 value) = value := by
  simp [value32, bytes32]
  omega

/-! ## Where tokens start -/

/-- A token starts at a position, which is not inside a number. -/
structure StartsToken (buffer : ByteString) (p : Nat) : Prop where
  boundary : Boundary buffer p
  token : ∃ type n, Found buffer p (.token type) n
  fresh : ∀ q c d, q + 1 = p → buffer[q]? = some c → buffer[p]? = some d →
    isDigit c = true → isDigit d = false

/-- The number of the tokens of a buffer, but for the last. -/
noncomputable def tokenCount (buffer : ByteString) : Nat :=
  {p | StartsToken buffer p}.ncard

section

variable {buffer : ByteString} {p n : Nat} {piece : Piece}

theorem punctuation_not_digit {c : UInt8} {type : TokenType}
    (is : punctuation c = some type) : isDigit c = false := by
  rw [Bool.eq_false_iff]
  intro digit
  rw [isDigit_iff] at digit
  have other : ∀ d : UInt8, d.toNat < 48 → c ≠ d := by
    rintro d small rfl
    omega
  rw [punctuation] at is
  simp [other (byte '(') (by decide), other (byte ')') (by decide),
    other (byte '+') (by decide), other (byte '-') (by decide),
    other (byte '*') (by decide), other (byte '/') (by decide),
    other (byte ',') (by decide)] at is

/-- No piece ends between two digits. -/
theorem Found.digits_apart (found : Found buffer p piece n) {q : Nat}
    {c d : UInt8} (last : q + 1 = p + n) (left : buffer[q]? = some c)
    (right : buffer[p + n]? = some d) (digit : isDigit c = true) :
    isDigit d = false := by
  have only : ∀ {e : UInt8}, buffer[p]? = some e → n = 1 →
      isDigit e = true := by
    intro e at_ single
    obtain rfl : q = p := by omega
    rw [at_] at left
    cases left
    exact digit
  cases found with
  | punctuation at_ is =>
      exact absurd (only at_ rfl) (by simp [punctuation_not_digit is])
  | arrow at_ next =>
      obtain rfl : q = p + 1 := by omega
      rw [next] at left
      cases left
      exact absurd digit (by decide)
  | equals at_ next => exact absurd (only at_ rfl) (by decide)
  | space at_ is =>
      have blank := character_not_blank (digit_character (only at_ rfl))
      rw [is] at blank
      cases blank.1
  | newline at_ => exact absurd (only at_ rfl) (by decide)
  | comment at_ pos inside ends =>
      rw [ends] at right
      cases right
      decide
  | word at_ start pos inside stops =>
      rw [Bool.eq_false_iff]
      intro more
      have := stops d right
      rw [digit_character more] at this
      cases this
  | number pos inside stops => exact stops d right
  | rejected at_ noToken notEquals notSpace notNewline notComment notStart
      notDigit =>
      rw [only at_ rfl] at notDigit
      cases notDigit

/-- No token starts inside a piece. -/
theorem Found.not_startsToken (found : Found buffer p piece n) {r : Nat}
    (low : p < r) (high : r < p + n) : ¬StartsToken buffer r := by
  rintro ⟨boundary, -, fresh⟩
  cases found with
  | punctuation | equals | space | newline | rejected => omega
  | arrow at_ next =>
      obtain rfl : r = p + 1 := by omega
      exact boundary.noArrow next p rfl at_
  | comment at_ pos inside ends =>
      rcases boundary.closed p low at_ with ⟨q, after, upTo, newline⟩
      rcases inside q (Nat.le_of_lt after) (by omega) with ⟨c, there, other⟩
      rw [there] at newline
      exact other (Option.some.inj newline)
  | @word n c at_ start pos inside stops =>
      rcases inside r (Nat.le_of_lt low) high with ⟨d, there, is⟩
      exact boundary.fresh d there is ⟨p, low, ⟨c, at_, start⟩,
        fun q qLow qHigh => inside q qLow (by omega)⟩
  | number pos inside stops =>
      rcases inside (r - 1) (by omega) (by omega) with ⟨c, before, digit⟩
      rcases inside r (Nat.le_of_lt low) high with ⟨d, there, more⟩
      rw [fresh (r - 1) c d (by omega) before there digit] at more
      cases more

/-- A token starts where a piece starts that is one. -/
theorem Found.startsToken_iff (found : Found buffer p piece n)
    (boundary : Boundary buffer p)
    (fresh : ∀ q c d, q + 1 = p → buffer[q]? = some c → buffer[p]? = some d →
      isDigit c = true → isDigit d = false) :
    StartsToken buffer p ↔ ∃ type, piece = .token type := by
  have here : p < p + n := Nat.lt_add_of_pos_right found.pos
  constructor
  · rintro ⟨-, ⟨type, m, token⟩, -⟩
    rcases token.in_token boundary le_rfl (Nat.lt_add_of_pos_right token.pos)
      with ⟨noComment, noBlank, noReject⟩
    cases piece with
    | token type => exact ⟨type, rfl⟩
    | space => exact absurd (found.in_blank (.inl rfl) le_rfl here) noBlank
    | newline => exact absurd (found.in_blank (.inr rfl) le_rfl here) noBlank
    | comment => exact absurd (found.in_comment le_rfl here) noComment
    | rejected => exact absurd (found.in_rejected boundary).2 noReject
  · rintro ⟨type, rfl⟩
    exact ⟨boundary, ⟨type, n, found⟩, fresh⟩

end

section

variable {buffer : ByteString} {state : LexState}

/-- The tokens of a state, by where they start. -/
structure StartsAccount (buffer : ByteString) (state : LexState) : Prop where
  starts : ∀ p, p ∈ state.tokens.map MillieToken.start ↔
    p < state.ptr ∧ StartsToken buffer p
  fresh : ∀ q c d, q + 1 = state.ptr → buffer[q]? = some c →
    buffer[state.ptr]? = some d → isDigit c = true → isDigit d = false

theorem Reached.startsAccount (reached : Reached buffer state) :
    StartsAccount buffer state := by
  induction reached with
  | refl => exact ⟨fun p => iff_of_false nofun nofun, nofun⟩
  | @tail middle last before step ih =>
      have boundary := Reached.boundary before
      rcases lexStep_found step.1 step.2 with ⟨piece, n, found, rfl, -⟩
      have here := found.startsToken_iff boundary ih.fresh
      constructor
      · intro p
        rw [LexState.after_ptr]
        have old : p ∈ middle.tokens.map MillieToken.start ↔
            p < middle.ptr ∧ StartsToken buffer p := ih.starts p
        have added : p ∈ (middle.after piece n).tokens.map
            MillieToken.start ↔ p ∈ middle.tokens.map MillieToken.start ∨
              (p = middle.ptr ∧ ∃ type, piece = .token type) := by
          rw [LexState.after_tokens]
          cases piece with
          | token type => simp
          | _ => simp
        rw [added, old]
        rcases Nat.lt_trichotomy p middle.ptr with before | rfl | after
        · have := found.pos
          constructor
          · rintro (⟨-, starts⟩ | ⟨same, -⟩)
            · exact ⟨by omega, starts⟩
            · omega
          · exact fun both => .inl ⟨before, both.2⟩
        · have := found.pos
          constructor
          · rintro (⟨less, -⟩ | ⟨-, isToken⟩)
            · omega
            · exact ⟨by omega, here.mpr isToken⟩
          · exact fun both => .inr ⟨rfl, here.mp both.2⟩
        · constructor
          · rintro (⟨less, -⟩ | ⟨same, -⟩)
            · omega
            · omega
          · rintro ⟨inside, starts⟩
            exact absurd starts (found.not_startsToken after inside)
      · rw [LexState.after_ptr]
        exact fun q c d => found.digits_apart

theorem Reached.tokens_length (reached : Reached buffer state)
    (ended : state.ptr = buffer.length) :
    state.tokens.length = tokenCount buffer := by
  have account := reached.accounts.1
  have increasing : (state.tokens.map MillieToken.start).Pairwise (· < ·) := by
    rw [List.pairwise_map]
    refine account.ordered.imp_of_mem fun first _ order => ?_
    have := (account.extent _ first).1
    omega
  have distinct : (state.tokens.map MillieToken.start).Nodup :=
    increasing.imp Nat.ne_of_lt
  have same : {p | StartsToken buffer p} =
      ((state.tokens.map MillieToken.start).toFinset : Set Nat) := by
    ext p
    rw [List.coe_toFinset, Set.mem_ofPred_eq, Set.mem_ofPred_eq,
      reached.startsAccount.starts p, ended]
    refine (and_iff_right_of_imp fun starts => ?_).symm
    rcases starts.token with ⟨type, n, found⟩
    rcases found.character le_rfl (Nat.lt_add_of_pos_right found.pos) with
      ⟨c, at_⟩
    exact (List.getElem?_eq_some_iff.mp at_).1
  rw [tokenCount, same, Set.ncard_coe_finset, List.toFinset_card_of_nodup
    distinct, List.length_map]

end

/-! ## What the arrays hold -/

/-- The largest number of items that either array can hold. -/
def arrayLimit : Nat := 3355443200

theorem largestCapacity_arrays :
    largestCapacity (firstCapacity 200) = arrayLimit ∧
      largestCapacity (firstCapacity 100) = arrayLimit := by
  decide +kernel

/-- An array holds a list of items. -/
def HoldsItems (array : ArrayList) (items : List Item) : Prop :=
  ∀ index : UInt32, arrayListItem array index =
    if inside : index.toNat < items.length then .ok items[index.toNat]
    else .error .failed

section

variable {uninit : Nat → UInt8} {buffer : ByteString}

theorem tokenItem_length (tokens : List MillieToken) :
    ∀ item ∈ tokens.map tokenItem, item.length = 12 := by
  intro item member
  rcases List.mem_map.mp member with ⟨token, -, rfl⟩
  rfl

theorem bytes32_length (lines : List Nat) :
    ∀ item ∈ lines.map bytes32, item.length = 4 := by
  intro item member
  rcases List.mem_map.mp member with ⟨position, -, rfl⟩
  rfl

theorem lexBuffer_tokenCount {tokens : MillieTokens}
    {errors : List ErrorReport}
    (scanned : lexBuffer buffer = .ok (tokens, errors)) :
    tokens.tokenArray.length = tokenCount buffer + 1 := by
  rcases lexBuffer_ok scanned with ⟨last, reached, ended, same⟩
  cases same
  rw [List.length_append, reached.tokens_length ended, List.length_singleton]

/-- The arrays of a scan hold its tokens and its newlines. -/
structure Stored (buffer : ByteString) (tokenArray lineArray : ArrayList)
    (tokens : MillieTokens) : Prop where
  scanned : ∃ errors, lexBuffer buffer = .ok (tokens, errors)
  tokenItems : HoldsItems tokenArray (tokens.tokenArray.map tokenItem)
  lineItems : HoldsItems lineArray (tokens.lineArray.map bytes32)
  tokenRoom : tokenCount buffer < arrayLimit
  lineRoom : tokens.lineArray.length ≤ arrayLimit

/-- What `LexBuffer` has in its arrays when it returns. -/
theorem lexArrays_stored {tokenArray lineArray : ArrayList}
    (returns : lexArrays uninit buffer = .ok (tokenArray, lineArray)) :
    ∃ tokens, Stored buffer tokenArray lineArray tokens := by
  rw [lexArrays, Stop.bind_eq_ok_iff] at returns
  rcases returns with ⟨⟨tokens, errors⟩, scanned, returns⟩
  rw [Stop.bind_eq_ok_iff] at returns
  rcases returns with ⟨first, tokensAdded, returns⟩
  rw [Stop.bind_eq_ok_iff] at returns
  rcases returns with ⟨second, linesAdded, returns⟩
  cases returns
  rcases arrayListAddAll_iff (by decide) (by decide)
    (tokenItem_length tokens.tokenArray) uninit 200 with ⟨room, tokensHeld⟩
  rcases arrayListAddAll_iff (by decide) (by decide)
    (bytes32_length tokens.lineArray) uninit 100 with ⟨lineRoom, linesHeld⟩
  have fits := room.mp ⟨_, tokensAdded⟩
  have lineFits := lineRoom.mp ⟨_, linesAdded⟩
  rw [List.length_map, lexBuffer_tokenCount scanned,
    largestCapacity_arrays.1] at fits
  rw [List.length_map, largestCapacity_arrays.2] at lineFits
  exact ⟨tokens, ⟨errors, scanned⟩, tokensHeld _ tokensAdded,
    linesHeld _ linesAdded, fits, lineFits⟩

/-- `LexBuffer` returns with its arrays when there is room in them. -/
theorem lexArrays_returns {tokens : MillieTokens} {errors : List ErrorReport}
    (scanned : lexBuffer buffer = .ok (tokens, errors))
    (tokenRoom : tokenCount buffer < arrayLimit)
    (lineRoom : tokens.lineArray.length ≤ arrayLimit) :
    ∃ tokenArray lineArray,
      lexArrays uninit buffer = .ok (tokenArray, lineArray) := by
  have fits : (tokens.tokenArray.map tokenItem).length ≤
      largestCapacity (firstCapacity 200) := by
    rw [List.length_map, lexBuffer_tokenCount scanned,
      largestCapacity_arrays.1]
    exact tokenRoom
  have lineFits : (tokens.lineArray.map bytes32).length ≤
      largestCapacity (firstCapacity 100) := by
    rw [List.length_map, largestCapacity_arrays.2]
    exact lineRoom
  rcases (arrayListAddAll_iff (by decide) (by decide)
    (tokenItem_length tokens.tokenArray) uninit 200).1.mpr fits with
    ⟨tokenArray, tokensAdded⟩
  rcases (arrayListAddAll_iff (by decide) (by decide)
    (bytes32_length tokens.lineArray) uninit 100).1.mpr lineFits with
    ⟨lineArray, linesAdded⟩
  refine ⟨tokenArray, lineArray, ?_⟩
  rw [lexArrays, scanned, Stop.ok_bind, tokensAdded, Stop.ok_bind, linesAdded]
  rfl

end

end Millie.Syntax
