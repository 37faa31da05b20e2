import Millie.Syntax.Expression

/-!
# The lexer

Translation of `LexBuffer` and its helpers in `lexer.c`.  A pointer into the
buffer is its distance from the start.  A string is followed by one zero byte,
as `MString` and string literals are, and a read past that byte is undefined
behaviour.  The loops bounded by `limit` recurse on the distance to it.
-/

namespace Millie.Syntax

open Millie.Symbols

/-- `struct MillieTokens`. -/
structure MillieTokens where
  tokenArray : List MillieToken
  lineArray : List Nat
  buffer : ByteString
deriving DecidableEq

/-- The character constants of the source. -/
def byte (c : Char) : UInt8 :=
  UInt8.ofNat c.toNat

/-- `string[i]`, the string being followed by a zero byte. -/
def charAt (string : ByteString) (i : Nat) : Except Stop UInt8 :=
  match string[i]? with
  | some c => .ok c
  | none => if i = string.length then .ok 0 else .error .undefinedBehaviour

/-! ## Characters -/

/-- `_IsDigit`. -/
def isDigit (c : UInt8) : Bool :=
  byte '0' ≤ c && c ≤ byte '9'

/-- `_IsIdentifierCharacter`. -/
def isIdentifierCharacter (c : UInt8) : Bool :=
  (byte '0' ≤ c && c ≤ byte '9') || (byte 'A' ≤ c && c ≤ byte 'Z') ||
    (byte 'a' ≤ c && c ≤ byte 'z') || c == byte '_' || c == 39 || c == 34

/-- `_IsIdentifierStart`. -/
def isIdentifierStart (c : UInt8) : Bool :=
  (byte 'A' ≤ c && c ≤ byte 'Z') || (byte 'a' ≤ c && c ≤ byte 'z') ||
    c == byte '_'

/-- The cases of the switch that add a token of one character. -/
def punctuation (c : UInt8) : Option TokenType :=
  if c = byte '(' then some .tokLParen
  else if c = byte ')' then some .tokRParen
  else if c = byte '+' then some .tokPlus
  else if c = byte '-' then some .tokMinus
  else if c = byte '*' then some .tokStar
  else if c = byte '/' then some .tokSlash
  else if c = byte ',' then some .tokComma
  else none

/-- The cases of the switch that skip a character. -/
def isSpace (c : UInt8) : Bool :=
  c == byte ' ' || c == byte '\t' || c == byte '\r'

/-- `struct KeywordToken`. -/
structure KeywordToken where
  str : ByteString
  token : TokenType
deriving DecidableEq

/-- The tables of keywords, by their first character. -/
def keywordTable (c : UInt8) : Option (List KeywordToken) :=
  if c = byte 'e' then
    some [⟨['e', 'l', 's', 'e'].map byte, .tokElse⟩]
  else if c = byte 'f' then
    some [⟨['f', 'a', 'l', 's', 'e'].map byte, .tokFalse⟩,
      ⟨['f', 'n'].map byte, .tokFn⟩]
  else if c = byte 'i' then
    some [⟨['i', 'f'].map byte, .tokIf⟩, ⟨['i', 'n'].map byte, .tokIn⟩]
  else if c = byte 'l' then
    some [⟨['l', 'e', 't'].map byte, .tokLet⟩]
  else if c = byte 'r' then
    some [⟨['r', 'e', 'c'].map byte, .tokRec⟩]
  else if c = byte 't' then
    some [⟨['t', 'h', 'e', 'n'].map byte, .tokThen⟩,
      ⟨['t', 'r', 'u', 'e'].map byte, .tokTrue⟩]
  else none

/-! ## The state of the scan -/

/--
The locals of `LexBuffer` and what it has appended.  `errorStart` is `none`
where the source has `UINT_MAX`.
-/
structure LexState where
  ptr : Nat
  errorStart : Option Nat
  tokens : List MillieToken
  lines : List Nat
  errors : List ErrorReport

namespace LexState

/-- `_AddToken`, and the pointer moved to the end of the token. -/
def addToken (type : TokenType) (length : Nat) (state : LexState) : LexState :=
  { state with
    ptr := state.ptr + length
    tokens := state.tokens ++ [⟨type, state.ptr, length⟩] }

/-- Move the pointer. -/
def skip (length : Nat) (state : LexState) : LexState :=
  { state with ptr := state.ptr + length }

/-- `ArrayListAdd(tokens->line_array, &pos)`. -/
def addLine (state : LexState) : LexState :=
  { state with lines := state.lines ++ [state.ptr] }

end LexState

/-! ## The inner loops -/

/--
The loops of `_AddIntegerLiteral` and `_AddIdentifierToken`: the pointer moves
while the character before the limit is of a kind.
-/
def scanWhile (kind : UInt8 → Bool) (buffer : ByteString) :
    Nat → Nat → Except Stop Nat
  | 0, ptr => .ok ptr
  | left + 1, ptr => do
      let c ← charAt buffer ptr
      if kind c then scanWhile kind buffer left (ptr + 1) else return ptr

/-- The common shape of `_AddIntegerLiteral` and `_AddIdentifierToken`. -/
def addRun (kind : UInt8 → Bool) (type : TokenType) (buffer : ByteString)
    (state : LexState) : Except Stop LexState := do
  let ptr ← scanWhile kind buffer (buffer.length - state.ptr) state.ptr
  return state.addToken type (ptr - state.ptr)

/-- `_AddIntegerLiteral`. -/
def addIntegerLiteral : ByteString → LexState → Except Stop LexState :=
  addRun isDigit .tokIntLiteral

/-- `_AddIdentifierToken`. -/
def addIdentifierToken : ByteString → LexState → Except Stop LexState :=
  addRun isIdentifierCharacter .tokId

/-- The loop of `_TryAddKeyword`: both pointers move while they agree. -/
def matchKeyword (buffer keyword : ByteString) :
    Nat → Nat → Nat → Except Stop (Nat × Nat)
  | 0, ptr, keywordStr => .ok (ptr, keywordStr)
  | left + 1, ptr, keywordStr => do
      let c ← charAt buffer ptr
      let d ← charAt keyword keywordStr
      if c = d then matchKeyword buffer keyword left (ptr + 1) (keywordStr + 1)
      else return (ptr, keywordStr)

/-- `_TryAddKeyword`. -/
def tryAddKeyword (keyword : KeywordToken) (buffer : ByteString)
    (state : LexState) : Except Stop (Option LexState) := do
  let (ptr, keywordStr) ← matchKeyword buffer keyword.str
    (buffer.length - state.ptr) state.ptr 0
  let d ← charAt keyword.str keywordStr
  if d = 0 then
    let c ← charAt buffer ptr
    if isIdentifierCharacter c then return none
    else return some (state.addToken keyword.token (ptr - state.ptr))
  else return none

/-- `_TryAddKeywords`. -/
def tryAddKeywords (buffer : ByteString) (state : LexState) :
    List KeywordToken → Except Stop (Option LexState)
  | [] => .ok none
  | keyword :: keywords => do
      match ← tryAddKeyword keyword buffer state with
      | some after => return some after
      | none => tryAddKeywords buffer state keywords

/-- The body of the cases for the first letters of keywords. -/
def addWord (keywords : List KeywordToken) (buffer : ByteString)
    (state : LexState) : Except Stop LexState := do
  match ← tryAddKeywords buffer state keywords with
  | some after => return after
  | none => addIdentifierToken buffer state

/-- The case for `=`. -/
def addEquals (buffer : ByteString) (state : LexState) :
    Except Stop LexState := do
  if state.ptr + 1 < buffer.length then
    let c ← charAt buffer (state.ptr + 1)
    if c = byte '>' then return state.addToken .tokArrow 2
    else return state.addToken .tokEquals 1
  else return state.addToken .tokEquals 1

/--
The loop of the case for `#`, which has no limit: `left` counts the characters
that may be read, the zero byte included.
-/
def skipComment (buffer : ByteString) : Nat → Nat → Except Stop Nat
  | 0, _ => .error .undefinedBehaviour
  | left + 1, ptr => do
      let c ← charAt buffer ptr
      if c = byte '\n' then return ptr else skipComment buffer left (ptr + 1)

/-! ## The scan -/

/-- The switch: the state after it, and `error_now`. -/
def lexSwitch (buffer : ByteString) (state : LexState) :
    Except Stop (LexState × Bool) := do
  let c ← charAt buffer state.ptr
  match punctuation c with
  | some type => return (state.addToken type 1, false)
  | none =>
    if c = byte '=' then
      return (← addEquals buffer state, false)
    else if isSpace c then
      return (state.skip 1, false)
    else if c = byte '\n' then
      return (state.addLine.skip 1, false)
    else if c = byte '#' then
      let ptr ← skipComment buffer (buffer.length + 1 - state.ptr) state.ptr
      return ({ state with ptr := ptr }, false)
    else
      match keywordTable c with
      | some keywords => return (← addWord keywords buffer state, false)
      | none =>
        if isDigit c then
          return (← addIntegerLiteral buffer state, false)
        else if isIdentifierStart c then
          return (← addIdentifierToken buffer state, false)
        else
          return (state.skip 1, true)

/-- The error state machine after the switch; `pos` is where it started. -/
def collapseErrors (pos : Nat) (errorNow : Bool) (state : LexState) :
    LexState :=
  match errorNow, state.errorStart with
  | true, none => { state with errorStart := some pos }
  | true, some _ => state
  | false, none => state
  | false, some start =>
      { state with
        errorStart := none
        errors := state.errors ++ [⟨"Unexpected characters", start, pos⟩] }

/-- The body of the loop of `LexBuffer`. -/
def lexStep (buffer : ByteString) (state : LexState) :
    Except Stop LexState := do
  let (after, errorNow) ← lexSwitch buffer state
  return collapseErrors state.ptr errorNow after

/-- The loop of `LexBuffer`. -/
def lexLoop (buffer : ByteString) : Nat → LexState → Except Stop LexState
  | 0, _ => .error .outOfFuel
  | fuel + 1, state =>
      if state.ptr < buffer.length then do
        let after ← lexStep buffer state
        lexLoop buffer fuel after
      else .ok state

/-- The state in which the scan starts. -/
def lexStart : LexState :=
  ⟨0, none, [], [], []⟩

/-- `LexBuffer`: the tokens and the errors. -/
def lexBuffer (buffer : ByteString) :
    Except Stop (MillieTokens × List ErrorReport) := do
  let state ← lexLoop buffer (buffer.length + 1) lexStart
  return (⟨state.tokens ++ [⟨.tokEof, buffer.length, 0⟩], state.lines, buffer⟩,
    state.errors)

end Millie.Syntax
