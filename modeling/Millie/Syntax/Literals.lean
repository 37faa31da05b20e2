import Millie.Syntax.Acceptance

/-!
# Integer literals

`_ParsePrimary` multiplies and adds in 64 bits and takes a literal for too large
when a step makes the value smaller.  A step that wraps around can make it
larger as well, so literals exist that are read as another number.
-/

namespace Millie.Syntax

open Weakest
open Millie.Symbols

/-- Some digit takes the number modulo `2 ^ 64` below what it was. -/
def FallsBelow (digits : ByteString) : Prop :=
  ∃ before c after, digits = before ++ c :: after ∧
    decimalFrom 0 (before ++ [c]) % 2 ^ 64 < decimalFrom 0 before % 2 ^ 64

theorem decimalFrom_snoc (value : Nat) (digits : ByteString) (c : UInt8) :
    decimalFrom value (digits ++ [c]) =
      decimalFrom value digits * 10 + (c.toNat - 48) := by
  simp [decimalFrom, List.foldl_append]

/-- One digit, in 64 bits. -/
theorem nextValue_toNat {value : UInt64} {number : Nat} {c : UInt8}
    (same : value.toNat = number % 2 ^ 64) (digit : isDigit c = true) :
    (value * 10 + (c.toUInt64 - 48)).toNat =
      (number * 10 + (c.toNat - 48)) % 2 ^ 64 := by
  have range := isDigit_iff.mp digit
  have sub : (c.toUInt64 - 48).toNat = c.toNat - 48 := by
    rw [UInt64.toNat_sub_of_le]
    · simp
    · rw [UInt64.le_iff_toNat_le]
      simp
      omega
  rw [UInt64.toNat_add, UInt64.toNat_mul, sub, same]
  simp

/--
The loop over the digits, after some that have not been noticed: it notices a
fall below, and otherwise ends with the number modulo `2 ^ 64`.
-/
theorem readLiteral_spec {digits : ByteString} (seen : ByteString)
    {value : UInt64}
    (characters : ∀ c ∈ digits, isDigit c = true)
    (same : value.toNat = decimalFrom 0 seen % 2 ^ 64) :
    ((readLiteral value digits).2 = true ↔
      ∃ before c after, digits = before ++ c :: after ∧
        decimalFrom 0 (seen ++ before ++ [c]) % 2 ^ 64 <
          decimalFrom 0 (seen ++ before) % 2 ^ 64) ∧
    ((readLiteral value digits).2 = false →
      (readLiteral value digits).1.toNat =
        decimalFrom 0 (seen ++ digits) % 2 ^ 64) := by
  induction digits generalizing seen value with
  | nil => simp [readLiteral, same]
  | cons c digits ih =>
      rcases List.forall_mem_cons.mp characters with ⟨first, rest⟩
      have next := nextValue_toNat same first
      rw [← decimalFrom_snoc] at next
      rw [readLiteral]
      by_cases falls : value * 10 + (c.toUInt64 - 48) < value
      · rw [if_pos falls]
        rw [UInt64.lt_iff_toNat_lt, next, same] at falls
        refine ⟨iff_of_true rfl ⟨[], c, digits, rfl, ?_⟩, by simp⟩
        rw [List.append_nil]
        exact falls
      · rw [if_neg falls]
        rw [UInt64.lt_iff_toNat_lt, next, same] at falls
        rcases ih (seen ++ [c]) rest next with ⟨noticed, ends⟩
        constructor
        · rw [noticed]
          constructor
          · rintro ⟨before, d, after, rfl, below⟩
            refine ⟨c :: before, d, after, rfl, ?_⟩
            simpa using below
          · rintro ⟨before, d, after, split, below⟩
            cases before with
            | nil =>
                cases split
                rw [List.append_nil] at below
                exact absurd below falls
            | cons e before =>
                cases split
                refine ⟨before, d, after, rfl, ?_⟩
                simpa using below
        · intro unnoticed
          rw [ends unnoticed, List.append_assoc]
          rfl

/-- The loop notices exactly the literals that fall below. -/
theorem readLiteral_overflow {digits : ByteString}
    (characters : ∀ c ∈ digits, isDigit c = true) :
    (readLiteral 0 digits).2 = true ↔ FallsBelow digits :=
  (readLiteral_spec [] characters rfl).1

/--
A literal token is read as its number, if that is below `2 ^ 64`, and is
reported otherwise.
-/
def ReadsExactly (token : MillieToken) (digits : ByteString)
    (start : ParseContext)
    (outcome : Except ParseStop (Expression × ParseContext)) : Prop :=
  ∃ value after,
    outcome = .ok (.integerConstant ⟨start.pos, start.pos⟩ value, after) ∧
      if decimalFrom 0 digits < 2 ^ 64 then
        value.toNat = decimalFrom 0 digits ∧ after.errors = start.errors
      else
        after.errors = start.errors ++ [⟨"Integer literal overflow",
          token.start, token.start + token.length⟩]

section

variable {source : MillieTokens} {intern : Intern}
  {recurse : Production → ParseM Expression} {start : ParseContext}
  {token : MillieToken}

theorem parsePrimary_integer
    (at_ : source.tokenArray[start.pos]? = some token)
    (isInteger : token.type = .tokIntLiteral)
    (inside : token.start + token.length ≤ source.buffer.length) :
    parsePrimary source intern recurse start =
      .ok (.integerConstant ⟨start.pos, start.pos⟩
          (readLiteral 0 (source.text token)).1,
        if (readLiteral 0 (source.text token)).2 then
          start.matched.report token "Integer literal overflow"
        else start.matched) := by
  have unmatched : ∀ type, type ≠ .tokEof → type ≠ .tokIntLiteral →
      match_ source type start = .ok (false, start) := by
    intro type real other
    rw [match_eq at_ real, isInteger, if_neg (Ne.symm other)]
  have matched : match_ source .tokIntLiteral start =
      .ok (true, start.matched) := by
    rw [match_eq at_ (by simp),
      if_pos isInteger]
  have struct : prevTokenStruct source start.matched =
      .ok (token, start.matched) := by
    have here : source.tokenArray[start.calmed.pos]? = some token := at_
    exact prevTokenStruct_eq here
  have text : (liftM (tokenText source token) : ParseM ByteString)
      start.matched = .ok (source.text token, start.matched) := by
    rw [lift_eq, tokenText, if_pos inside]
    rfl
  rw [parsePrimary, bind_returned (unmatched .tokFalse (by simp) (by simp)),
    if_neg Bool.false_ne_true,
    bind_returned (unmatched .tokTrue (by simp) (by simp)),
    if_neg Bool.false_ne_true,
    bind_returned matched, if_pos rfl, parseInteger, bind_returned struct,
    bind_returned text]
  cases read : readLiteral 0 (source.text token) with
  | mk value overflow =>
      cases overflow with
      | true =>
          dsimp only
          have last : prevPos
              (start.matched.report token "Integer literal overflow") =
              .ok (start.pos,
                start.matched.report token "Integer literal overflow") := by
            rw [ParseContext.report]
            split
            · rfl
            · rfl
          rw [if_pos rfl, bind_returned (syntaxErrorToken_eq _),
            bind_returned last, if_pos rfl]
          rfl
      | false => rfl

/--
Without an earlier syntax error pending, a literal is read exactly or reported
if and only if it is below `2 ^ 64` or some digit makes it fall below.
-/
theorem literal_exact_iff (calm : start.lostCount = 0)
    (at_ : source.tokenArray[start.pos]? = some token)
    (isInteger : token.type = .tokIntLiteral)
    (inside : token.start + token.length ≤ source.buffer.length)
    (characters : ∀ c ∈ source.text token, isDigit c = true) :
    ReadsExactly token (source.text token) start
        (parsePrimary source intern recurse start) ↔
      decimalFrom 0 (source.text token) < 2 ^ 64 ∨
        FallsBelow (source.text token) := by
  rw [parsePrimary_integer at_ isInteger inside, ← readLiteral_overflow characters]
  by_cases small : decimalFrom 0 (source.text token) < 2 ^ 64
  · refine iff_of_true ?_ (.inl small)
    have read : readLiteral 0 (source.text token) = _ :=
      readLiteral_decimal characters small
    rw [read]
    refine ⟨_, start.matched, rfl, ?_⟩
    rw [if_pos small]
    exact ⟨UInt64.toNat_ofNat_of_lt' small, rfl⟩
  · rw [or_iff_right small]
    constructor
    · rintro ⟨value, after, same, exact_⟩
      rw [if_neg small] at exact_
      by_contra unnoticed
      rw [if_neg unnoticed] at same
      cases same
      exact absurd exact_ (by simp [ParseContext.matched,
        ParseContext.calmed, ParseContext.advanced])
    · intro noticed
      rw [if_pos noticed]
      refine ⟨_, _, rfl, ?_⟩
      rw [if_neg small, ParseContext.report, if_pos]
      · rfl
      · simp [ParseContext.matched, ParseContext.calmed,
          ParseContext.advanced, calm]

end

/-- The tokens of `18446744073709551616`, which is `2 ^ 64`. -/
def powerTokens : MillieTokens :=
  ⟨[⟨.tokIntLiteral, 0, 20⟩, ⟨.tokEof, 20, 0⟩], [],
    ['1', '8', '4', '4', '6', '7', '4', '4', '0', '7', '3', '7', '0', '9', '5',
      '5', '1', '6', '1', '6'].map byte⟩

/-- The first literal that is too large is reported. -/
theorem literal_exact_power : ReadsExactly ⟨.tokIntLiteral, 0, 20⟩
    (powerTokens.text ⟨.tokIntLiteral, 0, 20⟩) ⟨symbolTableCreate, [], 0, 0⟩
    (parsePrimary powerTokens (findOrCreateSymbol (fun _ => 0) 4)
      (fun _ => throw .outOfFuel) ⟨symbolTableCreate, [], 0, 0⟩) := by
  have digits : ∀ c ∈ powerTokens.text ⟨.tokIntLiteral, 0, 20⟩,
      isDigit c = true :=
    List.all_eq_true.mp rfl
  refine (literal_exact_iff rfl rfl rfl (by decide) digits).mpr (.inr ?_)
  refine ⟨powerTokens.buffer.take 19, byte '6', [], by decide, by decide +kernel⟩

/-- `30000000000000000000` is read as another number. -/
theorem literal_exact_not : ∃ value after,
    parsePrimary largeTokens (findOrCreateSymbol (fun _ => 0) 4)
        (fun _ => throw .outOfFuel) ⟨symbolTableCreate, [], 0, 0⟩ =
      .ok (.integerConstant ⟨0, 0⟩ value, after) ∧
      value = 11553255926290448384 ∧ after.errors = [] ∧
      decimalFrom 0 (largeTokens.text ⟨.tokIntLiteral, 0, 20⟩) =
        30000000000000000000 ∧
      ¬ReadsExactly ⟨.tokIntLiteral, 0, 20⟩
        (largeTokens.text ⟨.tokIntLiteral, 0, 20⟩)
        ⟨symbolTableCreate, [], 0, 0⟩
        (parsePrimary largeTokens (findOrCreateSymbol (fun _ => 0) 4)
          (fun _ => throw .outOfFuel) ⟨symbolTableCreate, [], 0, 0⟩) := by
  have number : decimalFrom 0 (largeTokens.text ⟨.tokIntLiteral, 0, 20⟩) =
      30000000000000000000 := by
    decide +kernel
  have returns : parsePrimary largeTokens (findOrCreateSymbol (fun _ => 0) 4)
      (fun _ => throw .outOfFuel) ⟨symbolTableCreate, [], 0, 0⟩ =
      .ok (.integerConstant ⟨0, 0⟩ 11553255926290448384,
        ⟨symbolTableCreate, [], 1, 0⟩) := by
    rfl
  refine ⟨_, _, returns, rfl, rfl, number, ?_⟩
  rintro ⟨value, after, same, exact_⟩
  rw [returns] at same
  cases same
  rw [number, if_neg (by decide)] at exact_
  cases exact_

end Millie.Syntax
