import Millie.Syntax.Storage

/-!
# Lines and columns

Translation of `GetLineColumnForPosition` and `ExtractLine` in `lexer.c`, and
when they show the line that a position is on.  The line array holds the
newlines of the buffer in order.  The search adds two indices of it in an
`int`, which beyond `2 ^ 30` newlines does not hold the sum for every position,
and the end of the last line is read from the array although no newline ends
that line.
-/

namespace Millie.Syntax

open Millie.Symbols Millie.Memory

/-! ## Looking a position up -/

/-- The result of signed arithmetic, which must be an `int`. -/
def intResult (value : Int) : Except Stop Int :=
  if -2147483648 ≤ value ∧ value ≤ 2147483647 then .ok value
  else .error .undefinedBehaviour

/-- The conversion of an `unsigned` to an `int`, which wraps round. -/
def intOf (value : Nat) : Int :=
  if value < 2147483648 then value else value - 4294967296

/-- The sum of two `unsigned` values. -/
def unsignedAdd (first second : Nat) : Nat :=
  (first + second) % 4294967296

theorem unsignedAdd_eq {first second : Nat}
    (small : first + second < 4294967296) :
    unsignedAdd first second = first + second :=
  Nat.mod_eq_of_lt small

/-- The difference of two `unsigned` values. -/
def unsignedSub (first second : Nat) : Nat :=
  (first + 4294967296 - second) % 4294967296

theorem unsignedSub_eq {first second : Nat} (ordered : second ≤ first)
    (small : first < 4294967296) : unsignedSub first second = first - second := by
  rw [unsignedSub]
  omega

/-- `line_array[index]`. -/
def lineAt (lineArray : List Nat) (index : Int) : Except Stop Nat :=
  if index < 0 then .error .undefinedBehaviour
  else
    match lineArray[index.toNat]? with
    | some position => .ok position
    | none => .error .undefinedBehaviour

/-- The loop of `GetLineColumnForPosition`: the value of `min` after it. -/
def searchLines (lineArray : List Nat) (position : Nat) :
    Nat → Int → Int → Except Stop Int
  | 0, _, _ => .error .outOfFuel
  | fuel + 1, min, max =>
      if min ≤ max then do
        let sum ← intResult (max + min)
        let mid := sum.tdiv 2
        let linePosition ← lineAt lineArray mid
        if linePosition = position then return mid
        else if linePosition < position then
          searchLines lineArray position fuel (mid + 1) max
        else searchLines lineArray position fuel min (mid - 1)
      else .ok min

/-- `GetLineColumnForPosition`: the line and the column. -/
def getLineColumnForPosition (tokens : MillieTokens) (position : Nat) :
    Except Stop (Nat × Nat) := do
  let lineArray := tokens.lineArray
  let max ← intResult (intOf lineArray.length - 1)
  let min ← searchLines lineArray position (lineArray.length + 1) 0 max
  let line ← intResult (min + 1)
  if 0 < min then
    let last ← lineAt lineArray (min - 1)
    return (line.toNat, unsignedSub position last)
  else return (line.toNat, unsignedAdd position 1)

/-- `MStringCreateN(MStringData(buffer) + start, length)`. -/
def copyOut (buffer : ByteString) (start length : Nat) :
    Except Stop ByteString :=
  if start + length ≤ buffer.length then
    .ok ((buffer.drop start).take length)
  else .error .undefinedBehaviour

/-- `line_start`. -/
def lineStart (lineEnds : List Nat) (lineIndex : Nat) : Except Stop Nat :=
  if 0 < lineIndex then do
    let last ← lineAt lineEnds (lineIndex - 1 : Nat)
    return unsignedAdd last 1
  else return 0

/-- `ExtractLine`. -/
def extractLine (tokens : MillieTokens) (line : Nat) :
    Except Stop ByteString := do
  if line = 0 then .error .failed
  else if tokens.lineArray.length = 0 then return tokens.buffer
  else
    let lineEnds := tokens.lineArray
    let lineIndex := line - 1
    let start ← lineStart lineEnds lineIndex
    let lineEnd ← lineAt lineEnds lineIndex
    copyOut tokens.buffer start (unsignedSub lineEnd start)

/-! ## The rank of a position -/

/--
The first `rank` entries are below a position and the others are not.
-/
structure Divides (lineArray : List Nat) (position rank : Nat) : Prop where
  inside : rank ≤ lineArray.length
  below : ∀ (i q : Nat), lineArray[i]? = some q → i < rank → q < position
  above : ∀ (i q : Nat), lineArray[i]? = some q → rank ≤ i → position ≤ q

/-- The number of entries below a position is its rank. -/
theorem Divides.countP {lineArray : List Nat} {position rank : Nat}
    (divides : Divides lineArray position rank) :
    lineArray.countP (· < position) = rank := by
  have first : (lineArray.take rank).countP (· < position) = rank := by
    have all : ∀ q ∈ lineArray.take rank, q < position := by
      intro q member
      rcases List.mem_iff_getElem?.mp member with ⟨i, at_⟩
      rw [List.getElem?_take] at at_
      split at at_
      · rename_i less
        exact divides.below i q at_ less
      · cases at_
    rw [List.countP_eq_length.mpr (by simpa using all), List.length_take]
    exact Nat.min_eq_left divides.inside
  have rest : (lineArray.drop rank).countP (· < position) = 0 := by
    have none : ∀ q ∈ lineArray.drop rank, position ≤ q := by
      intro q member
      rcases List.mem_iff_getElem?.mp member with ⟨i, at_⟩
      rw [List.getElem?_drop] at at_
      exact divides.above _ q at_ (Nat.le_add_right _ _)
    exact List.countP_eq_zero.mpr (by simpa using none)
  calc
    lineArray.countP (· < position) =
        (lineArray.take rank ++ lineArray.drop rank).countP
          (· < position) := by
      rw [List.take_append_drop]
    _ = rank := by
      rw [List.countP_append, first, rest, Nat.add_zero]

/-- In an increasing array the entries below a position come first. -/
theorem divides_rank {lineArray : List Nat}
    (increasing : lineArray.Pairwise (· < ·)) (position : Nat) :
    Divides lineArray position (lineArray.countP (· < position)) := by
  induction lineArray with
  | nil => exact ⟨le_rfl, nofun, nofun⟩
  | cons first rest ih =>
      rw [List.pairwise_cons] at increasing
      have divides := ih increasing.2
      by_cases less : first < position
      · rw [List.countP_cons_of_pos (by simpa using less)]
        refine ⟨Nat.succ_le_succ divides.inside, ?_, ?_⟩
        · intro i q at_ before
          cases i with
          | zero =>
              cases at_
              exact less
          | succ i => exact divides.below i q at_ (Nat.lt_of_succ_lt_succ before)
        · intro i q at_ after
          cases i with
          | zero => cases after
          | succ i => exact divides.above i q at_ (Nat.le_of_succ_le_succ after)
      · have none : (first :: rest).countP (· < position) = 0 := by
          rw [List.countP_eq_zero]
          intro q member
          rw [decide_eq_true_iff]
          rcases List.mem_cons.mp member with rfl | later
          · exact less
          · have := increasing.1 q later
            omega
        rw [none]
        refine ⟨Nat.zero_le _, nofun, ?_⟩
        intro i q at_ _
        rcases List.mem_cons.mp (List.mem_of_getElem? at_) with rfl | later
        · exact Nat.le_of_not_lt less
        · have := increasing.1 q later
          omega

theorem increasing_lt {lineArray : List Nat}
    (increasing : lineArray.Pairwise (· < ·)) {i j q r : Nat}
    (first : lineArray[i]? = some q) (second : lineArray[j]? = some r)
    (less : i < j) : q < r := by
  rcases List.getElem?_eq_some_iff.mp first with ⟨inside, rfl⟩
  rcases List.getElem?_eq_some_iff.mp second with ⟨inside', rfl⟩
  exact List.pairwise_iff_getElem.mp increasing i j inside inside' less

theorem lineAt_eq {lineArray : List Nat} {i : Nat}
    (inside : i < lineArray.length) :
    lineAt lineArray i = .ok lineArray[i] := by
  simp [lineAt, inside]

theorem intResult_ok {value : Int} (low : -2147483648 ≤ value)
    (high : value ≤ 2147483647) : intResult value = .ok value :=
  if_pos ⟨low, high⟩

/-! ## The search -/

/--
The search between two bounds for a rank comes to two indices whose sum is not
an `int`.  The upper bound has not moved by then, and each round has halved the
distance to it.
-/
def Overflows (low high rank : Nat) : Prop :=
  ∃ i, 0 < (high - low) / 2 ^ i ∧
    2147483648 < 2 * high - (high - low) / 2 ^ i ∧
    high - (high - low) / 2 ^ i ≤ rank

section Overflow

variable {low high rank : Nat}

theorem overflows_now (less : low < high) (large : 2147483648 < low + high)
    (from_ : low ≤ rank) : Overflows low high rank := by
  refine ⟨0, ?_, ?_, ?_⟩
  all_goals
    rw [Nat.pow_zero, Nat.div_one]
    omega

/-- The rounds after the first halve the distance once less. -/
theorem overflows_succ (small : low + high ≤ 2147483648) :
    Overflows low high rank ↔ ∃ i, 0 < (high - low) / 2 / 2 ^ i ∧
      2147483648 < 2 * high - (high - low) / 2 / 2 ^ i ∧
      high - (high - low) / 2 / 2 ^ i ≤ rank := by
  have halved : ∀ i, (high - low) / 2 ^ (i + 1) = (high - low) / 2 / 2 ^ i := by
    intro i
    rw [Nat.pow_succ, Nat.mul_comm, Nat.div_div_eq_div_mul]
  constructor
  · rintro ⟨i, some, large, upTo⟩
    cases i with
    | zero =>
        rw [Nat.pow_zero, Nat.div_one] at some large
        omega
    | succ i =>
        rw [halved] at some large upTo
        exact ⟨i, some, large, upTo⟩
  · rintro ⟨i, some, large, upTo⟩
    rw [← halved] at some large upTo
    exact ⟨i + 1, some, large, upTo⟩

/-- To the right of the middle the search goes on with the upper half. -/
theorem overflows_right (less : low < high)
    (small : low + high ≤ 2147483648) :
    Overflows low high rank ↔ Overflows ((low + high - 1) / 2 + 1) high rank := by
  have half : high - ((low + high - 1) / 2 + 1) = (high - low) / 2 := by omega
  rw [overflows_succ small, Overflows, half]

/-- Up to the middle it does not overflow any more. -/
theorem not_overflows_left (small : low + high ≤ 2147483648)
    (upTo : rank ≤ (low + high - 1) / 2) (less : low < high) :
    ¬Overflows low high rank := by
  rw [overflows_succ small]
  rintro ⟨i, -, -, bound⟩
  have part := Nat.div_le_self ((high - low) / 2) (2 ^ i)
  omega

theorem not_overflows_small (small : high ≤ 1073741824) :
    ¬Overflows low high rank := by
  rintro ⟨i, -, large, -⟩
  have upTo := Nat.sub_le (2 * high) ((high - low) / 2 ^ i)
  omega

end Overflow

section Search

variable {lineArray : List Nat} {position : Nat}

/-- A round of the search looks at the entry between the bounds. -/
theorem searchLines_round (fuel : Nat) {low high : Nat} (less : low < high)
    (inside : high ≤ lineArray.length) (small : low + high ≤ 2147483648) :
    ∃ mid, mid = (low + high - 1) / 2 ∧ ∃ at_ : mid < lineArray.length,
      searchLines lineArray position (fuel + 1) low (high - 1) =
        if lineArray[mid] = position then .ok (mid : Int)
        else if lineArray[mid] < position then
          searchLines lineArray position fuel (mid + 1 : Nat) (high - 1)
        else searchLines lineArray position fuel low (mid - 1) := by
  have sum : intResult ((high : Int) - 1 + low) = .ok (high - 1 + low) :=
    intResult_ok (by omega) (by omega)
  have mid : ((high : Int) - 1 + low).tdiv 2 =
      ((low + high - 1) / 2 : Nat) := by
    rw [Int.tdiv_eq_ediv_of_nonneg (by omega)]
    omega
  have at_ : (low + high - 1) / 2 < lineArray.length := by omega
  refine ⟨(low + high - 1) / 2, rfl, at_, ?_⟩
  rw [searchLines, if_pos (by omega), sum, Stop.ok_bind]
  simp only [mid, lineAt_eq at_, Stop.ok_bind]
  rfl

/-- Two indices whose sum is no `int` end the search. -/
theorem searchLines_large (fuel : Nat) {low high : Nat} (less : low < high)
    (large : 2147483648 < low + high) (result : Int) :
    searchLines lineArray position fuel low (high - 1) ≠ .ok result := by
  cases fuel with
  | zero => exact nofun
  | succ fuel =>
      have sum : intResult ((high : Int) - 1 + low) =
          .error .undefinedBehaviour :=
        if_neg (by omega)
      rw [searchLines, if_pos (by omega), sum]
      exact nofun

/-- The search returns nothing but the rank, and it unless it overflows. -/
theorem searchLines_iff {rank : Nat} (divides : Divides lineArray position rank)
    (increasing : lineArray.Pairwise (· < ·)) (fuel : Nat) {low high : Nat}
    (from_ : low ≤ rank) (upTo : rank ≤ high)
    (inside : high ≤ lineArray.length) (enough : high - low < fuel)
    (result : Int) :
    searchLines lineArray position fuel low (high - 1) = .ok result ↔
      ¬Overflows low high rank ∧ result = rank := by
  induction fuel generalizing low high with
  | zero => cases enough
  | succ fuel ih =>
      rcases Nat.eq_or_lt_of_le (Nat.le_trans from_ upTo) with rfl | less
      · obtain rfl : low = rank := Nat.le_antisymm from_ upTo
        have done : ¬Overflows low low low := by
          rintro ⟨i, some, -, -⟩
          rw [Nat.sub_self, Nat.zero_div] at some
          cases some
        rw [searchLines, if_neg (by omega), and_iff_right done,
          Except.ok.injEq, eq_comm]
      by_cases small : low + high ≤ 2147483648
      · rcases @searchLines_round _ position fuel _ _ less inside small
          with ⟨mid, half, at_, round⟩
        have here := List.getElem?_eq_getElem at_
        rw [round]
        by_cases right : mid < rank
        · have before := divides.below mid _ here right
          rw [if_neg (Nat.ne_of_lt before), if_pos before,
            overflows_right less small, ← half]
          exact ih right upTo inside (by omega)
        · have after := divides.above mid _ here (Nat.le_of_not_lt right)
          rw [and_iff_right (not_overflows_left small (by omega) less)]
          by_cases hit : lineArray[mid] = position
          · obtain rfl : mid = rank := by
              refine Nat.le_antisymm ?_ (Nat.le_of_not_lt right)
              by_contra later
              have at' : rank < lineArray.length := by omega
              have there := List.getElem?_eq_getElem at'
              have := increasing_lt increasing there here (by omega)
              have := divides.above rank _ there le_rfl
              omega
            rw [if_pos hit, Except.ok.injEq, eq_comm]
          · rw [if_neg hit, if_neg (Nat.not_lt_of_le after),
              ih from_ (Nat.le_of_not_lt right) (Nat.le_of_lt at_) (by omega),
              and_iff_right (not_overflows_small (by omega))]
      · have large := Nat.lt_of_not_le small
        refine iff_of_false (searchLines_large _ less large result) ?_
        exact fun both => both.1 (overflows_now less large from_)

end Search

/-! ## Lines and columns of an array -/

/-- Offsets of newlines, in order, in a buffer whose length is an `unsigned`. -/
structure LineOffsets (lineArray : List Nat) : Prop where
  increasing : lineArray.Pairwise (· < ·)
  inside : ∀ q ∈ lineArray, q + 1 < 4294967296

/-- There are fewer newlines than values of an `unsigned`. -/
theorem LineOffsets.length_lt {lineArray : List Nat}
    (offsets : LineOffsets lineArray) : lineArray.length < 4294967296 := by
  have distinct : lineArray.Nodup := offsets.increasing.imp Nat.ne_of_lt
  have below : lineArray ⊆ List.range 4294967295 := by
    intro q member
    have := offsets.inside q member
    exact List.mem_range.mpr (by omega)
  have few := distinct.length_le_of_subset below
  rw [List.length_range] at few
  omega

/-- The line and the column of a position. -/
structure Locates (lineArray : List Nat) (position : Nat)
    (result : Nat × Nat) : Prop where
  line : result.1 = 1 + lineArray.countP (· < position)
  first : (∀ q ∈ lineArray, position ≤ q) → result.2 = position + 1
  later : ∀ q ∈ lineArray, q < position →
    (∀ r ∈ lineArray, r < position → r ≤ q) → result.2 = position - q

/-- A position is looked up right. -/
def LooksUp (tokens : MillieTokens) (position : Nat) : Prop :=
  ∃ result, getLineColumnForPosition tokens position = .ok result ∧
    Locates tokens.lineArray position result

section Lookup

variable {tokens : MillieTokens} {position rank : Nat}

/-- The column follows from the rank. -/
theorem Divides.locates {lineArray : List Nat} {column : Nat}
    (divides : Divides lineArray position rank)
    (increasing : lineArray.Pairwise (· < ·))
    (first : rank = 0 → column = position + 1)
    (later : ∀ q : Nat, lineArray[rank - 1]? = some q → 0 < rank →
      column = position - q) :
    Locates lineArray position (rank + 1, column) where
  line := by
    rw [divides.countP, Nat.add_comm]
  first := by
    intro none
    refine first ?_
    by_contra some
    have at_ : rank - 1 < lineArray.length := by
      have := divides.inside
      omega
    have less := divides.below (rank - 1) _ (List.getElem?_eq_getElem at_)
      (by omega)
    exact absurd (none _ (List.getElem_mem at_)) (Nat.not_le_of_lt less)
  later := by
    intro q member less largest
    rcases List.mem_iff_getElem?.mp member with ⟨i, found⟩
    have before : i < rank := by
      by_contra after
      have := divides.above i q found (Nat.le_of_not_lt after)
      omega
    have at_ : rank - 1 < lineArray.length := by
      have := divides.inside
      omega
    have here := List.getElem?_eq_getElem at_
    have upTo := largest _ (List.getElem_mem at_)
      (divides.below (rank - 1) _ here (by omega))
    refine later q ?_ (Nat.zero_lt_of_lt before)
    rcases Nat.eq_or_lt_of_le (Nat.le_sub_one_of_lt before) with rfl | earlier
    · exact found
    · have := increasing_lt increasing found here earlier
      omega

/-- The largest `int` is too large for the rank that it bounds. -/
theorem rank_lt_of_not_overflows {count : Nat} (small : count < 2147483648)
    (upTo : rank ≤ count) (never : ¬Overflows 0 count rank) :
    rank + 1 < 2147483648 := by
  by_contra large
  obtain rfl : rank = 2147483647 := by omega
  obtain rfl : count = 2147483647 := by omega
  exact never ⟨30, by decide, by decide, by decide⟩

theorem searchLines_count (offsets : LineOffsets tokens.lineArray)
    (divides : Divides tokens.lineArray position rank) (result : Int) :
    searchLines tokens.lineArray position (tokens.lineArray.length + 1) 0
        (tokens.lineArray.length - 1) = .ok result ↔
      ¬Overflows 0 tokens.lineArray.length rank ∧ result = rank :=
  searchLines_iff divides offsets.increasing _ (Nat.zero_le _) divides.inside
    le_rfl (by omega) result

/-- Up to `2 ^ 31 - 1` newlines the search decides the result. -/
theorem lookUp_int (offsets : LineOffsets tokens.lineArray)
    (bound : position < 4294967296)
    (divides : Divides tokens.lineArray position rank)
    (small : tokens.lineArray.length < 2147483648) :
    (¬Overflows 0 tokens.lineArray.length rank →
      ∃ column, getLineColumnForPosition tokens position =
          .ok (rank + 1, column) ∧
        (rank = 0 → column = unsignedAdd position 1) ∧
        ∀ q, tokens.lineArray[rank - 1]? = some q → 0 < rank →
          column = position - q) ∧
    ∀ result, getLineColumnForPosition tokens position = .ok result →
      ¬Overflows 0 tokens.lineArray.length rank := by
  have top : intResult (intOf tokens.lineArray.length - 1) =
      .ok (tokens.lineArray.length - 1) := by
    rw [intOf, if_pos small]
    exact intResult_ok (by omega) (by omega)
  constructor
  · intro never
    have upTo := divides.inside
    have search := (searchLines_count offsets divides rank).mpr ⟨never, rfl⟩
    have line : intResult ((rank : Int) + 1) = .ok (rank + 1) := by
      have := rank_lt_of_not_overflows small upTo never
      exact intResult_ok (by omega) (by omega)
    have opened : getLineColumnForPosition tokens position =
        if 0 < (rank : Int) then do
          let last ← lineAt tokens.lineArray (rank - 1)
          return (rank + 1, unsignedSub position last)
        else .ok (rank + 1, unsignedAdd position 1) := by
      rw [getLineColumnForPosition, top, Stop.ok_bind, search, Stop.ok_bind,
        line]
      rfl
    cases rank with
    | zero => exact ⟨_, opened.trans (if_neg (by decide)), fun _ => rfl, nofun⟩
    | succ before =>
        have at_ : before < tokens.lineArray.length := by omega
        have here := List.getElem?_eq_getElem at_
        have less := divides.below before _ here (Nat.lt_succ_self _)
        refine ⟨position - tokens.lineArray[before], ?_, nofun, ?_⟩
        · have index : ((before + 1 : Nat) : Int) - 1 = before := by omega
          rw [opened, if_pos (by omega), index, lineAt_eq at_, Stop.ok_bind]
          rw [unsignedSub_eq (Nat.le_of_lt less) bound]
          rfl
        · intro q found _
          rw [Nat.add_sub_cancel, here] at found
          cases found
          rfl
  · intro result returns
    rw [getLineColumnForPosition, top, Stop.ok_bind] at returns
    rcases Stop.bind_eq_ok_iff.mp returns with ⟨min, search, -⟩
    exact ((searchLines_count offsets divides min).mp search).1

/-- Beyond them the upper bound is negative and there is no search. -/
theorem lookUp_beyond (offsets : LineOffsets tokens.lineArray)
    (large : 2147483648 < tokens.lineArray.length) :
    getLineColumnForPosition tokens position =
      .ok (1, unsignedAdd position 1) := by
  have few := offsets.length_lt
  have top : intResult (intOf tokens.lineArray.length - 1) =
      .ok (tokens.lineArray.length - 4294967297) := by
    rw [intOf, if_neg (by omega)]
    rw [intResult_ok (by omega) (by omega)]
    congr 1
    omega
  rw [getLineColumnForPosition, top, Stop.ok_bind, searchLines,
    if_neg (by omega), Stop.ok_bind]
  rfl

/-- With `2 ^ 31` of them there is no upper bound. -/
theorem lookUp_middle (same : tokens.lineArray.length = 2147483648)
    (result : Nat × Nat) :
    getLineColumnForPosition tokens position ≠ .ok result := by
  have top : intResult (intOf tokens.lineArray.length - 1) =
      .error .undefinedBehaviour := by
    rw [same]
    rfl
  rw [getLineColumnForPosition, top]
  exact nofun

/--
The search for a rank adds up to an `int` throughout; or the number of entries
is negative as an `int`, and the rank is that of a search not made.
-/
def InReach (count rank : Nat) : Prop :=
  (count < 2147483648 ∧ ¬Overflows 0 count rank) ∨
    (2147483648 < count ∧ rank = 0)

/-- Which positions are looked up right. -/
theorem looksUp_iff (offsets : LineOffsets tokens.lineArray)
    (bound : position < 4294967296) :
    LooksUp tokens position ↔
      InReach tokens.lineArray.length
        (tokens.lineArray.countP (· < position)) ∧
      (tokens.lineArray.countP (· < position) = 0 →
        position + 1 < 4294967296) := by
  have divides := divides_rank offsets.increasing position
  have none : tokens.lineArray.countP (· < position) = 0 →
      ∀ q ∈ tokens.lineArray, position ≤ q := by
    intro zero q member
    have := List.countP_eq_zero.mp zero q member
    simpa using this
  generalize tokens.lineArray.countP (· < position) = rank at divides none ⊢
  have noWrap : ∀ column, column = unsignedAdd position 1 →
      (column = position + 1 ↔ position + 1 < 4294967296) := by
    rintro _ rfl
    rw [unsignedAdd]
    omega
  rcases Nat.lt_trichotomy tokens.lineArray.length 2147483648 with
    small | same | large
  · rcases lookUp_int offsets bound divides small with ⟨finds, only⟩
    constructor
    · rintro ⟨result, returns, located⟩
      have never := only result returns
      rcases finds never with ⟨column, again, first, -⟩
      rw [returns] at again
      cases again
      refine ⟨.inl ⟨small, never⟩, fun zero => ?_⟩
      exact (noWrap column (first zero)).mp (located.first (none zero))
    · rintro ⟨reach, fits⟩
      rcases reach with ⟨-, never⟩ | ⟨large, -⟩
      · rcases finds never with ⟨column, returns, first, later⟩
        refine ⟨_, returns, divides.locates offsets.increasing ?_ later⟩
        exact fun zero => (noWrap column (first zero)).mpr (fits zero)
      · omega
  · refine iff_of_false ?_ ?_
    · rintro ⟨result, returns, -⟩
      exact lookUp_middle same result returns
    · rintro ⟨⟨small, -⟩ | ⟨large, -⟩, -⟩
      · omega
      · omega
  · have returns := @lookUp_beyond _ position offsets large
    constructor
    · rintro ⟨result, again, located⟩
      rw [returns] at again
      cases again
      have line := located.line
      rw [divides.countP] at line
      obtain rfl : rank = 0 := by omega
      refine ⟨.inr ⟨large, rfl⟩, fun _ => ?_⟩
      exact (noWrap _ rfl).mp (located.first (none rfl))
    · rintro ⟨⟨small, -⟩ | ⟨-, rfl⟩, fits⟩
      · omega
      · refine ⟨_, returns, divides.locates offsets.increasing ?_ nofun⟩
        exact fun _ => (noWrap _ rfl).mpr (fits rfl)

/-- Up to `2 ^ 30` newlines every position is. -/
theorem lookUp_small (offsets : LineOffsets tokens.lineArray)
    (small : tokens.lineArray.length ≤ 1073741824)
    (bound : position + 1 < 4294967296) :
    ∃ rank column,
      getLineColumnForPosition tokens position = .ok (rank + 1, column) ∧
        Divides tokens.lineArray position rank ∧
        Locates tokens.lineArray position (rank + 1, column) := by
  have divides := divides_rank offsets.increasing position
  have reach : LooksUp tokens position := by
    rw [looksUp_iff offsets (by omega)]
    exact ⟨.inl ⟨by omega, not_overflows_small small⟩, fun _ => bound⟩
  rcases reach with ⟨⟨line, column⟩, returns, located⟩
  obtain rfl := located.line.trans (Nat.add_comm _ _)
  exact ⟨_, column, returns, divides, located⟩

end Lookup

/-! ## The lines of a buffer -/

/-- The offsets of the newlines before a position. -/
def newlinesBefore (buffer : ByteString) (p : Nat) : List Nat :=
  (List.range p).filter fun i => buffer[i]? == some (byte '\n')

theorem newlinesBefore_add {buffer : ByteString} {p n : Nat}
    (none : ∀ r, p ≤ r → r < p + n → buffer[r]? ≠ some (byte '\n')) :
    newlinesBefore buffer (p + n) = newlinesBefore buffer p := by
  rw [newlinesBefore, List.range_add, List.filter_append]
  have rest : ((List.range n).map (p + ·)).filter
      (fun i => buffer[i]? == some (byte '\n')) = [] := by
    rw [List.filter_eq_nil_iff]
    intro r member
    rcases List.mem_map.mp member with ⟨i, small, rfl⟩
    have less := List.mem_range.mp small
    simpa using none (p + i) (by omega) (by omega)
  rw [rest, List.append_nil]
  rfl

section

variable {buffer : ByteString} {state : LexState} {piece : Piece} {p n : Nat}

/-- Only a newline contains one. -/
theorem Found.not_newline (found : Found buffer p piece n)
    (boundary : Boundary buffer p) (other : piece ≠ .newline) {r : Nat}
    (low : p ≤ r) (high : r < p + n) : buffer[r]? ≠ some (byte '\n') := by
  intro newline
  have blank : IsBlank buffer r := ⟨_, newline, .inr rfl⟩
  cases found with
  | newline => exact other rfl
  | @space c at_ is =>
      obtain rfl : r = p := by omega
      rw [at_] at newline
      cases newline
      exact absurd is (by decide)
  | comment at_ pos inside ends =>
      rcases inside r low high with ⟨c, here, differs⟩
      rw [here] at newline
      exact differs (Option.some.inj newline)
  | @rejected c at_ noToken notEquals notSpace notNewline =>
      obtain rfl : r = p := by omega
      rw [at_] at newline
      exact notNewline (Option.some.inj newline)
  | punctuation at_ is =>
      exact ((Found.punctuation at_ is).in_token boundary low high).2.1 blank
  | arrow at_ next =>
      exact ((Found.arrow at_ next).in_token boundary low high).2.1 blank
  | equals at_ next =>
      exact ((Found.equals at_ next).in_token boundary low high).2.1 blank
  | word at_ start pos inside stops =>
      exact ((Found.word at_ start pos inside stops).in_token boundary low
        high).2.1 blank
  | number pos inside stops =>
      exact ((Found.number pos inside stops).in_token boundary low
        high).2.1 blank

theorem LexState.after_lines (piece : Piece) (length : Nat)
    (state : LexState) :
    (state.after piece length).lines =
      if piece = .newline then state.lines ++ [state.ptr]
      else state.lines := by
  cases piece <;> cases start : state.errorStart <;>
    simp [after, Piece.found, collapseErrors, addToken, skip, addLine, start]

/-- The scan has recorded every newline that it has passed. -/
theorem Reached.lines (reached : Reached buffer state) :
    state.lines = newlinesBefore buffer state.ptr := by
  induction reached with
  | refl => rfl
  | @tail middle last before step ih =>
      have boundary := Reached.boundary before
      rcases lexStep_found step.1 step.2 with ⟨piece, n, found, rfl, -⟩
      rw [LexState.after_lines, LexState.after_ptr, ih]
      split
      · rename_i newline
        subst newline
        cases found with
        | newline at_ =>
            simp [newlinesBefore, List.range_succ, at_]
      · rename_i other
        exact (newlinesBefore_add fun r low high =>
          found.not_newline boundary other low high).symm

end

/-- The array is the increasing list of the offsets of all newlines. -/
structure RecordsNewlines (buffer : ByteString) (lineArray : List Nat) :
    Prop where
  increasing : lineArray.Pairwise (· < ·)
  complete : ∀ q, q ∈ lineArray ↔ buffer[q]? = some (byte '\n')

theorem lexBuffer_newlines {buffer : ByteString}
    {result : MillieTokens × List ErrorReport}
    (returns : lexBuffer buffer = .ok result) :
    RecordsNewlines buffer result.1.lineArray ∧ result.1.buffer = buffer := by
  rcases lexBuffer_ok returns with ⟨last, reached, ended, rfl⟩
  refine ⟨?_, rfl⟩
  change RecordsNewlines buffer last.lines
  rw [reached.lines, ended]
  constructor
  · exact List.pairwise_lt_range.filter _
  · intro q
    rw [newlinesBefore, List.mem_filter, List.mem_range, beq_iff_eq]
    constructor
    · exact And.right
    · intro newline
      exact ⟨(List.getElem?_eq_some_iff.mp newline).1, newline⟩

theorem newlinesBefore_succ (buffer : ByteString) (p : Nat) :
    newlinesBefore buffer (p + 1) = newlinesBefore buffer p ++
      [p].filter fun i => buffer[i]? == some (byte '\n') := by
  rw [newlinesBefore, List.range_succ, List.filter_append]
  rfl

theorem newlinesBefore_length (buffer : ByteString) (p : Nat) :
    (newlinesBefore buffer p).length =
      (buffer.take p).count (byte '\n') := by
  induction p with
  | zero => rfl
  | succ p ih =>
      rw [newlinesBefore_succ, List.length_append, ih, List.take_add_one,
        List.count_append]
      congr 1
      cases at_ : buffer[p]? with
      | none => simp [at_]
      | some c =>
          by_cases newline : c = byte '\n'
          · simp [at_, newline]
          · simp [at_, newline]

/-- The newlines that are also before another position. -/
theorem newlinesBefore_rank (buffer : ByteString) (n p : Nat) :
    (newlinesBefore buffer n).countP (· < p) =
      (newlinesBefore buffer (min p n)).length := by
  induction n with
  | zero => simp [newlinesBefore]
  | succ n ih =>
      rw [newlinesBefore_succ, List.countP_append, ih]
      by_cases less : n < p
      · rw [Nat.min_eq_right (Nat.le_of_lt less), Nat.min_eq_right less,
          newlinesBefore_succ, List.length_append, Nat.add_left_cancel_iff,
          List.countP_eq_length]
        intro i member
        rw [List.mem_singleton.mp (List.mem_filter.mp member).1]
        exact decide_eq_true less
      · have after := Nat.le_of_not_lt less
        rw [Nat.min_eq_left after, Nat.min_eq_left (Nat.le_succ_of_le after),
          Nat.add_eq_left, List.countP_eq_zero]
        intro i member
        rw [List.mem_singleton.mp (List.mem_filter.mp member).1,
          decide_eq_true_iff]
        exact less

theorem lexBuffer_lines_length {buffer : ByteString}
    {result : MillieTokens × List ErrorReport}
    (returns : lexBuffer buffer = .ok result) :
    result.1.lineArray.length = buffer.count (byte '\n') := by
  rcases lexBuffer_ok returns with ⟨last, reached, ended, rfl⟩
  change last.lines.length = _
  rw [reached.lines, ended, newlinesBefore_length, List.take_length]

/-- The rank of a position is the number of the newlines before it. -/
theorem lexBuffer_rank {buffer : ByteString}
    {result : MillieTokens × List ErrorReport}
    (returns : lexBuffer buffer = .ok result) (p : Nat) :
    result.1.lineArray.countP (· < p) =
      (buffer.take p).count (byte '\n') := by
  rcases lexBuffer_ok returns with ⟨last, reached, ended, rfl⟩
  change last.lines.countP _ = _
  rw [reached.lines, ended, newlinesBefore_rank, newlinesBefore_length]
  rcases Nat.le_total p buffer.length with inside | beyond
  · rw [Nat.min_eq_left inside]
  · rw [Nat.min_eq_right beyond, List.take_length,
      List.take_of_length_le beyond]

/-- The length of a buffer and of its zero byte is an `unsigned`. -/
def FitsString (buffer : ByteString) : Prop :=
  buffer.length + 1 < 4294967296

theorem lexBuffer_offsets {buffer : ByteString} (fits : FitsString buffer)
    {result : MillieTokens × List ErrorReport}
    (returns : lexBuffer buffer = .ok result) :
    LineOffsets result.1.lineArray := by
  rcases (lexBuffer_newlines returns).1 with ⟨increasing, complete⟩
  refine ⟨increasing, fun q member => ?_⟩
  have inside := (List.getElem?_eq_some_iff.mp ((complete q).mp member)).1
  rw [FitsString] at fits
  omega

/-- The entries of the array are the offsets of all newlines, in order. -/
def HoldsNewlines (buffer : ByteString) (lineArray : ArrayList) : Prop :=
  ∃ lines, RecordsNewlines buffer lines ∧ ∀ index : UInt32,
    value32 <$> arrayListItem lineArray index =
      if inside : index.toNat < lines.length then .ok lines[index.toNat]
      else .error .failed

/-- `LexBuffer` returns an array of all newlines. -/
def RecordsLines (buffer : ByteString) : Prop :=
  ∀ uninit, ∃ tokenArray lineArray,
    lexArrays uninit buffer = .ok (tokenArray, lineArray) ∧
      HoldsNewlines buffer lineArray

theorem Stored.holdsNewlines {buffer : ByteString} (fits : FitsString buffer)
    {tokenArray lineArray : ArrayList} {tokens : MillieTokens}
    (stored : Stored buffer tokenArray lineArray tokens) :
    HoldsNewlines buffer lineArray := by
  rcases stored.scanned with ⟨errors, scanned⟩
  have offsets := lexBuffer_offsets fits scanned
  refine ⟨tokens.lineArray, (lexBuffer_newlines scanned).1, fun index => ?_⟩
  rw [stored.lineItems index]
  by_cases inside : index.toNat < tokens.lineArray.length
  · have mapped : index.toNat < (tokens.lineArray.map bytes32).length := by
      rwa [List.length_map]
    have small := offsets.inside _ (List.getElem_mem inside)
    rw [dif_pos mapped, dif_pos inside, List.getElem_map]
    exact congrArg Except.ok (value32_bytes32 (Nat.lt_of_succ_lt small))
  · have outside : ¬index.toNat < (tokens.lineArray.map bytes32).length := by
      rwa [List.length_map]
    rw [dif_neg outside, dif_neg inside]
    rfl

theorem recordsLines_iff {buffer : ByteString} (fits : FitsString buffer)
    (comments : CommentsEnd buffer) :
    RecordsLines buffer ↔ KeywordsEnd buffer ∧
      tokenCount buffer < arrayLimit ∧
      buffer.count (byte '\n') ≤ arrayLimit := by
  constructor
  · intro records
    rcases records fun _ => 0 with ⟨tokenArray, lineArray, returns, -⟩
    rcases lexArrays_stored returns with ⟨tokens, stored⟩
    rcases stored.scanned with ⟨errors, scanned⟩
    have inside : LexesInside buffer :=
      ⟨⟨_, scanned⟩, fun state reached => reached.boundary.inside⟩
    have lines := stored.lineRoom
    rw [lexBuffer_lines_length scanned] at lines
    exact ⟨((lexes_inside_iff buffer).mp inside).2, stored.tokenRoom, lines⟩
  · rintro ⟨keywords, tokenRoom, lineRoom⟩ uninit
    rcases ((lexes_inside_iff buffer).mpr ⟨comments, keywords⟩).returns with
      ⟨⟨tokens, errors⟩, scanned⟩
    rw [← lexBuffer_lines_length scanned] at lineRoom
    rcases @lexArrays_returns uninit _ _ _ scanned tokenRoom lineRoom with
      ⟨tokenArray, lineArray, returns⟩
    rcases lexArrays_stored returns with ⟨_, stored⟩
    exact ⟨tokenArray, lineArray, returns, stored.holdsNewlines fits⟩

/--
A position is looked up right exactly when the search for its rank adds up, and
when every comment ends the array holds exactly the newlines unless a keyword
stands before a zero byte or there is no room for the tokens or the newlines.
-/
theorem lines_columns_iff (tokens : MillieTokens)
    (offsets : LineOffsets tokens.lineArray) {position : Nat}
    (bound : position < 4294967296) (buffer : ByteString)
    (fits : FitsString buffer) (comments : CommentsEnd buffer) :
    (LooksUp tokens position ↔
        InReach tokens.lineArray.length
          (tokens.lineArray.countP (· < position)) ∧
        (tokens.lineArray.countP (· < position) = 0 →
          position + 1 < 4294967296)) ∧
      (RecordsLines buffer ↔ KeywordsEnd buffer ∧
        tokenCount buffer < arrayLimit ∧
        buffer.count (byte '\n') ≤ arrayLimit) :=
  ⟨looksUp_iff offsets bound, recordsLines_iff fits comments⟩

section

variable {buffer : ByteString}

theorem commentsEnd_of_none (none : byte '#' ∉ buffer) :
    CommentsEnd buffer :=
  fun _ hash => absurd (List.mem_of_getElem? hash) none

theorem keywordsEnd_of_none (none : 0 ∉ buffer) : KeywordsEnd buffer := by
  rintro p ⟨keyword, -, after, same⟩
  have zero : 0 ∈ buffer.drop p := by
    rw [same]
    exact List.mem_append_right _ List.mem_cons_self
  exact absurd (List.mem_of_mem_drop zero) none

end

/-- Two lines. -/
theorem lines_columns_two :
    LooksUp ⟨[], [1, 3], ['1', '\n', '+', '\n'].map byte⟩ 3 ∧
      RecordsLines (['1', '\n', '+', '\n'].map byte) := by
  have offsets : LineOffsets [1, 3] := ⟨by decide, by decide⟩
  have scanned : lexBuffer (['1', '\n', '+', '\n'].map byte) =
      .ok (⟨[⟨.tokIntLiteral, 0, 1⟩, ⟨.tokPlus, 2, 1⟩, ⟨.tokEof, 4, 0⟩],
        [1, 3], ['1', '\n', '+', '\n'].map byte⟩, []) := by
    rfl
  have few : tokenCount (['1', '\n', '+', '\n'].map byte) < arrayLimit := by
    have count := lexBuffer_tokenCount scanned
    have limit : 2 < arrayLimit := by decide
    exact Nat.lt_of_le_of_lt (Nat.le_of_eq (Nat.succ.inj count.symm)) limit
  rcases lines_columns_iff ⟨[], [1, 3], ['1', '\n', '+', '\n'].map byte⟩
    offsets (by decide : 3 < 4294967296) (['1', '\n', '+', '\n'].map byte)
    (by unfold FitsString; decide) (commentsEnd_of_none (by decide)) with
    ⟨looks, records⟩
  refine ⟨looks.mpr ⟨.inl ⟨by decide, not_overflows_small (by decide)⟩, ?_⟩,
    records.mpr ⟨keywordsEnd_of_none (by decide), few, by decide⟩⟩
  exact fun _ => by decide

/-- The last newline of a file of `2 ^ 30 + 1` of them. -/
theorem lines_columns_large : ∃ result,
    lexBuffer (List.replicate 1073741825 (byte '\n')) = .ok result ∧
      LineOffsets result.1.lineArray ∧ ¬LooksUp result.1 1073741824 := by
  have only : ∀ c, c ≠ byte '\n' →
      c ∉ List.replicate 1073741825 (byte '\n') := by
    intro c other member
    exact other (List.eq_of_mem_replicate member)
  have comments := commentsEnd_of_none (only (byte '#') (by decide))
  have keywords := keywordsEnd_of_none (only 0 (by decide))
  rcases ((lexes_inside_iff _).mpr ⟨comments, keywords⟩).returns with
    ⟨result, returns⟩
  have fits : FitsString (List.replicate 1073741825 (byte '\n')) := by
    rw [FitsString, List.length_replicate]
    decide
  have offsets := lexBuffer_offsets fits returns
  have rank : result.1.lineArray.countP (· < 1073741824) = 1073741824 := by
    rw [lexBuffer_rank returns, List.take_replicate,
      List.count_replicate_self]
    decide
  have count : result.1.lineArray.length = 1073741825 := by
    rw [lexBuffer_lines_length returns, List.count_replicate_self]
  refine ⟨result, returns, offsets, fun looks => ?_⟩
  have reach := ((looksUp_iff offsets (by decide)).mp looks).1
  rw [rank, count] at reach
  rcases reach with ⟨-, never⟩ | ⟨large, -⟩
  · exact never ⟨30, by decide, by decide, by decide⟩
  · exact absurd large (by decide)

/-! ## The line of a position -/

/--
The characters between the last newline before a position and the first one
at or after it.
-/
def lineOf (buffer : ByteString) (p : Nat) : ByteString :=
  ((buffer.take p).reverse.takeWhile (· != byte '\n')).reverse ++
    (buffer.drop p).takeWhile (· != byte '\n')

/-- The line that a position is on ends in a newline, or is the only one. -/
def LineEnds (buffer : ByteString) (p : Nat) : Prop :=
  byte '\n' ∉ buffer ∨ ∃ q : Nat, p ≤ q ∧ buffer[q]? = some (byte '\n')

/-- The line number of a position gives the text of its line. -/
def ShowsLine (tokens : MillieTokens) (p : Nat) : Prop :=
  ∃ line column, getLineColumnForPosition tokens p = .ok (line, column) ∧
    extractLine tokens line = .ok (lineOf tokens.buffer p)

theorem takeWhile_front {kind : UInt8 → Bool} {first rest : ByteString}
    (all : ∀ c ∈ first, kind c = true)
    (stops : ∀ c ∈ rest.head?, kind c = false) :
    (first ++ rest).takeWhile kind = first := by
  rw [List.takeWhile_append_of_pos all]
  cases rest with
  | nil => exact List.append_nil _
  | cons c rest =>
      rw [List.takeWhile_cons_of_neg (by simp [stops c rfl]), List.append_nil]

section

variable {buffer : ByteString} {p start stop : Nat}

theorem mem_slice {c : UInt8} {n : Nat}
    (member : c ∈ (buffer.drop start).take n) :
    ∃ r, start ≤ r ∧ r < start + n ∧ buffer[r]? = some c := by
  rcases List.mem_iff_getElem?.mp member with ⟨i, at_⟩
  rw [List.getElem?_take] at at_
  split at at_
  · rename_i less
    rw [List.getElem?_drop] at at_
    exact ⟨start + i, by omega, by omega, at_⟩
  · cases at_

/-- The line of a position lies between two newlines around it. -/
theorem lineOf_eq (from_ : start ≤ p) (upTo : p ≤ stop)
    (none : ∀ r, start ≤ r → r < stop → buffer[r]? ≠ some (byte '\n'))
    (opens : start = 0 ∨ buffer[start - 1]? = some (byte '\n'))
    (ends : buffer[stop]? = .none ∨ buffer[stop]? = some (byte '\n')) :
    lineOf buffer p = (buffer.drop start).take (stop - start) := by
  have other : ∀ low n, start ≤ low → low + n ≤ stop →
      ∀ c ∈ (buffer.drop low).take n, (c != byte '\n') = true := by
    intro low n high bound c member
    rcases mem_slice member with ⟨r, first, last, at_⟩
    rw [bne_iff_ne]
    rintro rfl
    exact none r (by omega) (by omega) at_
  have back : (buffer.take p).reverse.takeWhile (· != byte '\n') =
      ((buffer.drop start).take (p - start)).reverse := by
    have split : buffer.take p =
        buffer.take start ++ (buffer.drop start).take (p - start) := by
      rw [← List.take_add, Nat.add_sub_cancel' from_]
    rw [split, List.reverse_append]
    refine takeWhile_front ?_ ?_
    · intro c member
      exact other start (p - start) le_rfl (by omega) c
        (List.mem_reverse.mp member)
    · intro c first
      rw [List.head?_reverse, List.getLast?_take] at first
      split at first
      · cases first
      · rename_i positive
        rw [opens.resolve_left positive] at first
        cases first
        rfl
  have forth : (buffer.drop p).takeWhile (· != byte '\n') =
      (buffer.drop p).take (stop - p) := by
    have rest : ∀ c ∈ ((buffer.drop p).drop (stop - p)).head?,
        (c != byte '\n') = false := by
      intro c first
      rw [List.drop_drop, Nat.add_sub_cancel' upTo, List.head?_drop] at first
      rcases ends with ended | newline
      · rw [ended] at first
        cases first
      · rw [newline] at first
        cases first
        rfl
    calc
      (buffer.drop p).takeWhile (· != byte '\n') =
          ((buffer.drop p).take (stop - p) ++
            (buffer.drop p).drop (stop - p)).takeWhile (· != byte '\n') := by
        rw [List.take_append_drop]
      _ = (buffer.drop p).take (stop - p) :=
        takeWhile_front (other p (stop - p) from_ (by omega)) rest
  have length : stop - start = (p - start) + (stop - p) := by omega
  rw [lineOf, back, forth, List.reverse_reverse, length, List.take_add,
    List.drop_drop, Nat.add_sub_cancel' from_]

/-- A buffer without newlines is one line. -/
theorem lineOf_whole (none : byte '\n' ∉ buffer) (inside : p ≤ buffer.length) :
    lineOf buffer p = buffer := by
  have ended : buffer[buffer.length]? = .none := by simp
  rw [lineOf_eq (Nat.zero_le p) inside
    (fun r _ _ newline => none (List.mem_of_getElem? newline)) (.inl rfl)
    (.inl ended), List.drop_zero, Nat.sub_zero, List.take_length]

end

section Extract

variable {tokens : MillieTokens} {p rank : Nat}
    (newlines : RecordsNewlines tokens.buffer tokens.lineArray)

include newlines

/-- The text of a line that ends in a newline. -/
theorem extractLine_ended (fits : FitsString tokens.buffer)
    (divides : Divides tokens.lineArray p rank)
    (more : rank < tokens.lineArray.length) :
    extractLine tokens (rank + 1) = .ok (lineOf tokens.buffer p) := by
  have newlineAt : ∀ {i : Nat} (at_ : i < tokens.lineArray.length),
      tokens.buffer[tokens.lineArray[i]]? = some (byte '\n') :=
    fun at_ => (newlines.complete _).mp (List.getElem_mem at_)
  have some : tokens.lineArray.length ≠ 0 := by omega
  have ending := newlineAt more
  have inside := (List.getElem?_eq_some_iff.mp ending).1
  have here := List.getElem?_eq_getElem more
  have upTo := divides.above rank _ here le_rfl
  rw [FitsString] at fits
  rw [extractLine, if_neg (Nat.succ_ne_zero rank), if_neg some,
    Nat.add_sub_cancel]
  have copied : ∀ start, start ≤ p →
      (∀ (i q : Nat), tokens.lineArray[i]? = .some q → i < rank → q < start) →
      (start = 0 ∨ tokens.buffer[start - 1]? = .some (byte '\n')) →
      lineStart tokens.lineArray rank = .ok start →
      (do
        let start ← lineStart tokens.lineArray rank
        let lineEnd ← lineAt tokens.lineArray rank
        copyOut tokens.buffer start (unsignedSub lineEnd start)) =
        .ok (lineOf tokens.buffer p) := by
    intro start from_ before opens starts
    rw [starts, Stop.ok_bind, lineAt_eq more, Stop.ok_bind]
    rw [unsignedSub_eq (by omega) (by omega), copyOut, if_pos (by omega),
      lineOf_eq from_ upTo ?_ opens (.inr ending)]
    intro r low high newline
    rcases List.mem_iff_getElem?.mp ((newlines.complete r).mpr newline) with
      ⟨i, found⟩
    rcases Nat.lt_or_ge i rank with less | notLess
    · have := before i r found less
      omega
    · rcases Nat.eq_or_lt_of_le notLess with rfl | later
      · rw [here] at found
        cases found
        omega
      · have := increasing_lt newlines.increasing here found later
        omega
  cases rank with
  | zero => exact copied 0 (Nat.zero_le p) nofun (.inl rfl) rfl
  | succ before =>
      have at_ : before < tokens.lineArray.length := by omega
      have last := List.getElem?_eq_getElem at_
      have less := divides.below before _ last (Nat.lt_succ_self _)
      have starts : lineStart tokens.lineArray (before + 1) =
          .ok (tokens.lineArray[before] + 1) := by
        rw [lineStart, if_pos (Nat.succ_pos before), Nat.add_sub_cancel,
          lineAt_eq at_, Stop.ok_bind, unsignedAdd_eq (by omega)]
        rfl
      refine copied _ less ?_ (.inr (newlineAt at_)) starts
      intro i q found earlier
      rcases Nat.eq_or_lt_of_le (Nat.le_of_lt_succ earlier) with rfl | below
      · rw [last] at found
        cases found
        exact Nat.lt_succ_self _
      · have := increasing_lt newlines.increasing found last below
        omega

omit newlines in
/-- The text of the last line would need a newline that is not there. -/
theorem extractLine_last (some : tokens.lineArray.length ≠ 0)
    (result : ByteString) :
    extractLine tokens (tokens.lineArray.length + 1) ≠ .ok result := by
  intro returns
  rw [extractLine, if_neg (Nat.succ_ne_zero _), if_neg some,
    Nat.add_sub_cancel] at returns
  rcases Stop.bind_eq_ok_iff.mp returns with ⟨start, -, returns⟩
  have ends : lineAt tokens.lineArray tokens.lineArray.length =
      .error .undefinedBehaviour := by
    simp [lineAt]
  rw [ends] at returns
  cases returns

/-- Which lines are shown when their rank is right. -/
theorem extractLine_iff (fits : FitsString tokens.buffer)
    (divides : Divides tokens.lineArray p rank)
    (inside : p ≤ tokens.buffer.length) :
    extractLine tokens (rank + 1) = .ok (lineOf tokens.buffer p) ↔
      LineEnds tokens.buffer p := by
  have never : byte '\n' ∉ tokens.buffer ↔ tokens.lineArray.length = 0 := by
    rw [List.length_eq_zero_iff, List.eq_nil_iff_forall_not_mem,
      List.mem_iff_getElem?]
    simp only [newlines.complete, not_exists]
  rcases Nat.eq_or_lt_of_le divides.inside with last | more
  · by_cases none : tokens.lineArray.length = 0
    · refine iff_of_true ?_ (.inl (never.mpr none))
      rw [lineOf_whole (never.mpr none) inside, extractLine,
        if_neg (Nat.succ_ne_zero rank), if_pos none]
      rfl
    · rw [last]
      refine iff_of_false (extractLine_last none _) ?_
      rintro (empty | ⟨q, after, newline⟩)
      · exact none (never.mp empty)
      · rcases List.mem_iff_getElem?.mp ((newlines.complete q).mpr newline)
          with ⟨i, found⟩
        have at_ := (List.getElem?_eq_some_iff.mp found).1
        have := divides.below i q found (by omega)
        omega
  · refine iff_of_true (extractLine_ended newlines fits divides more) (.inr ?_)
    have here := List.getElem?_eq_getElem more
    exact ⟨_, divides.above rank _ here le_rfl,
      (newlines.complete _).mp (List.getElem_mem more)⟩

/-- Which lines are shown, when the number of newlines is an `int`. -/
theorem showsLine_int (fits : FitsString tokens.buffer)
    (offsets : LineOffsets tokens.lineArray)
    (divides : Divides tokens.lineArray p rank)
    (small : tokens.lineArray.length < 2147483648)
    (inside : p ≤ tokens.buffer.length) :
    ShowsLine tokens p ↔ ¬Overflows 0 tokens.lineArray.length rank ∧
      LineEnds tokens.buffer p := by
  have bound : p + 1 < 4294967296 :=
    Nat.lt_of_le_of_lt (Nat.succ_le_succ inside) fits
  rcases lookUp_int offsets (Nat.lt_of_succ_lt bound) divides small with
    ⟨finds, only⟩
  rw [← extractLine_iff newlines fits divides inside]
  constructor
  · rintro ⟨line, column, returns, text⟩
    have never := only _ returns
    rcases finds never with ⟨column', again, -, -⟩
    rw [returns] at again
    cases again
    exact ⟨never, text⟩
  · rintro ⟨never, text⟩
    rcases finds never with ⟨column, returns, -, -⟩
    exact ⟨_, column, returns, text⟩

/-- With more newlines than that the first line is shown. -/
theorem showsLine_beyond (fits : FitsString tokens.buffer)
    (offsets : LineOffsets tokens.lineArray)
    (large : 2147483648 < tokens.lineArray.length) :
    ShowsLine tokens p ↔ lineOf tokens.buffer p = lineOf tokens.buffer 0 := by
  have returns := @lookUp_beyond _ p offsets large
  have first : Divides tokens.lineArray 0 0 :=
    ⟨Nat.zero_le _, fun i q at_ before => absurd before (Nat.not_lt_zero i),
      fun _ q _ _ => Nat.zero_le q⟩
  have text := extractLine_ended newlines fits first (by omega)
  constructor
  · rintro ⟨line, column, again, shown⟩
    rw [returns] at again
    cases again
    exact Except.ok.inj (shown.symm.trans text)
  · intro same
    exact ⟨_, _, returns, same ▸ text⟩

end Extract

/--
When the line of a position is shown: a newline ends it or there is none, and
the search for it adds up; or the newlines are more than an `int` can count, and
it has the text of the first line, which is shown then.
-/
theorem shown_lines_iff {buffer : ByteString} (fits : FitsString buffer)
    {result : MillieTokens × List ErrorReport}
    (returns : lexBuffer buffer = .ok result) {p : Nat}
    (inside : p ≤ buffer.length) :
    ShowsLine result.1 p ↔
      (buffer.count (byte '\n') < 2147483648 ∧
        ¬Overflows 0 (buffer.count (byte '\n'))
          ((buffer.take p).count (byte '\n')) ∧ LineEnds buffer p) ∨
      (2147483648 < buffer.count (byte '\n') ∧
        lineOf buffer p = lineOf buffer 0) := by
  have offsets := lexBuffer_offsets fits returns
  have length := lexBuffer_lines_length returns
  have divides := divides_rank offsets.increasing p
  rw [lexBuffer_rank returns] at divides
  rcases lexBuffer_newlines returns with ⟨newlines, rfl⟩
  rcases Nat.lt_trichotomy result.1.lineArray.length 2147483648 with
    small | same | large
  · rw [showsLine_int newlines fits offsets divides small inside, length]
    rw [length] at small
    exact ⟨fun both => .inl ⟨small, both⟩, fun either =>
      either.elim And.right fun both => absurd both.1 (Nat.lt_asymm small)⟩
  · rw [length] at same
    refine iff_of_false ?_ (by omega)
    rintro ⟨line, column, looked, -⟩
    exact lookUp_middle (length.trans same) _ looked
  · rw [showsLine_beyond newlines fits offsets large]
    rw [length] at large
    exact ⟨fun text => .inr ⟨large, text⟩, fun either =>
      either.elim (fun both => absurd both.1 (Nat.lt_asymm large)) And.right⟩

/-- Both lines of `1\n2\n`, but not what follows them. -/
theorem shown_lines_two : ∃ result,
    lexBuffer (['1', '\n', '2', '\n'].map byte) = .ok result ∧
      ShowsLine result.1 0 ∧ ShowsLine result.1 3 ∧ ¬ShowsLine result.1 4 := by
  have returns : lexBuffer (['1', '\n', '2', '\n'].map byte) =
      .ok (⟨[⟨.tokIntLiteral, 0, 1⟩, ⟨.tokIntLiteral, 2, 1⟩, ⟨.tokEof, 4, 0⟩],
        [1, 3], ['1', '\n', '2', '\n'].map byte⟩, []) := by
    rfl
  have fits : FitsString (['1', '\n', '2', '\n'].map byte) := by
    unfold FitsString
    decide
  have small : (['1', '\n', '2', '\n'].map byte).count (byte '\n') <
      2147483648 := by
    decide
  refine ⟨_, returns, ?_, ?_, ?_⟩
  · refine (shown_lines_iff fits returns (by decide)).mpr (.inl ⟨small,
      not_overflows_small (by decide), .inr ⟨1, by decide, rfl⟩⟩)
  · refine (shown_lines_iff fits returns (by decide)).mpr (.inl ⟨small,
      not_overflows_small (by decide), .inr ⟨3, by decide, rfl⟩⟩)
  · intro shows
    rcases (shown_lines_iff fits returns (by decide)).mp shows with
      ⟨-, -, none | ⟨q, after, newline⟩⟩ | ⟨large, -⟩
    · exact none (by decide)
    · have inside := (List.getElem?_eq_some_iff.mp newline).1
      exact absurd inside (Nat.not_lt_of_le after)
    · exact Nat.lt_asymm small large

/-- The `2` of `1\n2` is on a line that no newline ends. -/
theorem shown_lines_not : ∃ result,
    lexBuffer (['1', '\n', '2'].map byte) = .ok result ∧
      ¬ShowsLine result.1 2 := by
  refine ⟨_, rfl, ?_⟩
  rintro ⟨line, column, looked, text⟩
  have located : getLineColumnForPosition
      ⟨[⟨.tokIntLiteral, 0, 1⟩, ⟨.tokIntLiteral, 2, 1⟩, ⟨.tokEof, 3, 0⟩],
        [1], ['1', '\n', '2'].map byte⟩ 2 = .ok (2, 1) := by
    rfl
  have same : (line, column) = (2, 1) :=
    Except.ok.inj (looked.symm.trans located)
  cases same
  have outside : extractLine
      ⟨[⟨.tokIntLiteral, 0, 1⟩, ⟨.tokIntLiteral, 2, 1⟩, ⟨.tokEof, 3, 0⟩],
        [1], ['1', '\n', '2'].map byte⟩ 2 = .error .undefinedBehaviour := by
    rfl
  exact nomatch outside.symm.trans text

end Millie.Syntax
