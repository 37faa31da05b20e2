import Millie.Pipeline.Driver
import Millie.Syntax.Lines

/-!
# Printed errors

Translation of `PrintErrors` in `millie.c`.  Under the line of an error's first
character the characters of the error on that line are marked.  Where the error
goes on to a later line, the last character of the line is left out: the column
that ends the marks is then the length of the line, and not one more.  The line
itself is printed up to its first zero byte only, but all of it is marked.
-/

namespace Millie.Pipeline

open Millie.Symbols Millie.Syntax Millie.Types Millie.Compiler

/-! ## `PrintErrors` -/

/-- The character under column `i` of the line. -/
def mark (startCol endCol i : Nat) : Char :=
  if i < startCol then ' '
  else if i = startCol then '^'
  else if i < endCol then '~'
  else ' '

/-- What `%s` prints of a text. -/
def cString (text : ByteString) : ByteString :=
  text.takeWhile (· != 0)

/-- What is printed for an error, after the name of the file. -/
structure Diagnostic where
  startLine : Nat
  startCol : Nat
  message : String
  line : ByteString
  marks : List Char
deriving DecidableEq

/-- One round of the loop of `PrintErrors`. -/
def printError (tokens : MillieTokens) (error : ErrorReport) :
    Except Stop Diagnostic := do
  let (startLine, startCol) ← getLineColumnForPosition tokens error.startPos
  let (endLine, endCol) ← getLineColumnForPosition tokens error.endPos
  let line ← extractLine tokens startLine
  let endCol := if endLine ≠ startLine then line.length else endCol
  return ⟨startLine, startCol, error.message, cString line,
    (List.range line.length).map fun i => mark startCol endCol (i + 1)⟩

/-- `PrintErrors`. -/
def printErrors (tokens : MillieTokens) :
    List ErrorReport → Except Stop (List Diagnostic)
  | [] => return []
  | error :: errors => do
      let diagnostic ← printError tokens error
      return diagnostic :: (← printErrors tokens errors)

/-! ## Lines -/

/-- A position is on the line from one position up to another. -/
structure OnLine (buffer : ByteString) (p start stop : Nat) : Prop where
  from_ : start ≤ p
  upTo : p ≤ stop
  inside : stop ≤ buffer.length
  none_ : ∀ r, start ≤ r → r < stop → buffer[r]? ≠ some (byte '\n')
  opens : start = 0 ∨ buffer[start - 1]? = some (byte '\n')
  ends : buffer[stop]? = none ∨ buffer[stop]? = some (byte '\n')

/-- Where the line of a position begins. -/
def lineBegin (buffer : ByteString) (p : Nat) : Nat :=
  p - ((buffer.take p).reverse.takeWhile (· != byte '\n')).length

namespace OnLine

variable {buffer : ByteString} {p start stop : Nat}

theorem lineOf_eq (onLine : OnLine buffer p start stop) :
    lineOf buffer p = (buffer.drop start).take (stop - start) :=
  Syntax.lineOf_eq onLine.from_ onLine.upTo onLine.none_ onLine.opens
    onLine.ends

theorem length_lineOf (onLine : OnLine buffer p start stop) :
    (lineOf buffer p).length = stop - start := by
  have inside := onLine.inside
  rw [onLine.lineOf_eq, List.length_take, List.length_drop]
  omega

/-- A position between one and the end of its line is on the line too. -/
theorem later (onLine : OnLine buffer p start stop) {q : Nat} (after : p ≤ q)
    (upTo : q ≤ stop) : OnLine buffer q start stop :=
  ⟨Nat.le_trans onLine.from_ after, upTo, onLine.inside, onLine.none_,
    onLine.opens, onLine.ends⟩

theorem lineBegin_eq (onLine : OnLine buffer p start stop) :
    lineBegin buffer p = start := by
  have inside := Nat.le_trans onLine.upTo onLine.inside
  have from_ := onLine.from_
  have split : buffer.take p =
      buffer.take start ++ (buffer.drop start).take (p - start) := by
    rw [← List.take_add, Nat.add_sub_cancel' from_]
  have back : (buffer.take p).reverse.takeWhile (· != byte '\n') =
      ((buffer.drop start).take (p - start)).reverse := by
    rw [split, List.reverse_append]
    refine takeWhile_front ?_ ?_
    · intro c member
      rcases mem_slice (List.mem_reverse.mp member) with ⟨r, low, high, at_⟩
      rw [bne_iff_ne]
      rintro rfl
      have upTo := onLine.upTo
      exact onLine.none_ r low (by omega) at_
    · intro c first
      rw [List.head?_reverse, List.getLast?_take] at first
      split at first
      · cases first
      · rename_i positive
        rw [onLine.opens.resolve_left positive] at first
        cases first
        rfl
  rw [lineBegin, back, List.length_reverse, List.length_take, List.length_drop]
  omega

end OnLine

/-! ## Looking up a position -/

section

variable {tokens : MillieTokens} {p rank : Nat}
    (newlines : RecordsNewlines tokens.buffer tokens.lineArray)

include newlines

theorem newline_at {i q : Nat} (found : tokens.lineArray[i]? = some q) :
    tokens.buffer[q]? = some (byte '\n') :=
  (newlines.complete q).mp (List.mem_of_getElem? found)

theorem newline_ranked {q : Nat}
    (newline : tokens.buffer[q]? = some (byte '\n')) :
    ∃ i : Nat, tokens.lineArray[i]? = some q :=
  List.mem_iff_getElem?.mp ((newlines.complete q).mpr newline)

/-- The line ends at the newline of the rank, or with the buffer. -/
theorem Divides.lineStop (divides : Divides tokens.lineArray p rank)
    (inside : p ≤ tokens.buffer.length) :
    ∃ stop, p ≤ stop ∧ stop ≤ tokens.buffer.length ∧
      (∀ r, p ≤ r → r < stop → tokens.buffer[r]? ≠ some (byte '\n')) ∧
      (tokens.buffer[stop]? = none ∨
        tokens.buffer[stop]? = some (byte '\n')) := by
  cases at_ : tokens.lineArray[rank]? with
  | some stop =>
      have newline := newline_at newlines at_
      have last := (List.getElem?_eq_some_iff.mp newline).1
      refine ⟨stop, divides.above rank stop at_ le_rfl, Nat.le_of_lt last,
        fun r low high earlier => ?_, .inr newline⟩
      rcases newline_ranked newlines earlier with ⟨i, found⟩
      rcases Nat.lt_trichotomy i rank with less | rfl | more
      · exact Nat.not_lt_of_le low (divides.below i r found less)
      · rw [at_] at found
        cases found
        exact Nat.lt_irrefl _ high
      · exact Nat.lt_asymm high
          (increasing_lt newlines.increasing at_ found more)
  | none =>
      refine ⟨tokens.buffer.length, inside, le_rfl,
        fun r low high newline => ?_, .inl (by simp)⟩
      rcases newline_ranked newlines newline with ⟨i, found⟩
      have few := List.getElem?_eq_none_iff.mp at_
      have less := (List.getElem?_eq_some_iff.mp found).1
      exact Nat.not_lt_of_le low
        (divides.below i r found (Nat.lt_of_lt_of_le less few))

/-- No entry between the last one below a position and the position. -/
theorem Divides.last_below {before last i r : Nat}
    (divides : Divides tokens.lineArray p (before + 1))
    (here : tokens.lineArray[before]? = some last)
    (found : tokens.lineArray[i]? = some r) (below : r < p) : r ≤ last := by
  have earlier : i < before + 1 := by
    by_contra later
    exact Nat.not_lt_of_le (divides.above i r found (Nat.le_of_not_lt later))
      below
  rcases Nat.eq_or_lt_of_le (Nat.le_of_lt_succ earlier) with rfl | smaller
  · rw [here] at found
    cases found
    exact le_rfl
  · exact Nat.le_of_lt (increasing_lt newlines.increasing found here smaller)

/-- The line begins after the newline before the rank, or with the buffer. -/
theorem Divides.onLine (divides : Divides tokens.lineArray p rank)
    (inside : p ≤ tokens.buffer.length) :
    ∃ start stop, OnLine tokens.buffer p start stop ∧
      ∀ column, Locates tokens.lineArray p (rank + 1, column) →
        column = p - start + 1 := by
  rcases Divides.lineStop newlines divides inside with
    ⟨stop, upTo, last, after, ends⟩
  cases rank with
  | zero =>
      have none_ : ∀ q ∈ tokens.lineArray, p ≤ q := by
        intro q member
        rcases List.mem_iff_getElem?.mp member with ⟨i, found⟩
        exact divides.above i q found (Nat.zero_le i)
      refine ⟨0, stop, ⟨Nat.zero_le p, upTo, last, fun r _ high newline => ?_,
        .inl rfl, ends⟩, fun column located => located.first none_⟩
      exact after r (none_ r ((newlines.complete r).mpr newline)) high newline
  | succ before =>
      have at_ := Nat.lt_of_lt_of_le (Nat.lt_succ_self before) divides.inside
      have here := List.getElem?_eq_getElem at_
      generalize tokens.lineArray[before] = last' at here
      have less := divides.below before last' here (Nat.lt_succ_self before)
      refine ⟨last' + 1, stop, ⟨less, upTo, last, fun r low high newline => ?_,
        .inr (newline_at newlines here), ends⟩, fun column located => ?_⟩
      · by_cases below : r < p
        · rcases newline_ranked newlines newline with ⟨i, found⟩
          exact Nat.not_lt_of_le (Divides.last_below newlines divides here found
            below) low
        · exact after r (Nat.le_of_not_lt below) high newline
      · have found := located.later last' (List.mem_of_getElem? here) less
          fun r member below => by
            rcases List.mem_iff_getElem?.mp member with ⟨i, found⟩
            exact Divides.last_below newlines divides here found below
        change column = p - last' at found
        omega

/-- The rank of a position is the number of newlines before it. -/
theorem Divides.rank_eq (divides : Divides tokens.lineArray p rank) :
    rank = (tokens.buffer.take p).count (byte '\n') := by
  have same : (tokens.lineArray.filter (· < p)).Perm
      (newlinesBefore tokens.buffer p) := by
    refine (List.perm_ext_iff_of_nodup
      (newlines.increasing.imp Nat.ne_of_lt |>.filter _)
      (List.nodup_range.filter _)).mpr fun q => ?_
    simp [newlines.complete, and_comm]
  rw [← divides.countP, List.countP_eq_length_filter, same.length_eq,
    newlinesBefore_length]

/-- Which line numbers give a text. -/
theorem Divides.extract_iff (fits : FitsString tokens.buffer)
    (divides : Divides tokens.lineArray p rank)
    (inside : p ≤ tokens.buffer.length) {text : ByteString} :
    extractLine tokens (rank + 1) = .ok text ↔
      LineEnds tokens.buffer p ∧ text = lineOf tokens.buffer p := by
  have never : byte '\n' ∉ tokens.buffer ↔ tokens.lineArray.length = 0 := by
    rw [List.length_eq_zero_iff, List.eq_nil_iff_forall_not_mem,
      List.mem_iff_getElem?]
    simp only [newlines.complete, not_exists]
  rcases Nat.eq_or_lt_of_le divides.inside with last | more
  · by_cases none_ : tokens.lineArray.length = 0
    · rw [lineOf_whole (never.mpr none_) inside, extractLine,
        if_neg (Nat.succ_ne_zero rank), if_pos none_]
      constructor
      · intro same
        exact ⟨.inl (never.mpr none_), (Except.ok.inj same).symm⟩
      · rintro ⟨-, rfl⟩
        rfl
    · rw [last]
      refine iff_of_false (extractLine_last none_ text) ?_
      rintro ⟨empty | ⟨q, after, newline⟩, -⟩
      · exact none_ (never.mp empty)
      · rcases newline_ranked newlines newline with ⟨i, found⟩
        have at_ := (List.getElem?_eq_some_iff.mp found).1
        have below := divides.below i q found (by omega)
        omega
  · have here := List.getElem?_eq_getElem more
    have ends : LineEnds tokens.buffer p :=
      .inr ⟨_, divides.above rank _ here le_rfl, newline_at newlines here⟩
    rw [extractLine_ended newlines fits divides more]
    constructor
    · exact fun same => ⟨ends, (Except.ok.inj same).symm⟩
    · rintro ⟨-, rfl⟩
      rfl

end

/-! ## What is shown -/

/-- The mark under a character. -/
def markAt (error : ErrorReport) (stop p : Nat) : Char :=
  if p < error.startPos then ' '
  else if p = error.startPos then '^'
  else if p < stop then '~'
  else ' '

/--
What is shown for an error: its line up to a zero byte, with its first character
marked, and the later ones up to its end or up to the last one of the line.
-/
def shown (buffer : ByteString) (error : ErrorReport) : Diagnostic :=
  let start := lineBegin buffer error.startPos
  let line := lineOf buffer error.startPos
  let stop :=
    if start + line.length < error.endPos then start + line.length - 1
    else error.endPos
  ⟨(buffer.take error.startPos).count (byte '\n') + 1,
    error.startPos - start + 1, error.message, cString line,
    (List.range line.length).map fun i => markAt error stop (start + i)⟩

section

variable {tokens : MillieTokens} {p : Nat}

/-- The line and the column that are looked up for a position. -/
theorem lookUp_line (newlines : RecordsNewlines tokens.buffer tokens.lineArray)
    (fits : FitsString tokens.buffer) (offsets : LineOffsets tokens.lineArray)
    (small : tokens.lineArray.length ≤ 1073741824)
    (inside : p ≤ tokens.buffer.length) :
    ∃ rank start stop, Divides tokens.lineArray p rank ∧
      OnLine tokens.buffer p start stop ∧
      getLineColumnForPosition tokens p = .ok (rank + 1, p - start + 1) := by
  have bound : p + 1 < 4294967296 :=
    Nat.lt_of_le_of_lt (Nat.succ_le_succ inside) fits
  rcases lookUp_small offsets small bound with
    ⟨rank, column, returns, divides, located⟩
  rcases Divides.onLine newlines divides inside with
    ⟨start, stop, onLine, columns⟩
  exact ⟨rank, start, stop, divides, onLine, columns column located ▸ returns⟩

/-- Whether a later position is on the same line. -/
theorem Divides.same_rank_iff
    (newlines : RecordsNewlines tokens.buffer tokens.lineArray)
    {q rank later start stop : Nat} (divides : Divides tokens.lineArray p rank)
    (laterDivides : Divides tokens.lineArray q later)
    (onLine : OnLine tokens.buffer p start stop) (order : p ≤ q)
    (inside : q ≤ tokens.buffer.length) : later = rank ↔ q ≤ stop := by
  constructor
  · rintro rfl
    by_contra beyond
    have newline : tokens.buffer[stop]? = some (byte '\n') := by
      refine onLine.ends.resolve_left fun ended => ?_
      have := List.getElem?_eq_none_iff.mp ended
      omega
    rcases newline_ranked newlines newline with ⟨i, found⟩
    rcases Nat.lt_or_ge i later with below | above
    · exact Nat.not_lt_of_le onLine.upTo (divides.below i stop found below)
    · exact beyond (laterDivides.above i stop found above)
  · intro upTo
    have divides' : Divides tokens.lineArray q rank :=
      ⟨divides.inside, fun i r found below =>
        Nat.lt_of_lt_of_le (divides.below i r found below) order,
        fun i r found above => by
          by_contra short
          have from_ :=
            Nat.le_trans onLine.from_ (divides.above i r found above)
          exact onLine.none_ r from_ (by omega) (newline_at newlines found)⟩
    rw [← laterDivides.countP, ← divides'.countP]

/--
An error is printed if and only if its first line ends in a newline or is the
only one, and what is printed for it is what is shown.
-/
theorem printError_iff {error : ErrorReport} {diagnostic : Diagnostic}
    (newlines : RecordsNewlines tokens.buffer tokens.lineArray)
    (fits : FitsString tokens.buffer) (offsets : LineOffsets tokens.lineArray)
    (small : tokens.lineArray.length ≤ 1073741824)
    (covers : InBuffer tokens.buffer error) :
    printError tokens error = .ok diagnostic ↔
      LineEnds tokens.buffer error.startPos ∧
        diagnostic = shown tokens.buffer error := by
  rcases covers with ⟨order, endInside⟩
  have inside := Nat.le_trans order endInside
  rcases lookUp_line newlines fits offsets small inside with
    ⟨rank, start, stop, divides, onLine, looked⟩
  rcases lookUp_line newlines fits offsets small endInside with
    ⟨later, laterStart, laterStop, laterDivides, laterOn, laterLooked⟩
  have sameRank := Divides.same_rank_iff newlines divides laterDivides onLine
    order endInside
  have from_ := onLine.from_
  have upTo := onLine.upTo
  have length := onLine.length_lineOf
  have marks : ∀ i < stop - start,
      mark (error.startPos - start + 1)
          (if later + 1 ≠ rank + 1 then stop - start
          else error.endPos - laterStart + 1) (i + 1) =
        markAt error (if stop < error.endPos then stop - 1 else error.endPos)
          (start + i) := by
    intro i below
    unfold mark markAt
    by_cases same : later = rank
    · have upTo := sameRank.mp same
      have starts : laterStart = start :=
        laterOn.lineBegin_eq.symm.trans (onLine.later order upTo).lineBegin_eq
      rw [if_neg (not_not_intro (congrArg (· + 1) same)),
        if_neg (Nat.not_lt_of_le upTo), starts]
      split_ifs <;> first | rfl | omega
    · have beyond := Nat.lt_of_not_le (mt sameRank.mpr same)
      rw [if_pos (mt Nat.succ.inj same), if_pos beyond]
      split_ifs <;> first | rfl | omega
  have printed : (List.range (stop - start)).map
      (fun i => mark (error.startPos - start + 1)
        (if later + 1 ≠ rank + 1 then stop - start
        else error.endPos - laterStart + 1) (i + 1)) =
      (List.range (stop - start)).map fun i =>
        markAt error (if stop < error.endPos then stop - 1 else error.endPos)
          (start + i) :=
    List.map_congr_left fun i member => marks i (List.mem_range.mp member)
  have whole : start + (stop - start) = stop := by omega
  have same : shown tokens.buffer error =
      ⟨rank + 1, error.startPos - start + 1, error.message,
        cString (lineOf tokens.buffer error.startPos),
        (List.range (stop - start)).map fun i => mark
          (error.startPos - start + 1)
          (if later + 1 ≠ rank + 1 then stop - start
          else error.endPos - laterStart + 1) (i + 1)⟩ := by
    simp only [shown, onLine.lineBegin_eq, length, whole, printed,
      ← Divides.rank_eq newlines divides]
  rw [printError, looked]
  simp only [Stop.ok_bind, laterLooked, Stop.bind_eq_ok_iff,
    Divides.extract_iff newlines fits divides inside]
  rw [same]
  constructor
  · rintro ⟨line, ⟨ends, rfl⟩, returns⟩
    rw [length] at returns
    exact ⟨ends, (Except.ok.inj returns).symm⟩
  · rintro ⟨ends, rfl⟩
    refine ⟨_, ⟨ends, rfl⟩, ?_⟩
    rw [length]
    rfl

/-- Errors are printed if and only if each of them is. -/
theorem printErrors_iff
    (newlines : RecordsNewlines tokens.buffer tokens.lineArray)
    (fits : FitsString tokens.buffer) (offsets : LineOffsets tokens.lineArray)
    (small : tokens.lineArray.length ≤ 1073741824) {errors : List ErrorReport}
    (inside : ∀ error ∈ errors, InBuffer tokens.buffer error)
    {diagnostics : List Diagnostic} :
    printErrors tokens errors = .ok diagnostics ↔
      (∀ error ∈ errors, LineEnds tokens.buffer error.startPos) ∧
        diagnostics = errors.map (shown tokens.buffer) := by
  induction errors generalizing diagnostics with
  | nil =>
      simp only [printErrors, List.map_nil]
      constructor
      · intro returns
        exact ⟨List.forall_mem_nil _, (Except.ok.inj returns).symm⟩
      · rintro ⟨-, rfl⟩
        rfl
  | cons error errors ih =>
      have first : ∀ diagnostic, printError tokens error = .ok diagnostic ↔ _ :=
        fun _ => printError_iff newlines fits offsets small
          (inside error List.mem_cons_self)
      have rest : ∀ diagnostics,
          printErrors tokens errors = .ok diagnostics ↔ _ :=
        fun _ => ih fun later member =>
          inside later (List.mem_cons_of_mem _ member)
      simp only [printErrors, Stop.bind_eq_ok_iff, first, rest,
        List.forall_mem_cons, List.map_cons]
      constructor
      · rintro ⟨_, ⟨ends, rfl⟩, _, ⟨others, rfl⟩, returns⟩
        exact ⟨⟨ends, others⟩, (Except.ok.inj returns).symm⟩
      · rintro ⟨⟨ends, others⟩, rfl⟩
        exact ⟨_, ⟨ends, rfl⟩, _, ⟨others, rfl⟩, rfl⟩

end

/-! ## The errors that the driver reports -/

section

variable {hash32 : ByteString → UInt32} {uninit : Nat → Nat → CompileBinding}
  {fuel : DriverFuel} {printType : Bool} {buffer : ByteString}
  {reports : List ErrorReport}

/-- The errors of the last part of the driver are those of the compiler. -/
theorem printResult_errors {input : CompileInput} {expression : Expression}
    {type : TypePointer} {graph : TypeGraph}
    (reported : printResult fuel printType input expression type graph =
      .ok (.errors reports)) :
    ∃ funcId after, compileModule input expression = .ok (funcId, after) ∧
      reports = after.errors := by
  cases printType with
  | true =>
      rw [printResult, if_pos rfl] at reported
      rcases Stop.bind_eq_ok_iff.mp reported with ⟨⟨line, graph⟩, -, same⟩
      cases same
  | false =>
      rw [printResult, if_neg Bool.false_ne_true] at reported
      rcases Stop.bind_eq_ok_iff.mp reported with
        ⟨⟨funcId, after⟩, returns, rest⟩
      refine ⟨funcId, after, returns, ?_⟩
      by_cases quiet : after.errors = []
      · simp only [ne_eq, quiet, not_true_eq_false, if_false] at rest
        rcases Stop.bind_eq_ok_iff.mp rest with ⟨⟨word, memory⟩, -, rest⟩
        rcases Stop.bind_eq_ok_iff.mp rest with ⟨line, -, same⟩
        cases same
      · simp only [ne_eq, quiet, not_false_eq_true, if_true] at rest
        cases rest
        rfl

/-- Every error that the driver reports has a range of the buffer. -/
theorem main_errors_inside
    (reported : main hash32 uninit fuel printType buffer =
      .ok (.errors reports)) : ∀ report ∈ reports, InBuffer buffer report := by
  rw [main] at reported
  rcases Stop.bind_eq_ok_iff.mp reported with
    ⟨⟨tokens, lexErrors⟩, lexed, rest⟩
  rcases lexBuffer_accounts lexed with ⟨last, -, ended, -, extents, same⟩
  have sameBuffer : tokens.buffer = buffer := by
    cases same
    rfl
  by_cases lexQuiet : lexErrors = []
  swap
  · simp only [ne_eq, lexQuiet, not_false_eq_true, if_true] at rest
    cases rest
    intro report member
    cases same
    rcases extents.extent report member with ⟨order, inside⟩
    exact ⟨Nat.le_of_lt order, ended ▸ inside⟩
  simp only [ne_eq, lexQuiet, not_true_eq_false, if_false] at rest
  have from_ := fromLexer lexed
  rcases parsing : parseExpression hash32 fuel.symbols tokens symbolTableCreate
    [] with stop | ⟨expression, context⟩
  · rw [parsing] at rest
    cases rest
  have parsed := parseExpression_parsed from_.ends parsing
  simp only [parsing] at rest
  by_cases parseQuiet : context.errors = []
  swap
  · simp only [parseQuiet, not_false_eq_true, if_true] at rest
    cases rest
    rcases parsed.advances.reports with ⟨new, added, atTokens⟩
    intro report member
    rw [added] at member
    rcases atTokens report member with ⟨token, inArray, starts, ends⟩
    rw [InBuffer, starts, ends, ← sameBuffer]
    exact ⟨Nat.le_add_right _ _, from_.texts token inArray⟩
  simp only [parseQuiet, not_true_eq_false, if_false] at rest
  have spans : Spans 0 expression context.pos := parsed.spans
  have nodes := everywhere_inTokens spans.ranged
    (Nat.lt_of_le_of_lt spans.last parsed.advances.standing.inside)
  have reportable := everywhere_mono
    (fun node inTokens => reportable_inTokens lexed inTokens) nodes
  rcases run : getExpressionType (getToken tokens) fuel.types expression with
    ⟨stop | type, checked⟩
  · rw [run] at rest
    cases rest
  simp only [run] at rest
  by_cases quiet : checked.errors = []
  swap
  · simp only [quiet, not_false_eq_true, if_true] at rest
    cases rest
    have inside := getExpressionType_reports fuel.types reportable
    rw [run] at inside
    exact inside
  simp only [quiet, not_true_eq_false, if_false] at rest
  rcases printResult_errors rest with ⟨funcId, after, returns, rfl⟩
  have atNodes : Everywhere (fun node => Compiler.Reportable
      ⟨getToken tokens, uninit⟩ (InBuffer buffer) node.range) expression :=
    reportable
  exact compileModule_reports atNodes returns

/--
The errors that the driver reports are printed if and only if the first line of
each ends in a newline or is the only one, and what is printed for them is what
is shown.
-/
theorem main_printErrors_iff {tokens : MillieTokens}
    {lexErrors : List ErrorReport} {diagnostics : List Diagnostic}
    (fits : FitsString buffer) (few : buffer.count (byte '\n') ≤ 1073741824)
    (lexed : lexBuffer buffer = .ok (tokens, lexErrors))
    (reported : main hash32 uninit fuel printType buffer =
      .ok (.errors reports)) :
    printErrors tokens reports = .ok diagnostics ↔
      (∀ report ∈ reports, LineEnds buffer report.startPos) ∧
        diagnostics = reports.map (shown buffer) := by
  have inside := main_errors_inside reported
  have offsets := lexBuffer_offsets fits lexed
  have length := lexBuffer_lines_length lexed
  rcases lexBuffer_newlines lexed with ⟨newlines, rfl⟩
  exact printErrors_iff newlines fits offsets (length ▸ few) inside

end

/-- `(true,` and `1) 2` on the next line. -/
def pairBuffer : ByteString :=
  "(true,\n1) 2\n".toList.map byte

/-- The error of `(true,` and `1) 2`. -/
def pairReport : ErrorReport :=
  ⟨"the function of type \"bool * int\" cannot be used as a function of type" ++
    " \"( int -> 'A )\"; either the argument or return type is incompatible",
    1, 11⟩

/-- The comma at the end of the first line is not marked. -/
theorem main_printErrors_pair : ∃ tokens,
    lexBuffer pairBuffer = .ok (tokens, []) ∧
      main (fun _ => 0) (fun _ _ => ⟨0, 0⟩) ⟨4, 20, 0, 20⟩ true pairBuffer =
        .ok (.errors [pairReport]) ∧
      printErrors tokens [pairReport] = .ok [shown pairBuffer pairReport] ∧
      (shown pairBuffer pairReport).marks = " ^~~~ ".toList := by
  have lexed : lexBuffer pairBuffer = .ok (_, []) := rfl
  have reported : main (fun _ => 0) (fun _ _ => ⟨0, 0⟩) ⟨4, 20, 0, 20⟩ true
      pairBuffer = .ok (.errors [pairReport]) := by
    decide +kernel
  have ends : ∀ report ∈ [pairReport], LineEnds pairBuffer report.startPos := by
    intro report member
    rw [List.mem_singleton.mp member]
    exact .inr ⟨6, by decide, by decide⟩
  exact ⟨_, lexed, reported, (main_printErrors_iff
    (by unfold FitsString; decide) (by decide) lexed reported).mpr
    ⟨ends, rfl⟩, by decide +kernel⟩

end Millie.Pipeline
