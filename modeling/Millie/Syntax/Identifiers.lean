import Millie.Symbols.Interning
import Millie.Syntax.Productions

/-!
# The symbols of a token array

The symbol table after a number of tokens has interned the texts of the
identifiers among them, in order.  A symbol is never zero while the table counts
fewer than `2 ^ 32` of them; and from a fresh table it is the number of the
identifier's text among the distinct texts before it.
-/

namespace Millie.Symbols

/-! ## Counting symbols -/

section

variable {table after : SymbolTable} {fuel : Nat}

theorem insertLoop_itemCount {hash : UInt32} {entry : SymbolEntry}
    {pos dist : UInt32}
    (inserted : insertLoop fuel table hash entry pos dist = .ok after) :
    after.itemCount = table.itemCount := by
  induction fuel generalizing table hash entry pos dist with
  | zero => cases inserted
  | succ fuel ih =>
      rw [insertLoop] at inserted
      dsimp only at inserted
      split_ifs at inserted
      · cases inserted
        rfl
      · cases inserted
        rfl
      · exact (ih inserted).trans rfl
      · exact ih inserted

theorem grow_itemCount (grown : grow fuel table = .ok after) :
    after.itemCount = table.itemCount := by
  have steps : ∀ (slots : List Nat) (from_ : SymbolTable),
      slots.foldlM (growStep fuel table) from_ = .ok after →
        after.itemCount = from_.itemCount := by
    intro slots
    induction slots with
    | nil =>
        intro from_ same
        cases same
        rfl
    | cons slot slots ih =>
        intro from_ runs
        rw [List.foldlM_cons] at runs
        rcases Stop.bind_eq_ok_iff.mp runs with ⟨next, step, later⟩
        rw [ih next later]
        rw [growStep] at step
        split_ifs at step
        · exact insertLoop_itemCount step
        · cases step
          rfl
  rw [grow] at grown
  exact (steps _ _ grown).trans rfl

/-- A symbol is an old one, or the new count. -/
theorem findOrCreateSymbol_counts {hash32 : ByteString → UInt32}
    {key : ByteString} {symbol : Symbol}
    (returns : findOrCreateSymbol hash32 fuel table key = .ok (symbol, after)) :
    (symbol ≠ invalidSymbol ∧ after.itemCount = table.itemCount) ∨
      (symbol = table.itemCount + 1 ∧
        after.itemCount = table.itemCount + 1) := by
  rw [findOrCreateSymbol] at returns
  rcases Stop.bind_eq_ok_iff.mp returns with ⟨found, finds, rest⟩
  by_cases new : found = invalidSymbol
  · rw [if_neg (not_not.mpr new)] at rest
    rcases Stop.bind_eq_ok_iff.mp rest with ⟨roomy, grows, inserts⟩
    rcases Stop.bind_eq_ok_iff.mp inserts with ⟨last, inserted, same⟩
    cases same
    refine .inr ⟨rfl, ?_⟩
    rw [insertLoop_itemCount inserted]
    split_ifs at grows
    · exact grow_itemCount grows
    · cases grows
      rfl
  · rw [if_pos new] at rest
    cases rest
    exact .inl ⟨new, rfl⟩

end

end Millie.Symbols

namespace Millie.Syntax

open Millie.Symbols

/-! ## The table at an index -/

section

variable {source : MillieTokens} {intern : Intern} {start : ParseContext}
  {i j : Nat} {token : MillieToken} {table : SymbolTable}

/-- The table before a token that has been passed. -/
theorem tableAt_before (after : start.pos ≤ i)
    (at_ : source.tokenArray[i]? = some token)
    (later : tableAt source intern start (i + 1) = .ok table) :
    ∃ before, tableAt source intern start i = .ok before ∧
      internToken source intern before token = .ok table := by
  rw [tableAt_step after at_] at later
  cases before : tableAt source intern start i with
  | ok earlier =>
      rw [before] at later
      exact ⟨earlier, rfl, later⟩
  | error stop =>
      rw [before] at later
      cases later

/-- What stops the interning stops it for good. -/
theorem tableAt_stopped {stop : ParseStop} (after : start.pos ≤ i) (le : i ≤ j)
    (stopped : tableAt source intern start i = .error stop) :
    tableAt source intern start j = .error stop := by
  induction j, le using Nat.le_induction with
  | base => exact stopped
  | succ j le ih =>
      cases at_ : source.tokenArray[j]? with
      | some token =>
          rw [tableAt_step (Nat.le_trans after le) at_, ih]
          rfl
      | none =>
          rw [tableAt_outside (List.getElem?_eq_none_iff.mp at_)]
          exact ih

theorem tableAt_earlier (after : start.pos ≤ i) (le : i ≤ j)
    (later : tableAt source intern start j = .ok table) :
    ∃ before, tableAt source intern start i = .ok before := by
  cases earlier : tableAt source intern start i with
  | ok before => exact ⟨before, rfl⟩
  | error stop =>
      rw [tableAt_stopped after le earlier] at later
      cases later

/-- The symbol of an identifier that has been passed. -/
theorem symbolAt_passed (after : start.pos ≤ i)
    (at_ : source.tokenArray[i]? = some token) (isId : token.type = .tokId)
    (later : tableAt source intern start (i + 1) = .ok table) :
    ∃ before, tableAt source intern start i = .ok before ∧
      internText source intern before token =
        .ok (symbolAt source intern start i, table) := by
  rcases tableAt_before after at_ later with ⟨before, same, passed⟩
  refine ⟨before, same, ?_⟩
  rw [internToken, if_pos isId] at passed
  cases interned : internText source intern before token with
  | ok result =>
      rw [interned] at passed
      cases passed
      simp only [symbolAt, at_, same, interned]
  | error stop =>
      rw [interned] at passed
      cases passed

end

/-! ## Symbols are not zero -/

section

variable {source : MillieTokens} {hash32 : ByteString → UInt32}
  {symbolFuel : Nat} {start : ParseContext} {i : Nat} {token : MillieToken}
  {table after : SymbolTable} {symbol : Symbol}

theorem internText_counts
    (returns : internText source (findOrCreateSymbol hash32 symbolFuel) table
      token = .ok (symbol, after)) :
    (symbol ≠ invalidSymbol ∧ after.itemCount = table.itemCount) ∨
      (symbol = table.itemCount + 1 ∧
        after.itemCount = table.itemCount + 1) := by
  cases text : tokenText source token with
  | error stop =>
      rw [internText_outside text] at returns
      cases returns
  | ok value =>
      rw [internText_text text] at returns
      split at returns
      · rename_i result interned
        cases returns
        exact findOrCreateSymbol_counts interned
      · cases returns

theorem tableAt_count (zero : start.pos = 0)
    (few : start.table.itemCount.toNat + i < 2 ^ 32)
    (passed : tableAt source (findOrCreateSymbol hash32 symbolFuel) start i =
      .ok table) :
    table.itemCount.toNat ≤ start.table.itemCount.toNat + i := by
  induction i generalizing table with
  | zero =>
      rw [← zero, tableAt_start] at passed
      cases passed
      exact Nat.le_refl _
  | succ i ih =>
      cases at_ : source.tokenArray[i]? with
      | none =>
          rw [tableAt_outside (List.getElem?_eq_none_iff.mp at_)] at passed
          exact Nat.le_succ_of_le (ih (by omega) passed)
      | some token =>
          rcases tableAt_before (by omega) at_ passed with
            ⟨before, same, interned⟩
          have count := ih (by omega) same
          rw [internToken] at interned
          split at interned
          · cases run : internText source
                (findOrCreateSymbol hash32 symbolFuel) before token with
            | error stop =>
                rw [run] at interned
                cases interned
            | ok result =>
                rw [run] at interned
                cases interned
                rcases internText_counts run with ⟨-, kept⟩ | ⟨-, grown⟩
                · rw [kept]
                  omega
                · rw [grown, UInt32.toNat_add, UInt32.toNat_one]
                  omega
          · cases interned
            omega

/-- Every identifier that has been passed has a symbol. -/
theorem symbolAt_ne_invalid (zero : start.pos = 0)
    (few : start.table.itemCount.toNat + (i + 1) < 2 ^ 32)
    (has : source.Has i .tokId)
    (passed : tableAt source (findOrCreateSymbol hash32 symbolFuel) start
      (i + 1) = .ok table) :
    symbolAt source (findOrCreateSymbol hash32 symbolFuel) start i ≠
      invalidSymbol := by
  rcases has with ⟨token, at_, isId⟩
  rcases symbolAt_passed (by omega) at_ isId passed with
    ⟨before, same, interned⟩
  have count := tableAt_count zero (by omega) same
  rcases internText_counts interned with ⟨valid, -⟩ | ⟨new, -⟩
  · exact valid
  · intro invalid
    rw [invalid] at new
    have counted := congrArg UInt32.toNat new
    rw [UInt32.toNat_add, UInt32.toNat_one] at counted
    simp only [invalidSymbol, UInt32.toNat_zero] at counted
    omega

end

/-! ## Symbols as numbers -/

/-- The characters of a token. -/
def MillieTokens.text (source : MillieTokens) (token : MillieToken) :
    ByteString :=
  (source.buffer.drop token.start).take token.length

/-- The texts of the identifiers among some tokens. -/
def identifierTexts (source : MillieTokens) (tokens : List MillieToken) :
    List ByteString :=
  (tokens.filter (·.type == .tokId)).map source.text

/-- The distinct identifiers of a token array. -/
def identifiers (source : MillieTokens) : List ByteString :=
  firstOccurrences (identifierTexts source source.tokenArray)

/-- Every token is a part of the buffer. -/
def TextsInside (source : MillieTokens) : Prop :=
  ∀ token ∈ source.tokenArray,
    token.start + token.length ≤ source.buffer.length

instance (source : MillieTokens) : Decidable (TextsInside source) :=
  inferInstanceAs (Decidable (∀ token ∈ source.tokenArray,
    token.start + token.length ≤ source.buffer.length))

section

variable {source : MillieTokens} {hash32 : ByteString → UInt32}
  {symbolFuel bits i : Nat} {table : SymbolTable} {seen : List ByteString}
  {token : MillieToken}

theorem tokenText_inside (texts : TextsInside source)
    (member : token ∈ source.tokenArray) :
    tokenText source token = .ok (source.text token) :=
  if_pos (texts token member)

theorem internText_interned (texts : TextsInside source)
    (member : token ∈ source.tokenArray)
    (interned : Interned hash32 table bits seen)
    (few : (remember seen (source.text token)).length < 30198988)
    (enough : 2 ^ 25 ≤ symbolFuel) :
    ∃ after size,
      internText source (findOrCreateSymbol hash32 symbolFuel) table token =
        .ok (UInt32.ofNat (number (remember seen (source.text token))
          (source.text token)), after) ∧
      Interned hash32 after size (remember seen (source.text token)) := by
  rcases interned.findOrCreateSymbol (source.text token) few enough with
    ⟨after, size, returns, remembered⟩
  refine ⟨after, size, ?_, remembered⟩
  rw [internText_text (tokenText_inside texts member), returns]

theorem identifierTexts_cons (source : MillieTokens) (token : MillieToken)
    (tokens : List MillieToken) :
    identifierTexts source (token :: tokens) =
      (if token.type = .tokId then [source.text token] else []) ++
        identifierTexts source tokens := by
  by_cases isId : token.type = .tokId
  · simp [identifierTexts, isId]
  · simp [identifierTexts, isId]

theorem identifierTexts_append (tokens others : List MillieToken) :
    identifierTexts source (tokens ++ others) =
      identifierTexts source tokens ++ identifierTexts source others := by
  simp [identifierTexts]

theorem internTokens_interned (texts : TextsInside source)
    {tokens : List MillieToken} (members : tokens ⊆ source.tokenArray)
    (interned : Interned hash32 table bits seen)
    (few : ((identifierTexts source tokens).foldl remember seen).length <
      30198988)
    (enough : 2 ^ 25 ≤ symbolFuel) :
    ∃ after size,
      tokens.foldlM
        (internToken source (findOrCreateSymbol hash32 symbolFuel)) table =
          .ok after ∧
      Interned hash32 after size
        ((identifierTexts source tokens).foldl remember seen) := by
  induction tokens generalizing table bits seen with
  | nil => exact ⟨table, bits, rfl, interned⟩
  | cons token tokens ih =>
      rcases List.cons_subset.mp members with ⟨member, rest⟩
      rw [identifierTexts_cons] at few ⊢
      by_cases isId : token.type = .tokId
      · rw [if_pos isId, List.singleton_append, List.foldl_cons] at few ⊢
        have first := Nat.lt_of_le_of_lt (length_foldl_remember _ _) few
        rcases internText_interned texts member interned first enough with
          ⟨after, size, returns, remembered⟩
        rcases ih rest remembered few with ⟨last, wide, runs, final⟩
        refine ⟨last, wide, ?_, final⟩
        rw [List.foldlM_cons, internToken, if_pos isId, returns]
        exact runs
      · rw [if_neg isId, List.nil_append] at few ⊢
        rcases ih rest interned few with ⟨last, wide, runs, final⟩
        refine ⟨last, wide, ?_, final⟩
        rw [List.foldlM_cons, internToken, if_neg isId]
        exact runs

/-- A table with what a token array has before an index. -/
theorem tableAt_interned (hash32 : ByteString → UInt32)
    (texts : TextsInside source)
    (few : (identifiers source).length < 30198988)
    (enough : 2 ^ 25 ≤ symbolFuel) (errors : List ErrorReport) (i : Nat) :
    ∃ table bits,
      tableAt source (findOrCreateSymbol hash32 symbolFuel)
        ⟨symbolTableCreate, errors, 0, 0⟩ i = .ok table ∧
      Interned hash32 table bits (firstOccurrences
        (identifierTexts source (source.tokenArray.take i))) := by
  have all : identifierTexts source source.tokenArray =
      identifierTexts source (source.tokenArray.take i) ++
        identifierTexts source (source.tokenArray.drop i) := by
    rw [← identifierTexts_append, List.take_append_drop]
  have fewer : ((identifierTexts source (source.tokenArray.take i)).foldl
      remember []).length < 30198988 := by
    rw [identifiers, firstOccurrences, all, List.foldl_append] at few
    exact Nat.lt_of_le_of_lt (length_foldl_remember _ _) few
  exact internTokens_interned texts (List.take_subset _ _)
    (symbolTableCreate_interned hash32) fewer enough

/-- The symbol of an identifier is its number among the distinct ones. -/
theorem symbolAt_number (texts : TextsInside source)
    (few : (identifiers source).length < 30198988)
    (enough : 2 ^ 25 ≤ symbolFuel) (errors : List ErrorReport)
    (at_ : source.tokenArray[i]? = some token) (isId : token.type = .tokId) :
    symbolAt source (findOrCreateSymbol hash32 symbolFuel)
        ⟨symbolTableCreate, errors, 0, 0⟩ i =
      UInt32.ofNat (number (identifiers source) (source.text token)) := by
  rcases tableAt_interned hash32 texts few enough errors i with
    ⟨table, bits, same, interned⟩
  have split : identifierTexts source source.tokenArray =
      identifierTexts source (source.tokenArray.take i) ++
        (source.text token ::
          identifierTexts source (source.tokenArray.drop (i + 1))) := by
    have inside := (List.getElem?_eq_some_iff.mp at_).1
    have cons : source.tokenArray.drop i =
        token :: source.tokenArray.drop (i + 1) := by
      rw [List.drop_eq_getElem_cons inside]
      rw [(List.getElem?_eq_some_iff.mp at_).2]
    have first := identifierTexts_cons source token
      (source.tokenArray.drop (i + 1))
    rw [if_pos isId, List.singleton_append] at first
    rw [← first, ← cons, ← identifierTexts_append, List.take_append_drop]
  have numbers : identifiers source =
      (identifierTexts source (source.tokenArray.drop (i + 1))).foldl remember
        (remember (firstOccurrences
          (identifierTexts source (source.tokenArray.take i)))
          (source.text token)) := by
    rw [identifiers, firstOccurrences, split, List.foldl_append,
      List.foldl_cons]
    rfl
  have fewer := Nat.lt_of_le_of_lt (length_foldl_remember _ _)
    (numbers ▸ few)
  rcases internText_interned texts (List.mem_of_getElem? at_) interned fewer
    enough with ⟨after, size, returns, -⟩
  have known : source.text token ∈ remember (firstOccurrences
      (identifierTexts source (source.tokenArray.take i)))
      (source.text token) :=
    mem_remember.mpr (.inr rfl)
  simp only [symbolAt, at_, same, returns]
  rw [numbers, number_foldl_remember known]

end

end Millie.Syntax
