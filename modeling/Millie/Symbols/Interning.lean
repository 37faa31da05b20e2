import Millie.Symbols.Ring

/-!
# Interning is a bijection

Every table that `FindOrCreateSymbol` builds holds, for the list of distinct
keys in order of first occurrence, exactly one entry a key, numbered from one.
The invariant survives insertion and growth, lookup decides membership, and
a whole sequence of calls therefore returns each key's number.
-/

namespace Millie.Symbols

open RobinHood

section Operations

variable {table : SymbolTable} {bits : Nat}

/-- The ring part of the invariant: sizes, live hashes and the order. -/
structure Ring (table : SymbolTable) (bits : Nat) : Prop where
  sized : Sized table bits
  live : AllLive table bits
  ordered : Ordered (2 ^ bits) (home (2 ^ bits)) (slots table)

/-- The entries of a table whose capacity is `2 ^ bits`. -/
abbrev stored (table : SymbolTable) (bits : Nat) : Multiset Stored :=
  contents (2 ^ bits) (slots table)

theorem Ring.housed (ring : Ring table bits) :
    Housed (2 ^ bits) (home (2 ^ bits)) (slots table) :=
  fun _ _ entry _ => home_lt ring.sized entry

theorem mem_stored {hash : UInt32} {entry : SymbolEntry} :
    (hash, entry) ∈ stored table bits ↔
      ∃ i < 2 ^ bits, table.hashes i ≠ 0 ∧
        table.hashes i = hash ∧ table.entries i = entry := by
  simp only [stored, mem_contents, slots]
  constructor
  · rintro ⟨i, inside, equal⟩
    by_cases empty : table.hashes i = 0
    · simp [empty] at equal
    · simp only [empty, if_false, Option.some.injEq, Prod.mk.injEq] at equal
      exact ⟨i, inside, empty, equal⟩
  · rintro ⟨i, inside, occupied, equal⟩
    exact ⟨i, inside, by rw [if_neg occupied, equal.1, equal.2]⟩

/-- `_InsertHelper` adds exactly its entry to a table that has room. -/
theorem insertHelper_spec {fuel : Nat} {hash : UInt32}
    (entry : SymbolEntry) (ring : Ring table bits) (hashLive : Live hash)
    (room : (stored table bits).card < 2 ^ bits)
    (enough : 2 ^ bits ≤ fuel) :
    ∃ after, insertHelper fuel table hash entry = .ok after ∧
      Ring after bits ∧ SameHeader table after ∧
      stored after bits = (hash, entry) ::ₘ stored table bits := by
  rcases exists_free room with ⟨free, freeLt, isFree⟩
  have startEq := desiredPosition_toNat ring.sized hash entry
  have startLt := home_lt ring.sized (hash, entry)
  have bound := ring.sized.le
  have near := distance_lt startLt freeLt
  rcases insertFrom_spec ring.ordered ring.housed startLt startLt freeLt
      isFree (fun away => by simp at away) near with
    ⟨result, run, ordered, -, added⟩
  rw [distance_self, ← startEq] at run
  rcases insertLoop_refines ring.sized ring.live hashLive
      (by rw [startEq]; exact startLt)
      (show (0 : UInt32).toNat + 2 ^ bits < 2 ^ 32 by
        rw [UInt32.toNat_zero]; omega) run with
    ⟨after, ran, afterSlots, afterLive, header⟩
  subst afterSlots
  refine ⟨after, insertLoop_mono enough ran, ⟨?_, afterLive, ordered⟩,
    header, added⟩
  rcases header with ⟨capacity, -, -, mask⟩
  exact ⟨ring.sized.small, by rw [capacity, ring.sized.capacity],
    by rw [mask, ring.sized.mask]⟩

/-- `_Find` returns the value of an entry with the key's hash and key. -/
theorem findLoop_spec {fuel : Nat} (hash : UInt32) (key : ByteString)
    (ring : Ring table bits)
    (keyed : ∀ entry ∈ stored table bits, entry.2.key ≠ none)
    (room : (stored table bits).card < 2 ^ bits)
    (enough : 2 ^ bits ≤ fuel) :
    (∃ entry ∈ stored table bits, entry.1 = hash ∧
        entry.2.key = some key ∧
        findLoop table hash key fuel (desiredPosition table hash) 0 =
          .ok entry.2.value) ∨
      ((∀ entry ∈ stored table bits,
          entry.1 = hash → entry.2.key ≠ some key) ∧
        findLoop table hash key fuel (desiredPosition table hash) 0 =
          .ok invalidSymbol) := by
  rcases exists_free room with ⟨free, freeLt, isFree⟩
  have startEq := desiredPosition_toNat ring.sized hash ⟨none, 0⟩
  have startLt := home_lt ring.sized (hash, ⟨none, 0⟩)
  have bound := ring.sized.le
  have accepts : ∀ entry : Stored,
      (hash == entry.1 && entry.2.key == some key) = true →
        home (2 ^ bits) entry = home (2 ^ bits) (hash, ⟨none, 0⟩) := by
    intro entry accepted
    simp only [Bool.and_eq_true, beq_iff_eq] at accepted
    simp [home, accepted.1]
  rcases findFrom_spec ring.ordered ring.housed accepts startLt freeLt
      isFree le_rfl with ⟨result, run, found, missed⟩
  rw [← startEq] at run
  have ran := findLoop_refines ring.sized
    (fun i inside occupied => keyed (table.hashes i, table.entries i)
      (mem_stored.mpr ⟨i, inside, occupied, rfl, rfl⟩))
    (by rw [startEq]; exact startLt)
    (show (0 : UInt32).toNat + 2 ^ bits < 2 ^ 32 by
      rw [UInt32.toNat_zero]; omega)
    run
  have ran := findLoop_mono enough ran
  cases result with
  | some entry =>
      have accepted := found entry rfl
      simp only [Bool.and_eq_true, beq_iff_eq] at accepted
      exact Or.inl ⟨entry, accepted.2, accepted.1.1.symm, accepted.1.2, ran⟩
  | none =>
      refine Or.inr ⟨fun entry member sameHash sameKey => ?_, ran⟩
      have rejected := missed rfl entry member
      simp [sameHash, sameKey] at rejected

theorem allocate_ring (small : bits ≤ 31)
    (capacity : table.capacity.toNat = 2 ^ bits) :
    Ring (allocate table) bits := by
  have bound : 2 ^ bits ≤ 2 ^ 31 := Nat.pow_le_pow_right (by decide) small
  have positive : 0 < 2 ^ bits := Nat.two_pow_pos bits
  refine ⟨⟨small, capacity, ?_⟩, fun i _ occupied => ?_,
    fun slot _ entry filled => ?_⟩
  · have one : (1 : UInt32) ≤ table.capacity := by
      rw [UInt32.le_iff_toNat_le, UInt32.toNat_one, capacity]
      exact positive
    simp only [allocate]
    rw [UInt32.toNat_sub_of_le _ _ one, capacity, UInt32.toNat_one]
  · simp [allocate] at occupied
  · simp [slots, allocate] at filled

@[simp]
theorem stored_allocate : stored (allocate table) bits = 0 := by
  simp [stored, contents, slots, allocate]

theorem SameHeader.trans {first second third : SymbolTable}
    (left : SameHeader first second) (right : SameHeader second third) :
    SameHeader first third := by
  rcases left with ⟨l1, l2, l3, l4⟩
  rcases right with ⟨r1, r2, r3, r4⟩
  exact ⟨r1.trans l1, r2.trans l2, r3.trans l3, r4.trans l4⟩

/-- Reinserting one old slot extends the contents by that slot's entry. -/
theorem growStep_spec {fuel count : Nat} {grown : SymbolTable}
    (ring : Ring table bits) (inside : count < 2 ^ bits)
    (grownRing : Ring grown (bits + 1))
    (content : stored grown (bits + 1) = contents count (slots table))
    (room : (stored table bits).card < 2 ^ (bits + 1))
    (enough : 2 ^ (bits + 1) ≤ fuel) :
    ∃ after, growStep fuel table grown count = .ok after ∧
      Ring after (bits + 1) ∧ SameHeader grown after ∧
      stored after (bits + 1) = contents (count + 1) (slots table) := by
  have split : contents (count + 1) (slots table) =
      contents count (slots table) +
        ((slots table count).toList : Multiset Stored) := by
    simp [contents, Finset.sum_range_succ]
  by_cases empty : table.hashes count = 0
  · refine ⟨grown, by simp [growStep, empty], grownRing,
      ⟨rfl, rfl, rfl, rfl⟩, ?_⟩
    rw [content, split]
    simp [slots, empty]
  · have live := ring.live count inside empty
    have part : contents (count + 1) (slots table) ≤ stored table bits :=
      Finset.sum_le_sum_of_subset_of_nonneg
        (Finset.range_subset_range.mpr inside) (by simp)
    have filled : contents (count + 1) (slots table) =
        (table.hashes count, table.entries count) ::ₘ
          contents count (slots table) := by
      rw [split]
      simp [slots, empty, ← Multiset.singleton_add, add_comm]
    have fewer := Multiset.card_le_card part
    rw [filled, Multiset.card_cons, ← content] at fewer
    rcases insertHelper_spec (table.entries count) grownRing live
        (show (stored grown (bits + 1)).card < 2 ^ (bits + 1) by omega)
        enough with
      ⟨after, inserted, afterRing, header, added⟩
    exact ⟨after, by simp [growStep, live.nonempty, live.undeleted, inserted],
      afterRing, header, by rw [added, content, filled]⟩

/-- Growing moves every entry to a ring of twice the capacity. -/
theorem grow_spec {fuel : Nat} (ring : Ring table bits) (small : bits ≤ 30)
    (room : (stored table bits).card < 2 ^ (bits + 1))
    (enough : 2 ^ (bits + 1) ≤ fuel) :
    ∃ after, grow fuel table = .ok after ∧ Ring after (bits + 1) ∧
      stored after (bits + 1) = stored table bits ∧
      SameHeader (allocate { table with capacity := table.capacity * 2 })
        after := by
  have doubled : (table.capacity * 2).toNat = 2 ^ (bits + 1) := by
    have bound : 2 ^ bits ≤ 2 ^ 30 :=
      Nat.pow_le_pow_right (by decide) small
    have two : (2 : UInt32).toNat = 2 := rfl
    rw [UInt32.toNat_mul, ring.sized.capacity, two,
      Nat.mod_eq_of_lt (by omega), Nat.pow_succ]
  -- After `count` rounds the entries of the first `count` slots have moved.
  have moved : ∀ count ≤ 2 ^ bits, ∃ after,
      (List.range count).foldlM (growStep fuel table)
          (allocate { table with capacity := table.capacity * 2 }) =
          .ok after ∧
        Ring after (bits + 1) ∧
        stored after (bits + 1) = contents count (slots table) ∧
        SameHeader (allocate { table with capacity := table.capacity * 2 })
          after := by
    intro count
    induction count with
    | zero =>
        intro _
        exact ⟨_, rfl, allocate_ring (by omega) doubled,
          by simp [contents], rfl, rfl, rfl, rfl⟩
    | succ count ih =>
        intro inside
        rcases ih (by omega) with ⟨before, ran, beforeRing, content, header⟩
        rcases growStep_spec ring (by omega) beforeRing content room enough
          with ⟨after, stepped, afterRing, afterHeader, afterContent⟩
        refine ⟨after, ?_, afterRing, afterContent,
          header.trans afterHeader⟩
        rw [List.range_succ, List.foldlM_append, ran]
        simp [stepped]
  rcases moved (2 ^ bits) le_rfl with ⟨after, ran, rest⟩
  refine ⟨after, ?_, rest⟩
  rw [grow, ring.sized.capacity]
  exact ran

end Operations

/-! ## Numbering keys by first occurrence -/

/-- Remember a key that has not been seen. -/
def remember (seen : List ByteString) (key : ByteString) :
    List ByteString :=
  if key ∈ seen then seen else seen ++ [key]

/-- The distinct keys of a sequence, in order of first occurrence. -/
def firstOccurrences (keys : List ByteString) : List ByteString :=
  keys.foldl remember []

/-- The number a key has among the keys seen, counting from one. -/
def number (seen : List ByteString) (key : ByteString) : Nat :=
  seen.idxOf key + 1

theorem mem_remember {seen : List ByteString} {key other : ByteString} :
    other ∈ remember seen key ↔ other ∈ seen ∨ other = key := by
  unfold remember
  split
  · rename_i known
    constructor
    · exact Or.inl
    · rintro (old | rfl)
      · exact old
      · exact known
  · simp

theorem remember_nodup {seen : List ByteString} (distinct : seen.Nodup)
    (key : ByteString) : (remember seen key).Nodup := by
  unfold remember
  split
  · exact distinct
  · rename_i fresh
    refine List.nodup_append.mpr ⟨distinct, by simp, ?_⟩
    rintro other old _ (equal : _ ∈ [key]) rfl
    exact fresh (by simpa [List.mem_singleton.mp equal] using old)

theorem number_remember {seen : List ByteString} {other : ByteString}
    (old : other ∈ seen) (key : ByteString) :
    number (remember seen key) other = number seen other := by
  unfold remember number
  split
  · rfl
  · rw [List.idxOf_append_of_mem old]

theorem length_remember (seen : List ByteString) (key : ByteString) :
    seen.length ≤ (remember seen key).length := by
  unfold remember
  split <;> simp

theorem length_foldl_remember (seen keys : List ByteString) :
    seen.length ≤ (keys.foldl remember seen).length := by
  induction keys generalizing seen with
  | nil => rfl
  | cons key keys ih => exact (length_remember seen key).trans (ih _)

theorem number_foldl_remember {seen : List ByteString}
    {other : ByteString} (old : other ∈ seen) (keys : List ByteString) :
    number (keys.foldl remember seen) other = number seen other := by
  induction keys generalizing seen with
  | nil => rfl
  | cons key keys ih =>
      rw [List.foldl_cons, ih (mem_remember.mpr (Or.inl old)),
        number_remember old]

theorem mem_foldl_remember {seen keys : List ByteString}
    {other : ByteString} :
    other ∈ keys.foldl remember seen ↔ other ∈ seen ∨ other ∈ keys := by
  induction keys generalizing seen with
  | nil => simp
  | cons key keys ih => simp [ih, mem_remember, or_assoc]

/-- Distinct known keys have distinct numbers. -/
theorem number_injective {seen : List ByteString} {left right : ByteString}
    (leftKnown : left ∈ seen) (equal : number seen left = number seen right) :
    left = right :=
  (List.idxOf_inj leftKnown).mp (Nat.succ.inj equal)

theorem number_le {seen : List ByteString} {key : ByteString}
    (known : key ∈ seen) : number seen key ≤ seen.length :=
  List.idxOf_lt_length_of_mem known

section Interning

variable (hash32 : ByteString → UInt32)

/-- The entry that stands for a key and its number. -/
def numberedEntry (key : ByteString) (count : Nat) : Stored :=
  (hashString hash32 key, ⟨some key, UInt32.ofNat count⟩)

/-- The entries of a table that has seen the given keys. -/
def numbered (seen : List ByteString) : Multiset Stored :=
  (seen.map fun key => numberedEntry hash32 key (number seen key) :
    List Stored)

/--
The table invariant after interning the keys `seen`: a ring of `2 ^ bits`
slots, below its load threshold, holding one numbered entry a key.
-/
structure Interned (table : SymbolTable) (bits : Nat)
    (seen : List ByteString) : Prop where
  ring : Ring table bits
  lower : 8 ≤ bits
  upper : bits ≤ 25
  threshold : table.resizeThreshold.toNat = 2 ^ bits * 90 / 100
  count : table.itemCount.toNat = seen.length
  room : seen.length < 2 ^ bits * 90 / 100
  content : stored table bits = numbered hash32 seen
  distinct : seen.Nodup

variable {hash32} {table : SymbolTable} {bits : Nat}
  {seen : List ByteString}

theorem hashString_live (hash32 : ByteString → UInt32)
    (key : ByteString) : Live (hashString hash32 key) := by
  have clear (word : UInt32) : isDeleted (word &&& 0x7FFFFFFF) = false := by
    have masked : word &&& 0x7FFFFFFF &&& 0x80000000 = 0 := by
      rw [UInt32.and_assoc]
      exact UInt32.and_zero
    simp [isDeleted, masked]
  unfold hashString
  by_cases zero : hash32 key &&& 0x7FFFFFFF = 0
  · simp only [zero, if_true]
    exact ⟨by decide, by decide⟩
  · simp only [zero, if_false]
    exact ⟨zero, clear _⟩

theorem mem_numbered {entry : Stored} :
    entry ∈ numbered hash32 seen ↔
      ∃ key ∈ seen, numberedEntry hash32 key (number seen key) = entry := by
  simp [numbered]

@[simp]
theorem card_numbered : (numbered hash32 seen).card = seen.length := by
  simp [numbered]

theorem numbered_remember {key : ByteString} (fresh : key ∉ seen) :
    numbered hash32 (remember seen key) =
      numberedEntry hash32 key (seen.length + 1) ::ₘ
        numbered hash32 seen := by
  have old : ∀ other ∈ seen,
      numberedEntry hash32 other (number (remember seen key) other) =
        numberedEntry hash32 other (number seen other) := by
    intro other known
    rw [number_remember known]
  have last : number (remember seen key) key = seen.length + 1 := by
    simp [number, remember, fresh, List.idxOf_append_of_notMem fresh]
  have listed :
      (remember seen key).map (fun other =>
        numberedEntry hash32 other (number (remember seen key) other)) =
      seen.map (fun other =>
        numberedEntry hash32 other (number seen other)) ++
        [numberedEntry hash32 key (seen.length + 1)] := by
    rw [← List.map_congr_left old, ← last, remember, if_neg fresh]
    simp
  unfold numbered
  rw [listed, Multiset.cons_coe, Multiset.coe_eq_coe]
  exact List.perm_append_singleton _ _

theorem symbolTableCreate_interned (hash32 : ByteString → UInt32) :
    Interned hash32 symbolTableCreate 8 [] where
  ring := allocate_ring (by decide) (by decide)
  lower := le_rfl
  upper := by decide
  threshold := by decide
  count := rfl
  room := by decide
  content := stored_allocate
  distinct := List.nodup_nil

/-- The largest load the 32-bit threshold arithmetic is exact for. -/
theorem Interned.load_le (interned : Interned hash32 table bits seen) :
    seen.length < 2 ^ bits := by
  have room := interned.room
  omega

theorem Interned.find {fuel : Nat} {key : ByteString}
    (interned : Interned hash32 table bits seen) (enough : 2 ^ 25 ≤ fuel) :
    find hash32 fuel table key =
      .ok (if key ∈ seen then UInt32.ofNat (number seen key)
        else invalidSymbol) := by
  have keyed : ∀ entry ∈ stored table bits, entry.2.key ≠ none := by
    rw [interned.content]
    intro entry member
    rcases mem_numbered.mp member with ⟨other, -, rfl⟩
    simp [numberedEntry]
  have size : 2 ^ bits ≤ 2 ^ 25 :=
    Nat.pow_le_pow_right (by decide) interned.upper
  have load := interned.load_le
  have search := findLoop_spec (hashString hash32 key) key
    interned.ring keyed
    (by rw [interned.content, card_numbered]; exact load) (size.trans enough)
  rw [interned.content] at search
  rcases search with ⟨entry, member, -, sameKey, ran⟩ | ⟨missing, ran⟩
  · rcases mem_numbered.mp member with ⟨other, known, rfl⟩
    obtain rfl : other = key := by simpa [numberedEntry] using sameKey
    simpa [Symbols.find, known, numberedEntry] using ran
  · have unknown : key ∉ seen := fun known =>
      missing _ (mem_numbered.mpr ⟨key, known, rfl⟩) rfl rfl
    simpa [Symbols.find, unknown] using ran

/-- Growth happens exactly when the new key reaches the threshold. -/
theorem Interned.makeRoom {fuel : Nat}
    (interned : Interned hash32 table bits seen)
    (few : seen.length + 1 < 30198988) (enough : 2 ^ 25 ≤ fuel) :
    ∃ roomy size,
      (if table.itemCount + 1 ≥ table.resizeThreshold then
          grow fuel { table with itemCount := table.itemCount + 1 }
        else .ok { table with itemCount := table.itemCount + 1 }) =
        .ok roomy ∧
      Ring roomy size ∧ 8 ≤ size ∧ size ≤ 25 ∧
      roomy.resizeThreshold.toNat = 2 ^ size * 90 / 100 ∧
      roomy.itemCount = table.itemCount + 1 ∧
      seen.length + 1 < 2 ^ size * 90 / 100 ∧
      stored roomy size = numbered hash32 seen := by
  have size : 2 ^ bits ≤ 2 ^ 25 :=
    Nat.pow_le_pow_right (by decide) interned.upper
  have atLeast : 2 ^ 8 ≤ 2 ^ bits :=
    Nat.pow_le_pow_right (by decide) interned.lower
  have room := interned.room
  have lower := interned.lower
  have countEq : (table.itemCount + 1).toNat = seen.length + 1 := by
    rw [UInt32.toNat_add, interned.count, UInt32.toNat_one]
    omega
  have counted : Ring { table with itemCount := table.itemCount + 1 } bits :=
    ⟨⟨interned.ring.sized.small, interned.ring.sized.capacity,
      interned.ring.sized.mask⟩, interned.ring.live, interned.ring.ordered⟩
  have content :
      stored { table with itemCount := table.itemCount + 1 } bits =
        numbered hash32 seen := interned.content
  by_cases full : table.itemCount + 1 ≥ table.resizeThreshold
  · have reached : 2 ^ bits * 90 / 100 ≤ seen.length + 1 := by
      rw [← interned.threshold, ← countEq]
      exact UInt32.le_iff_toNat_le.mp full
    have smaller : bits < 25 := by
      by_contra large
      obtain rfl : bits = 25 := by
        have := interned.upper
        omega
      omega
    have doubled : 2 ^ (bits + 1) ≤ 2 ^ 25 :=
      Nat.pow_le_pow_right (by decide) (by omega)
    have twice : 2 ^ (bits + 1) = 2 * 2 ^ bits := by
      rw [Nat.pow_succ, Nat.mul_comm]
    rcases grow_spec counted (by omega)
        (by rw [content, card_numbered]; omega) (doubled.trans enough) with
      ⟨roomy, grown, roomyRing, roomyContent, header⟩
    rcases header with ⟨capacity, items, threshold, -⟩
    refine ⟨roomy, bits + 1, by rw [if_pos full, grown], roomyRing,
      by omega, by omega, ?_, items, by omega,
      roomyContent.trans content⟩
    have capacityEq := roomyRing.sized.capacity
    rw [capacity] at capacityEq
    have ninety : (90 : UInt32).toNat = 90 := rfl
    have hundred : (100 : UInt32).toNat = 100 := rfl
    rw [threshold]
    simp only [allocate] at capacityEq ⊢
    rw [UInt32.toNat_div, UInt32.toNat_mul, capacityEq, ninety, hundred,
      Nat.mod_eq_of_lt (by omega)]
  · refine ⟨_, bits, by rw [if_neg full], counted, interned.lower,
      interned.upper, interned.threshold, rfl, ?_, content⟩
    have below : (table.itemCount + 1).toNat <
        table.resizeThreshold.toNat := by
      simpa [UInt32.lt_iff_toNat_lt] using full
    rw [interned.threshold, countEq] at below
    exact below

/-- One call returns the key's number and remembers the key. -/
theorem Interned.findOrCreateSymbol {fuel : Nat}
    (interned : Interned hash32 table bits seen) (key : ByteString)
    (few : (remember seen key).length < 30198988)
    (enough : 2 ^ 25 ≤ fuel) :
    ∃ after size,
      findOrCreateSymbol hash32 fuel table key =
        .ok (UInt32.ofNat (number (remember seen key) key), after) ∧
      Interned hash32 after size (remember seen key) := by
  have load := interned.load_le
  have size : 2 ^ bits ≤ 2 ^ 25 :=
    Nat.pow_le_pow_right (by decide) interned.upper
  by_cases known : key ∈ seen
  · have same : remember seen key = seen := by simp [remember, known]
    have positive : UInt32.ofNat (number seen key) ≠ invalidSymbol := by
      have le := number_le known
      intro zero
      have zeroNat := congrArg UInt32.toNat zero
      rw [UInt32.toNat_ofNat_of_lt' (by
        have : UInt32.size = 2 ^ 32 := rfl
        omega)] at zeroNat
      simp [number, invalidSymbol] at zeroNat
    refine ⟨table, bits, ?_, by rwa [same]⟩
    rw [same, Symbols.findOrCreateSymbol, interned.find enough]
    simp [known, positive]
    rfl
  · have lengthEq : (remember seen key).length = seen.length + 1 := by
      simp [remember, known]
    have numberEq : number (remember seen key) key = seen.length + 1 := by
      simp [number, remember, known, List.idxOf_append_of_notMem known]
    rcases interned.makeRoom (by omega) enough with
      ⟨roomy, wide, made, roomyRing, lower, upper, threshold, items, room,
        content⟩
    have wideLe : 2 ^ wide ≤ 2 ^ 25 :=
      Nat.pow_le_pow_right (by decide) upper
    have sumEq : table.itemCount + 1 = UInt32.ofNat (seen.length + 1) := by
      apply UInt32.toNat_inj.mp
      rw [UInt32.toNat_add, interned.count, UInt32.toNat_one,
        UInt32.toNat_ofNat']
    rcases insertHelper_spec ⟨some key, table.itemCount + 1⟩ roomyRing
        (hashString_live hash32 key)
        (by rw [content, card_numbered]; omega) (wideLe.trans enough) with
      ⟨after, inserted, afterRing, header, added⟩
    rcases header with ⟨-, itemsAfter, thresholdAfter, -⟩
    refine ⟨after, wide, ?_, ⟨afterRing, lower, upper, ?_, ?_, ?_, ?_,
      remember_nodup interned.distinct key⟩⟩
    · rw [Symbols.findOrCreateSymbol, interned.find enough]
      simp only [known, if_false, Stop.ok_bind, ne_eq, not_true_eq_false,
        numberEq]
      rw [made]
      rw [Stop.ok_bind, inserted, Stop.ok_bind, sumEq]
      rfl
    · rw [thresholdAfter, threshold]
    · rw [itemsAfter, items, UInt32.toNat_add, interned.count, lengthEq,
        UInt32.toNat_one]
      omega
    · rw [lengthEq]
      exact room
    · rw [added, content, numbered_remember known, numberedEntry, sumEq]

/-- A sequence of calls returns each key's number. -/
theorem Interned.findOrCreateSymbols {fuel : Nat}
    (interned : Interned hash32 table bits seen) (keys : List ByteString)
    (few : (keys.foldl remember seen).length < 30198988)
    (enough : 2 ^ 25 ≤ fuel) :
    ∃ after size,
      findOrCreateSymbols hash32 fuel table keys =
        .ok (keys.map fun key =>
          UInt32.ofNat (number (keys.foldl remember seen) key), after) ∧
      Interned hash32 after size (keys.foldl remember seen) := by
  induction keys generalizing table bits seen with
  | nil => exact ⟨table, bits, rfl, interned⟩
  | cons key keys ih =>
      have grows := length_foldl_remember (remember seen key) keys
      rcases interned.findOrCreateSymbol key
          (lt_of_le_of_lt grows few) enough with
        ⟨middle, size, first, middleInterned⟩
      rcases ih middleInterned few with ⟨after, size', rest, afterInterned⟩
      refine ⟨after, size', ?_, afterInterned⟩
      have known : key ∈ remember seen key := mem_remember.mpr (Or.inr rfl)
      have kept := number_foldl_remember known keys
      rw [Symbols.findOrCreateSymbols, first]
      simp only [Stop.ok_bind, rest, List.foldl_cons, List.map_cons, kept]
      rfl

theorem Interned.toNat_number {key : ByteString}
    (interned : Interned hash32 table bits seen) (known : key ∈ seen) :
    (UInt32.ofNat (number seen key)).toNat = number seen key := by
  have load := interned.load_le
  have size : 2 ^ bits ≤ 2 ^ 25 :=
    Nat.pow_le_pow_right (by decide) interned.upper
  have le := number_le known
  rw [UInt32.toNat_ofNat', Nat.mod_eq_of_lt (by omega)]

/-- `FindSymbolKey` is the inverse of the numbering. -/
theorem Interned.symbolKey (interned : Interned hash32 table bits seen)
    (symbol : Symbol) :
    (∀ key ∈ seen, UInt32.ofNat (number seen key) = symbol →
        findSymbolKey table symbol = some key) ∧
      ((∀ key ∈ seen, UInt32.ofNat (number seen key) ≠ symbol) →
        findSymbolKey table symbol = none) := by
  -- Each live slot holds a seen key under its number.
  have holds : ∀ i < 2 ^ bits, table.hashes i ≠ 0 →
      ∃ key ∈ seen, table.entries i =
        ⟨some key, UInt32.ofNat (number seen key)⟩ := by
    intro i inside occupied
    have member : (table.hashes i, table.entries i) ∈ stored table bits :=
      mem_stored.mpr ⟨i, inside, occupied, rfl, rfl⟩
    rw [interned.content] at member
    rcases mem_numbered.mp member with ⟨key, known, equal⟩
    exact ⟨key, known, (Prod.ext_iff.mp equal).2.symm⟩
  have sound : ∀ key, findSymbolKey table symbol = some key →
      key ∈ seen ∧ UInt32.ofNat (number seen key) = symbol := by
    intro key found
    rcases List.exists_of_findSome?_eq_some found with ⟨i, inRange, equal⟩
    rw [interned.ring.sized.capacity, List.mem_range] at inRange
    split_ifs at equal with empty same
    rcases holds i inRange (fun zero => empty (Or.inl zero)) with
      ⟨other, known, entry⟩
    rw [entry] at equal same
    obtain rfl := Option.some.inj equal
    exact ⟨known, same⟩
  constructor
  · intro key known equal
    have member : numberedEntry hash32 key (number seen key) ∈
        stored table bits := by
      rw [interned.content]
      exact mem_numbered.mpr ⟨key, known, rfl⟩
    rcases mem_stored.mp member with ⟨i, inside, occupied, -, entry⟩
    cases result : Symbols.findSymbolKey table symbol with
    | none =>
        have missed := List.findSome?_eq_none_iff.mp result i
          (by rw [interned.ring.sized.capacity]
              exact List.mem_range.mpr inside)
        have live := interned.ring.live i inside occupied
        simp [occupied, live.undeleted, entry, equal] at missed
    | some other =>
        rcases sound other result with ⟨otherKnown, otherEqual⟩
        have sameNumber : number seen other = number seen key := by
          rw [← interned.toNat_number otherKnown, otherEqual, ← equal,
            interned.toNat_number known]
        rw [number_injective otherKnown sameNumber]
  · intro unused
    cases result : Symbols.findSymbolKey table symbol with
    | none => rfl
    | some other =>
        rcases sound other result with ⟨known, equal⟩
        exact (unused other known equal).elim

/--
Interning is a bijection.  On a fresh table every sequence of calls
terminates; the symbols are the numbers from one, in order of first
occurrence; two calls return the same symbol exactly when their keys are
equal; and afterwards `FindSymbolKey` returns the key of every symbol handed
out and null for every other one.
-/
theorem findOrCreateSymbols_bijective (hash32 : ByteString → UInt32)
    (keys : List ByteString)
    (few : (firstOccurrences keys).length < 30198988)
    (fuel : Nat) (enough : 2 ^ 25 ≤ fuel) :
    ∃ symbols table,
      findOrCreateSymbols hash32 fuel symbolTableCreate keys =
          .ok (symbols, table) ∧
      symbols.map UInt32.toNat =
        keys.map (number (firstOccurrences keys)) ∧
      (∀ (i j : Nat) (hi : i < symbols.length) (hj : j < symbols.length)
          (hi' : i < keys.length) (hj' : j < keys.length),
        symbols[i] = symbols[j] ↔ keys[i] = keys[j]) ∧
      invalidSymbol ∉ symbols ∧
      (∀ (i : Nat) (hi : i < symbols.length) (hi' : i < keys.length),
        findSymbolKey table symbols[i] = some keys[i]) ∧
      (∀ symbol ∉ symbols, findSymbolKey table symbol = none) := by
  rcases (symbolTableCreate_interned hash32).findOrCreateSymbols
      keys few enough with ⟨table, bits, ran, interned⟩
  change Interned hash32 table bits (firstOccurrences keys) at interned
  have all : ∀ key, key ∈ firstOccurrences keys ↔ key ∈ keys := by
    intro key
    simp [firstOccurrences, mem_foldl_remember]
  have known : ∀ (i : Nat) (hi : i < keys.length),
      keys[i] ∈ firstOccurrences keys :=
    fun i hi => (all _).mpr (List.getElem_mem hi)
  refine ⟨_, table, ran, ?_, ?_, ?_, ?_, ?_⟩
  · rw [List.map_map]
    refine List.map_congr_left fun key member => ?_
    exact interned.toNat_number ((all key).mpr member)
  · intro i j hi hj hi' hj'
    simp only [List.getElem_map]
    constructor
    · intro equal
      have numbers := congrArg UInt32.toNat equal
      change (UInt32.ofNat (number (firstOccurrences keys) keys[i])).toNat =
        (UInt32.ofNat (number (firstOccurrences keys) keys[j])).toNat
        at numbers
      rw [interned.toNat_number (known i hi'),
        interned.toNat_number (known j hj')] at numbers
      exact number_injective (known i hi') numbers
    · intro equal
      rw [equal]
  · intro member
    rcases List.mem_map.mp member with ⟨key, keyMem, zero⟩
    have positive := interned.toNat_number ((all key).mpr keyMem)
    change UInt32.ofNat (number (firstOccurrences keys) key) = 0 at zero
    rw [zero] at positive
    simp [number] at positive
  · intro i hi hi'
    refine (interned.symbolKey _).1 keys[i] (known i hi') ?_
    rw [List.getElem_map]
    rfl
  · intro symbol unused
    refine (interned.symbolKey symbol).2 fun key member equal => unused ?_
    exact List.mem_map.mpr ⟨key, (all key).mp member, equal⟩

/-- Two keys, one of them twice, under a hash that makes them collide. -/
theorem findOrCreateSymbols_colliding :
    ∃ symbols table,
      findOrCreateSymbols (fun _ => 0) (2 ^ 25) symbolTableCreate
          [[120], [121], [120]] = .ok (symbols, table) ∧
        symbols.map UInt32.toNat = [1, 2, 1] := by
  rcases findOrCreateSymbols_bijective (fun _ => 0) [[120], [121], [120]]
      (by decide) (2 ^ 25) le_rfl with ⟨symbols, table, ran, numbers, -⟩
  exact ⟨symbols, table, ran, numbers.trans (by decide)⟩

end Interning

end Millie.Symbols
