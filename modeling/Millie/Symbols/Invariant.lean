import Millie.Symbols.Interning
import Mathlib.Algebra.BigOperators.Group.Finset.Piecewise

/-!
# The invariant of the symbol table

The Robin Hood invariant in the program's own words: the capacity is a power
of two, occupied slots carry live hashes, a slot is empty, and an entry away
from its desired position follows an entry that is at most one step closer to
its own.  It is the ring's order of `RobinHood` together with a count, so the
table's operations keep it for every pattern of collisions.
-/

namespace Millie.Symbols

open RobinHood

/-- The slot before `slot`, modulo the capacity. -/
def previous (bits slot : Nat) : Nat :=
  (slot + 2 ^ bits - 1) % 2 ^ bits

/-- `_ProbeDistance` of the entry stored in a slot. -/
def slotDistance (table : SymbolTable) (slot : Nat) : Nat :=
  (probeDistance table (table.hashes slot) (UInt32.ofNat slot)).toNat

/-- The empty slots of a table of `2 ^ bits` slots. -/
def emptySlots (table : SymbolTable) (bits : Nat) : Finset Nat :=
  (Finset.range (2 ^ bits)).filter fun slot => table.hashes slot = 0

/-- The Robin Hood invariant of a table of `2 ^ bits` slots. -/
structure Invariant (table : SymbolTable) (bits : Nat) : Prop where
  capacity : table.capacity.toNat = 2 ^ bits
  mask : table.mask.toNat = 2 ^ bits - 1
  live : ∀ slot < 2 ^ bits, table.hashes slot ≠ 0 →
    isDeleted (table.hashes slot) = false
  keyed : ∀ slot < 2 ^ bits, table.hashes slot ≠ 0 →
    (table.entries slot).key ≠ none
  room : (emptySlots table bits).Nonempty
  preceded : ∀ slot < 2 ^ bits, table.hashes slot ≠ 0 →
    0 < slotDistance table slot →
      table.hashes (previous bits slot) ≠ 0 ∧
        slotDistance table slot - 1 ≤
          slotDistance table (previous bits slot)

section Ring

variable {table : SymbolTable} {bits : Nat}

/-- Every slot is empty or holds one entry. -/
theorem card_emptySlots (table : SymbolTable) (bits : Nat) :
    (emptySlots table bits).card + (stored table bits).card = 2 ^ bits := by
  have filled : ∀ slot,
      ((slots table slot).toList : Multiset Stored).card =
        if table.hashes slot = 0 then 0 else 1 := by
    intro slot
    by_cases empty : table.hashes slot = 0 <;> simp [slots, empty]
  have count : (stored table bits).card =
      ((Finset.range (2 ^ bits)).filter fun slot =>
        ¬ table.hashes slot = 0).card := by
    simp only [contents, Multiset.card_sum, filled]
    rw [Finset.card_filter]
    exact Finset.sum_congr rfl fun slot _ => by
      by_cases empty : table.hashes slot = 0 <;> simp [empty]
  rw [count]
  simpa [emptySlots] using
    Finset.card_filter_add_card_filter_not (s := Finset.range (2 ^ bits))
      fun slot => table.hashes slot = 0

theorem previous_lt (bits slot : Nat) : previous bits slot < 2 ^ bits :=
  Nat.mod_lt _ (Nat.two_pow_pos bits)

theorem next_previous {slot : Nat} (inside : slot < 2 ^ bits) :
    next (2 ^ bits) (previous bits slot) = slot := by
  unfold next previous
  by_cases first : slot = 0
  · subst first
    have last : (0 + 2 ^ bits - 1) % 2 ^ bits = 2 ^ bits - 1 :=
      (Nat.mod_eq_of_lt (by omega)).trans (by omega)
    rw [last]
    split <;> omega
  · have before : (slot + 2 ^ bits - 1) % 2 ^ bits = slot - 1 := by
      have shift : slot + 2 ^ bits - 1 = slot - 1 + 2 ^ bits := by omega
      rw [shift, Nat.add_mod_right, Nat.mod_eq_of_lt (by omega)]
    rw [before]
    split <;> omega

theorem previous_next {slot : Nat} (inside : slot < 2 ^ bits) :
    previous bits (next (2 ^ bits) slot) = slot :=
  next_injective (previous_lt bits _) inside
    (next_previous (next_lt (Nat.two_pow_pos bits)))

/-- The masked probe distance is the ring distance from home. -/
theorem slotDistance_eq (sized : Sized table bits) {slot : Nat}
    (inside : slot < 2 ^ bits) :
    slotDistance table slot =
      distance (2 ^ bits)
        (home (2 ^ bits) (table.hashes slot, table.entries slot)) slot := by
  have bound := sized.le
  have position : (UInt32.ofNat slot).toNat = slot :=
    UInt32.toNat_ofNat_of_lt' (by rw [UInt32.size]; omega)
  have within : (UInt32.ofNat slot).toNat < 2 ^ bits := by rwa [position]
  have measured := probeDistance_toNat sized (table.hashes slot)
    (table.entries slot) within
  rwa [position] at measured

theorem slots_eq_some {slot : Nat} {entry : Stored} :
    slots table slot = some entry ↔
      table.hashes slot ≠ 0 ∧
        entry = (table.hashes slot, table.entries slot) := by
  by_cases empty : table.hashes slot = 0 <;> simp [slots, empty, eq_comm]

/-- The order of the ring is the order of the invariant. -/
theorem ordered_iff (sized : Sized table bits) :
    Ordered (2 ^ bits) (home (2 ^ bits)) (slots table) ↔
      ∀ slot < 2 ^ bits, table.hashes slot ≠ 0 →
        0 < slotDistance table slot →
          table.hashes (previous bits slot) ≠ 0 ∧
            slotDistance table slot - 1 ≤
              slotDistance table (previous bits slot) := by
  constructor
  · intro ordered slot inside occupied away
    have before := previous_lt bits slot
    rw [slotDistance_eq sized inside] at away ⊢
    rw [slotDistance_eq sized before]
    have filled : slots table (next (2 ^ bits) (previous bits slot)) =
        some (table.hashes slot, table.entries slot) := by
      rw [next_previous inside]
      exact slots_eq_some.mpr ⟨occupied, rfl⟩
    rcases ordered _ before _ filled (by rwa [next_previous inside]) with
      ⟨entry, found, near⟩
    rw [next_previous inside] at near
    rcases slots_eq_some.mp found with ⟨present, rfl⟩
    exact ⟨present, by omega⟩
  · intro preceded slot inside entry filled away
    have nextLt : next (2 ^ bits) slot < 2 ^ bits :=
      next_lt (Nat.two_pow_pos bits)
    rcases slots_eq_some.mp filled with ⟨occupied, rfl⟩
    have follows := preceded _ nextLt occupied
      (by rwa [slotDistance_eq sized nextLt])
    rw [previous_next inside, slotDistance_eq sized nextLt,
      slotDistance_eq sized inside] at follows
    exact ⟨_, slots_eq_some.mpr ⟨follows.1, rfl⟩, by omega⟩

/-- The invariant is a ring of live, keyed entries with a slot to spare. -/
theorem invariant_iff (small : bits ≤ 31) :
    Invariant table bits ↔
      Ring table bits ∧ (stored table bits).card < 2 ^ bits ∧
        ∀ entry ∈ stored table bits, entry.2.key ≠ none := by
  have count := card_emptySlots table bits
  constructor
  · intro valid
    have sized : Sized table bits := ⟨small, valid.capacity, valid.mask⟩
    refine ⟨⟨sized, fun slot inside occupied =>
        ⟨occupied, valid.live slot inside occupied⟩,
      (ordered_iff sized).mpr valid.preceded⟩, ?_, ?_⟩
    · have room := Finset.card_pos.mpr valid.room
      omega
    · rintro ⟨hash, entry⟩ member
      rcases mem_stored.mp member with ⟨slot, inside, occupied, -, rfl⟩
      exact valid.keyed slot inside occupied
  · rintro ⟨ring, room, keyed⟩
    exact
      { capacity := ring.sized.capacity
        mask := ring.sized.mask
        live := fun slot inside occupied =>
          (ring.live slot inside occupied).undeleted
        keyed := fun slot inside occupied =>
          keyed (table.hashes slot, table.entries slot)
            (mem_stored.mpr ⟨slot, inside, occupied, rfl, rfl⟩)
        room := Finset.card_pos.mp (by omega)
        preceded := (ordered_iff ring.sized).mp ring.ordered }

/-- Every table that `FindOrCreateSymbol` builds keeps the invariant. -/
theorem Interned.invariant {hash32 : ByteString → UInt32}
    {seen : List ByteString} (interned : Interned hash32 table bits seen) :
    Invariant table bits := by
  have load := interned.load_le
  refine (invariant_iff interned.ring.sized.small).mpr
    ⟨interned.ring, ?_, ?_⟩
  · rwa [interned.content, card_numbered]
  · rw [interned.content]
    intro entry member
    rcases mem_numbered.mp member with ⟨key, -, rfl⟩
    simp [numberedEntry]

end Ring

section Operations

variable {table : SymbolTable} {bits fuel : Nat}

/-- `_InsertHelper` needs two empty slots to leave one. -/
theorem Invariant.insertHelper (valid : Invariant table bits)
    (small : bits ≤ 31) {hash : UInt32} (hashLive : Live hash)
    (key : ByteString) (value : Symbol)
    (two : 2 ≤ (emptySlots table bits).card)
    (enough : 2 ^ bits ≤ fuel) :
    ∃ after, insertHelper fuel table hash ⟨some key, value⟩ = .ok after ∧
      Invariant after bits ∧
      stored after bits = (hash, ⟨some key, value⟩) ::ₘ stored table bits := by
  have count := card_emptySlots table bits
  rcases (invariant_iff small).mp valid with ⟨ring, room, keyed⟩
  rcases insertHelper_spec ⟨some key, value⟩ ring hashLive room enough with
    ⟨after, run, afterRing, -, added⟩
  refine ⟨after, run, (invariant_iff small).mpr ⟨afterRing, ?_, ?_⟩, added⟩
  · rw [added, Multiset.card_cons]
    omega
  · intro entry member
    rw [added, Multiset.mem_cons] at member
    rcases member with rfl | old
    · simp
    · exact keyed entry old

/-- `_Grow` moves the entries to twice the slots. -/
theorem Invariant.grow (valid : Invariant table bits) (small : bits ≤ 30)
    (enough : 2 ^ (bits + 1) ≤ fuel) :
    ∃ after, grow fuel table = .ok after ∧ Invariant after (bits + 1) ∧
      stored after (bits + 1) = stored table bits := by
  have small' : bits ≤ 31 := by omega
  have double : 2 ^ (bits + 1) = 2 ^ bits * 2 := Nat.pow_succ 2 bits
  rcases (invariant_iff small').mp valid with ⟨ring, room, keyed⟩
  rcases grow_spec ring small (by omega) enough with
    ⟨after, run, afterRing, kept, -⟩
  refine ⟨after, run, (invariant_iff (by omega)).mpr ⟨afterRing, ?_, ?_⟩,
    kept⟩
  · rw [kept]
    omega
  · rwa [kept]

/-- `_Find` decides whether the key is stored under its hash. -/
theorem Invariant.find (hash32 : ByteString → UInt32)
    (valid : Invariant table bits) (small : bits ≤ 31) (key : ByteString)
    (enough : 2 ^ bits ≤ fuel) :
    (∃ entry ∈ stored table bits, entry.1 = hashString hash32 key ∧
        entry.2.key = some key ∧
        find hash32 fuel table key = .ok entry.2.value) ∨
      ((∀ entry ∈ stored table bits, entry.1 = hashString hash32 key →
          entry.2.key ≠ some key) ∧
        find hash32 fuel table key = .ok invalidSymbol) := by
  rcases (invariant_iff small).mp valid with ⟨ring, room, keyed⟩
  exact findLoop_spec (hashString hash32 key) key ring keyed room enough

/--
The table's three operations on any table with the invariant: insertion and
growth end, keep the invariant and lose no entry, and lookup never stops
before the key it looks for.
-/
theorem symbolTable_invariant (hash32 : ByteString → UInt32)
    (small : bits ≤ 30) (valid : Invariant table bits) :
    (∀ (fuel : Nat) (hash : UInt32) (key : ByteString) (value : Symbol),
      hash ≠ 0 → isDeleted hash = false →
      2 ≤ (emptySlots table bits).card → 2 ^ bits ≤ fuel →
        ∃ after,
          insertHelper fuel table hash ⟨some key, value⟩ = .ok after ∧
          Invariant after bits ∧
          stored after bits =
            (hash, ⟨some key, value⟩) ::ₘ stored table bits) ∧
    (∀ fuel : Nat, 2 ^ (bits + 1) ≤ fuel →
      ∃ after, grow fuel table = .ok after ∧
        Invariant after (bits + 1) ∧
        stored after (bits + 1) = stored table bits) ∧
    (∀ (fuel : Nat) (key : ByteString), 2 ^ bits ≤ fuel →
      (∃ entry ∈ stored table bits, entry.1 = hashString hash32 key ∧
          entry.2.key = some key ∧
          find hash32 fuel table key = .ok entry.2.value) ∨
        ((∀ entry ∈ stored table bits, entry.1 = hashString hash32 key →
            entry.2.key ≠ some key) ∧
          find hash32 fuel table key = .ok invalidSymbol)) := by
  have small' : bits ≤ 31 := by omega
  refine ⟨fun fuel hash key value nonempty undeleted two enough => ?_,
    fun fuel enough => ?_, fun fuel key enough => ?_⟩
  · exact valid.insertHelper small' ⟨nonempty, undeleted⟩ key value two
      enough
  · exact valid.grow small enough
  · exact valid.find hash32 small' key enough

/-- Four slots, two entries that want the last one: the second wraps. -/
def wrappedTable : SymbolTable where
  hashes slot := if slot = 3 then 3 else if slot = 0 then 7 else 0
  entries slot :=
    if slot = 3 then ⟨some [97], 1⟩
    else if slot = 0 then ⟨some [98], 2⟩
    else ⟨none, 0⟩
  capacity := 4
  itemCount := 2
  resizeThreshold := 3
  mask := 3

theorem wrappedTable_invariant : Invariant wrappedTable 2 where
  capacity := rfl
  mask := rfl
  live := by decide
  keyed := by decide
  room := ⟨1, by decide⟩
  preceded := by decide

theorem symbolTable_invariant_wrapped :
    (∃ after,
      insertHelper 4 wrappedTable 11 ⟨some [99], 3⟩ = .ok after ∧
        Invariant after 2 ∧
        stored after 2 = (11, ⟨some [99], 3⟩) ::ₘ stored wrappedTable 2) ∧
      (∃ after, grow 8 wrappedTable = .ok after ∧ Invariant after 3 ∧
        stored after 3 = stored wrappedTable 2) ∧
      ∃ entry ∈ stored wrappedTable 2, entry.1 = 7 ∧
        entry.2.key = some [98] ∧
        find (fun _ => 7) 4 wrappedTable [98] = .ok entry.2.value := by
  rcases symbolTable_invariant (fun _ => 7) (by decide)
      wrappedTable_invariant with ⟨insertion, growth, lookup⟩
  refine ⟨insertion 4 11 [99] 3 (by decide) (by decide) (by decide)
    (by decide), growth 8 (by decide), ?_⟩
  rcases lookup 4 [98] (by decide) with found | ⟨absent, -⟩
  · exact found
  · have member : ((7, ⟨some [98], 2⟩) : Stored) ∈ stored wrappedTable 2 :=
      mem_stored.mpr ⟨0, by decide, by decide, rfl, rfl⟩
    exact absurd rfl (absent _ member rfl)

end Operations

end Millie.Symbols
