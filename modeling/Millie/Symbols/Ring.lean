import Millie.Symbols.Table
import Millie.Foundation.RobinHood

/-!
# The symbol table is a Robin Hood ring

The masked 32-bit position arithmetic of the symbol table is the ring
arithmetic of `RobinHood` at the table's capacity, and its two loops are the
ring's insertion and lookup, step for step and with the same fuel.
-/

namespace Millie.Symbols

open RobinHood

/-- A stored hash together with its entry. -/
abbrev Stored := UInt32 × SymbolEntry

/-- The table's occupied slots; hash zero is the empty mark. -/
def slots (table : SymbolTable) : Slots Stored := fun i =>
  if table.hashes i = 0 then none
  else some (table.hashes i, table.entries i)

/-- The home slot of a stored entry in a ring of `size` slots. -/
def home (size : Nat) (stored : Stored) : Nat :=
  stored.1.toNat % size

/-- The capacity is the power of two that the mask belongs to. -/
structure Sized (table : SymbolTable) (bits : Nat) : Prop where
  small : bits ≤ 31
  capacity : table.capacity.toNat = 2 ^ bits
  mask : table.mask.toNat = 2 ^ bits - 1

/-- A hash that marks neither an empty nor a deleted slot. -/
structure Live (hash : UInt32) : Prop where
  nonempty : hash ≠ 0
  undeleted : isDeleted hash = false

/-- Every occupied slot is live. -/
def AllLive (table : SymbolTable) (bits : Nat) : Prop :=
  ∀ i < 2 ^ bits, table.hashes i ≠ 0 → Live (table.hashes i)

variable {table : SymbolTable} {bits : Nat}

theorem Sized.pos (_ : Sized table bits) : 0 < 2 ^ bits :=
  Nat.two_pow_pos bits

theorem Sized.le (sized : Sized table bits) : 2 ^ bits ≤ 2 ^ 31 :=
  Nat.pow_le_pow_right (by decide) sized.small

theorem home_lt (sized : Sized table bits) (stored : Stored) :
    home (2 ^ bits) stored < 2 ^ bits :=
  Nat.mod_lt _ sized.pos

theorem Sized.and_mask (sized : Sized table bits) (word : UInt32) :
    (word &&& table.mask).toNat = word.toNat % 2 ^ bits := by
  rw [UInt32.toNat_and, sized.mask, Nat.and_two_pow_sub_one_eq_mod]

theorem desiredPosition_toNat (sized : Sized table bits) (hash : UInt32)
    (entry : SymbolEntry) :
    (desiredPosition table hash).toNat = home (2 ^ bits) (hash, entry) :=
  sized.and_mask hash

theorem next_toNat (sized : Sized table bits) {pos : UInt32}
    (posLt : pos.toNat < 2 ^ bits) :
    ((pos + 1) &&& table.mask).toNat = next (2 ^ bits) pos.toNat := by
  have bound := sized.le
  rw [sized.and_mask, UInt32.toNat_add]
  have small : pos.toNat + (1 : UInt32).toNat < 2 ^ 32 := by
    simp only [UInt32.toNat_one]
    omega
  rw [Nat.mod_eq_of_lt small, UInt32.toNat_one]
  unfold next
  split
  · rename_i inside
    exact Nat.mod_eq_of_lt inside
  · have wrapped : pos.toNat + 1 = 2 ^ bits := by omega
    rw [wrapped, Nat.mod_self]

theorem probeDistance_toNat (sized : Sized table bits) (hash : UInt32)
    (entry : SymbolEntry) {pos : UInt32} (posLt : pos.toNat < 2 ^ bits) :
    (probeDistance table hash pos).toNat =
      distance (2 ^ bits) (home (2 ^ bits) (hash, entry)) pos.toNat := by
  have bound := sized.le
  have homeLt := home_lt sized (hash, entry)
  have homeEq := desiredPosition_toNat sized hash entry
  unfold probeDistance
  rw [sized.and_mask, UInt32.toNat_sub, UInt32.toNat_add, sized.capacity,
    homeEq]
  generalize home (2 ^ bits) (hash, entry) = start at homeLt
  have unwrapped :
      (2 ^ 32 - start + (pos.toNat + 2 ^ bits) % 2 ^ 32) % 2 ^ 32 =
        pos.toNat + 2 ^ bits - start := by
    omega
  rw [unwrapped]
  unfold distance
  split
  · rename_i after
    have split : pos.toNat + 2 ^ bits - start =
        pos.toNat - start + 2 ^ bits := by omega
    rw [split, Nat.add_mod_right, Nat.mod_eq_of_lt (by omega)]
  · exact Nat.mod_eq_of_lt (by omega)

theorem slots_setElement {hash : UInt32} (nonempty : hash ≠ 0)
    (pos : UInt32) (entry : SymbolEntry) :
    slots (setElement table pos hash entry) =
      Function.update (slots table) pos.toNat (some (hash, entry)) := by
  funext i
  by_cases same : i = pos.toNat
  · subst same
    simp [slots, setElement, nonempty]
  · simp [slots, setElement, Function.update_of_ne same]

theorem Sized.setElement (sized : Sized table bits) (pos hash : UInt32)
    (entry : SymbolEntry) :
    Sized (setElement table pos hash entry) bits :=
  ⟨sized.small, sized.capacity, sized.mask⟩

theorem AllLive.setElement (live : AllLive table bits) {hash : UInt32}
    (hashLive : Live hash) (pos : UInt32) (entry : SymbolEntry) :
    AllLive (setElement table pos hash entry) bits := by
  intro i inside occupied
  by_cases same : i = pos.toNat
  · subst same
    simpa [Symbols.setElement] using hashLive
  · simp only [Symbols.setElement, Function.update_of_ne same] at occupied ⊢
    exact live i inside occupied

/-- What insertion leaves alone: every field but the two arrays. -/
def SameHeader (before after : SymbolTable) : Prop :=
  after.capacity = before.capacity ∧ after.itemCount = before.itemCount ∧
    after.resizeThreshold = before.resizeThreshold ∧
    after.mask = before.mask

/-- The insertion loop runs as the ring's insertion does. -/
theorem insertLoop_refines {fuel : Nat} {hash pos dist : UInt32}
    {entry : SymbolEntry} {result : Slots Stored}
    (sized : Sized table bits) (live : AllLive table bits)
    (hashLive : Live hash) (posLt : pos.toNat < 2 ^ bits)
    (range : dist.toNat + fuel < 2 ^ 32)
    (run : insertFrom (2 ^ bits) (home (2 ^ bits)) fuel (slots table)
      (hash, entry) pos.toNat dist.toNat = some result) :
    ∃ after, insertLoop fuel table hash entry pos dist = .ok after ∧
      slots after = result ∧ AllLive after bits ∧ SameHeader table after := by
  induction fuel generalizing table hash entry pos dist with
  | zero => simp [insertFrom] at run
  | succ fuel ih =>
      rw [insertFrom] at run
      rw [insertLoop]
      by_cases empty : table.hashes pos.toNat = 0
      · simp only [slots, empty, if_true, Option.some.injEq] at run
        refine ⟨setElement table pos hash entry, by simp [empty], ?_,
          live.setElement hashLive pos entry, rfl, rfl, rfl, rfl⟩
        rw [slots_setElement hashLive.nonempty, ← run]
      · have stored : slots table pos.toNat =
            some (table.hashes pos.toNat, table.entries pos.toNat) := by
          simp [slots, empty]
        have presentLive := live pos.toNat posLt empty
        have distEq := probeDistance_toNat sized
          (table.hashes pos.toNat) (table.entries pos.toNat) posLt
        have nextEq := next_toNat sized posLt
        have nextLt : next (2 ^ bits) pos.toNat < 2 ^ bits :=
          next_lt sized.pos
        simp only [stored, ← distEq, ← UInt32.lt_iff_toNat_lt] at run
        simp only [empty, if_false, presentLive.undeleted,
          Bool.false_eq_true]
        by_cases richer :
            probeDistance table (table.hashes pos.toNat) pos < dist
        · have less := UInt32.lt_iff_toNat_lt.mp richer
          have stepEq :
              (probeDistance table (table.hashes pos.toNat) pos + 1).toNat =
                (probeDistance table (table.hashes pos.toNat) pos).toNat
                  + 1 := by
            rw [UInt32.toNat_add, UInt32.toNat_one]
            omega
          simp only [richer, if_true, ← nextEq, ← stepEq,
            ← slots_setElement hashLive.nonempty] at run ⊢
          have after := ih (sized.setElement pos hash entry)
            (live.setElement hashLive pos entry) presentLive
            (by rw [nextEq]; exact nextLt) (by omega) run
          exact after
        · have stepEq : (dist + 1).toNat = dist.toNat + 1 := by
            rw [UInt32.toNat_add, UInt32.toNat_one]
            omega
          simp only [richer, if_false, ← nextEq, ← stepEq] at run ⊢
          exact ih sized live hashLive (by rw [nextEq]; exact nextLt)
            (by omega) run

/-- The lookup loop runs as the ring's lookup does. -/
theorem findLoop_refines {fuel : Nat} {hash pos dist : UInt32}
    {key : ByteString} {result : Option Stored}
    (sized : Sized table bits)
    (keyed : ∀ i < 2 ^ bits,
      table.hashes i ≠ 0 → (table.entries i).key ≠ none)
    (posLt : pos.toNat < 2 ^ bits) (range : dist.toNat + fuel < 2 ^ 32)
    (run : findFrom (2 ^ bits) (home (2 ^ bits))
      (fun stored => hash == stored.1 && stored.2.key == some key)
      fuel (slots table) pos.toNat dist.toNat = some result) :
    findLoop table hash key fuel pos dist =
      .ok (result.elim invalidSymbol fun stored => stored.2.value) := by
  induction fuel generalizing pos dist with
  | zero => simp [findFrom] at run
  | succ fuel ih =>
      rw [findFrom] at run
      rw [findLoop]
      by_cases empty : table.hashes pos.toNat = 0
      · simp only [slots, empty, if_true, Option.some.injEq] at run
        subst run
        simp [empty]
      · have stored : slots table pos.toNat =
            some (table.hashes pos.toNat, table.entries pos.toNat) := by
          simp [slots, empty]
        have distEq := probeDistance_toNat sized
          (table.hashes pos.toNat) (table.entries pos.toNat) posLt
        have nextEq := next_toNat sized posLt
        have nextLt : next (2 ^ bits) pos.toNat < 2 ^ bits :=
          next_lt sized.pos
        have stepEq : (dist + 1).toNat = dist.toNat + 1 := by
          rw [UInt32.toNat_add, UInt32.toNat_one]
          omega
        simp only [stored, ← distEq, ← UInt32.lt_iff_toNat_lt] at run
        simp only [empty, if_false, gt_iff_lt]
        by_cases closer :
            probeDistance table (table.hashes pos.toNat) pos < dist
        · simp only [closer, if_true, Option.some.injEq] at run ⊢
          subst run
          rfl
        · simp only [closer, if_false, ← nextEq, ← stepEq] at run ⊢
          have further := ih (by rw [nextEq]; exact nextLt)
            (show (dist + 1).toNat + fuel < 2 ^ 32 by omega)
          rcases Option.ne_none_iff_exists'.mp (keyed _ posLt empty) with
            ⟨existing, existingEq⟩
          simp only [existingEq]
          by_cases sameHash : hash = table.hashes pos.toNat
          · by_cases sameKey : key = existing
            · simp only [sameHash, existingEq, sameKey, BEq.rfl,
                Bool.and_self, if_true, Option.some.injEq] at run
              subst run
              simp [sameHash, sameKey]
            · have differ : (existing == key) = false := by
                simpa using fun equal => sameKey equal.symm
              simp only [existingEq, Option.some_beq_some, differ,
                Bool.and_false, Bool.false_eq_true, if_false] at run
              simpa [← sameHash, sameKey] using further run
          · have differ : (hash == table.hashes pos.toNat) = false := by
              simpa using sameHash
            simp only [differ, Bool.false_and, Bool.false_eq_true,
              if_false] at run
            simpa [sameHash] using further run

/-- More fuel does not change a finished insertion. -/
theorem insertLoop_mono {fuel more : Nat} {after : SymbolTable}
    (le : fuel ≤ more) {hash pos dist : UInt32} {entry : SymbolEntry}
    (run : insertLoop fuel table hash entry pos dist = .ok after) :
    insertLoop more table hash entry pos dist = .ok after := by
  induction fuel generalizing table hash entry pos dist more with
  | zero => simp [insertLoop] at run
  | succ fuel ih =>
      rcases more with _ | more
      · omega
      · rw [insertLoop] at run ⊢
        dsimp only at run ⊢
        split_ifs at run ⊢ with empty richer deleted
        · exact run
        · exact run
        · exact ih (by omega) run
        · exact ih (by omega) run

/-- More fuel does not change a finished lookup. -/
theorem findLoop_mono {fuel more : Nat} {symbol : Symbol}
    (le : fuel ≤ more) {hash pos dist : UInt32} {key : ByteString}
    (run : findLoop table hash key fuel pos dist = .ok symbol) :
    findLoop table hash key more pos dist = .ok symbol := by
  induction fuel generalizing pos dist more with
  | zero => simp [findLoop] at run
  | succ fuel ih =>
      rcases more with _ | more
      · omega
      · rw [findLoop] at run ⊢
        dsimp only at run ⊢
        split_ifs at run ⊢ with empty closer sameHash
        · exact run
        · exact run
        · cases keyEq : (table.entries pos.toNat).key with
          | none => simp [keyEq] at run
          | some existing =>
              simp only [keyEq] at run ⊢
              split_ifs at run ⊢ with sameKey
              · exact run
              · exact ih (by omega) run
        · exact ih (by omega) run

end Millie.Symbols
