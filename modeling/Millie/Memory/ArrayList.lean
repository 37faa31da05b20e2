import Millie.Foundation.Buffer
import Mathlib.Data.Nat.Log
import Mathlib.Tactic.Ring

/-!
# The array list

Translation of `ArrayList` in `platform.c`: items of one size, one after another
in a block of bytes that grows by doubling.  Its capacity is an `unsigned int`,
so the last doubling that does not wrap round bounds what the list can hold; up
to that bound the block is a list of items.
-/

namespace Millie.Memory

/-! ## The translation -/

/-- An item, as its bytes. -/
abbrev Item := List UInt8

/-- A product of type `size_t`. -/
def sizeProduct (first second : Nat) : Nat :=
  first * second % 2 ^ 64

/-- `struct ArrayList`. -/
structure ArrayList where
  itemCount : UInt32
  capacity : UInt32
  itemSize : Nat
  buffer : Buffer UInt8

/-- `ArrayListCreate`; `uninit` is what `malloc` finds. -/
def arrayListCreate (uninit : Nat → UInt8) (itemSize : Nat)
    (capacity : UInt32) : ArrayList :=
  let capacity := if capacity = 0 then 4 else capacity
  ⟨0, capacity, itemSize,
    .malloc (sizeProduct itemSize capacity.toNat) uninit⟩

/-- `ArrayListIndex`: a distance from the block. -/
def arrayListIndex (array : ArrayList) (index : UInt32) : Except Stop Nat :=
  if array.itemCount ≤ index then .error .failed
  else .ok (sizeProduct index.toNat array.itemSize)

/-- `memcpy` into a block. -/
def copyBytes (buffer : Buffer UInt8) (start : Nat) :
    List UInt8 → Except Stop (Buffer UInt8)
  | [] => .ok buffer
  | byte :: rest => do
      let buffer ← buffer.write start byte
      copyBytes buffer (start + 1) rest

/-- The growth in `ArrayListAdd`; `uninit` is what `realloc` finds. -/
def arrayListGrow (uninit : Nat → UInt8) (array : ArrayList) : ArrayList :=
  if array.itemCount = array.capacity then
    let capacity := array.capacity * 2
    { array with
      capacity := capacity
      buffer := array.buffer.realloc
        (sizeProduct capacity.toNat array.itemSize) uninit }
  else array

/-- `ArrayListAdd`. -/
def arrayListAdd (uninit : Nat → UInt8) (array : ArrayList) (item : Item) :
    Except Stop (UInt32 × ArrayList) := do
  let array := arrayListGrow uninit array
  let newIndex := array.itemCount
  let array := { array with itemCount := array.itemCount + 1 }
  let itemPtr ← arrayListIndex array newIndex
  let buffer ← copyBytes array.buffer itemPtr item
  return (newIndex, { array with buffer := buffer })

/-- Some bytes of a block. -/
def readBytes (buffer : Buffer UInt8) (start : Nat) :
    Nat → Except Stop (List UInt8)
  | 0 => .ok []
  | size + 1 => do
      let byte ← buffer.read start
      let rest ← readBytes buffer (start + 1) size
      return byte :: rest

/-- The item to which `ArrayListIndex` points. -/
def arrayListItem (array : ArrayList) (index : UInt32) : Except Stop Item := do
  let itemPtr ← arrayListIndex array index
  readBytes array.buffer itemPtr array.itemSize

/-- One call of `ArrayListAdd` for each item. -/
def arrayListAddAll (uninit : Nat → UInt8) (array : ArrayList) :
    List Item → Except Stop ArrayList
  | [] => .ok array
  | item :: rest => do
      let (_, array) ← arrayListAdd uninit array item
      arrayListAddAll uninit array rest

/-! ## Blocks of bytes -/

section

variable {buffer after : Buffer UInt8} {start size : Nat} {bytes : List UInt8}

/-- Bytes that fit are written after those in front of them. -/
theorem copyBytes_fits (fits : start + bytes.length ≤ buffer.size) :
    ∃ after, copyBytes buffer start bytes = .ok after ∧
      after.size = buffer.size ∧
      after.front (start + bytes.length) = buffer.front start ++ bytes := by
  induction bytes generalizing buffer start with
  | nil => exact ⟨buffer, rfl, rfl, (List.append_nil _).symm⟩
  | cons byte rest ih =>
      rw [List.length_cons] at fits
      have inside : start < buffer.size := by omega
      rcases written : buffer.write start byte with stop | middle
      · rw [Buffer.write, if_pos inside] at written
        cases written
      · rcases Buffer.write_ok written with ⟨-, same, -⟩
        have front := Buffer.front_write_end written
        have room : start + 1 + rest.length ≤ middle.size := by omega
        rcases ih room with ⟨after, returns, kept, whole⟩
        refine ⟨after, ?_, kept.trans same, ?_⟩
        · rw [copyBytes, written]
          exact returns
        · rw [front, Nat.add_assoc, Nat.add_comm 1] at whole
          rw [List.length_cons, whole, List.append_assoc]
          rfl

/-- Bytes that are written fit. -/
theorem fits_of_copyBytes (some_ : bytes ≠ [])
    (returns : copyBytes buffer start bytes = .ok after) :
    start + bytes.length ≤ buffer.size := by
  induction bytes generalizing buffer start with
  | nil => exact absurd rfl some_
  | cons byte rest ih =>
      rw [copyBytes, Stop.bind_eq_ok_iff] at returns
      rcases returns with ⟨middle, written, returns⟩
      rcases Buffer.write_ok written with ⟨inside, same, -⟩
      rw [List.length_cons]
      by_cases last : rest = []
      · subst last
        exact inside
      · have := ih last returns
        omega

/-- Bytes inside the block are read. -/
theorem readBytes_inside (inside : start + size ≤ buffer.size) :
    readBytes buffer start size =
      .ok ((buffer.front (start + size)).drop start) := by
  induction size generalizing start with
  | zero =>
      rw [readBytes, Nat.add_zero, List.drop_eq_nil_of_le (by simp)]
  | succ size ih =>
      have here : buffer.read start = .ok (buffer.cells start) :=
        if_pos (by omega)
      have within : start < (buffer.front (start + (size + 1))).length := by
        simp
      rw [readBytes, here, Stop.ok_bind, ih (by omega), Stop.ok_bind,
        List.drop_eq_getElem_cons within, Nat.add_assoc, Nat.add_comm 1 size]
      simp only [Buffer.front, List.getElem_map, List.getElem_range]
      rfl

end

/-- An item among items of one size. -/
theorem drop_take_flatten {items : List Item} {size i : Nat}
    (sized : ∀ item ∈ items, item.length = size) (inside : i < items.length) :
    (items.flatten.drop (i * size)).take size = items[i] := by
  induction items generalizing i with
  | nil => exact absurd inside (Nat.not_lt_zero i)
  | cons item items ih =>
      rw [List.forall_mem_cons] at sized
      cases i with
      | zero =>
          rw [Nat.zero_mul, List.drop_zero, List.flatten_cons,
            List.take_append_of_le_length (Nat.le_of_eq sized.1.symm)]
          exact List.take_of_length_le (Nat.le_of_eq sized.1)
      | succ i =>
          have later : (i + 1) * size = item.length + i * size := by
            rw [sized.1]
            ring
          rw [later, List.flatten_cons, List.drop_append,
            List.getElem_cons_succ]
          rw [List.drop_eq_nil_of_le (by omega), List.nil_append,
            Nat.add_sub_cancel_left]
          exact ih sized.2 (Nat.lt_of_succ_lt_succ inside)

/-! ## What an array list holds -/

/-- The capacity with which `ArrayListCreate` begins. -/
def firstCapacity (capacity : UInt32) : Nat :=
  if capacity = 0 then 4 else capacity.toNat

/-- The largest capacity that doubling reaches before it wraps round. -/
def largestCapacity (first : Nat) : Nat :=
  first * 2 ^ Nat.log 2 ((2 ^ 32 - 1) / first)

/-- The bound for the tokens of the lexer. -/
example : largestCapacity 200 = 3355443200 := by decide +kernel

/-- The block of an array list begins with these items. -/
structure Holds (first size : Nat) (array : ArrayList) (items : List Item) :
    Prop where
  itemSize : array.itemSize = size
  itemCount : array.itemCount.toNat = items.length
  doubled : ∃ k, array.capacity.toNat = first * 2 ^ k
  within : items.length ≤ array.capacity.toNat
  block : array.buffer.size = array.capacity.toNat * size
  sized : ∀ item ∈ items, item.length = size
  front : array.buffer.front (items.length * size) = items.flatten

section

variable {first size : Nat} {array after : ArrayList} {items rest : List Item}
  {item : Item} {uninit : Nat → UInt8}

theorem firstCapacity_pos (capacity : UInt32) : 0 < firstCapacity capacity := by
  unfold firstCapacity
  by_cases zero : capacity = 0
  · rw [if_pos zero]
    decide
  · rw [if_neg zero]
    exact Nat.pos_of_ne_zero fun same => zero (UInt32.toNat.inj same)

theorem firstCapacity_lt (capacity : UInt32) :
    firstCapacity capacity < 2 ^ 32 := by
  unfold firstCapacity
  by_cases zero : capacity = 0
  · rw [if_pos zero]
    decide
  · rw [if_neg zero]
    exact capacity.toNat_lt

/-- The capacities below the bound are those that do not wrap round. -/
theorem le_largestCapacity {k : Nat} (positive : 0 < first)
    (small : first * 2 ^ k < 2 ^ 32) :
    first * 2 ^ k ≤ largestCapacity first := by
  have power : 2 ^ k ≤ (2 ^ 32 - 1) / first := by
    rw [Nat.le_div_iff_mul_le positive, Nat.mul_comm]
    omega
  exact Nat.mul_le_mul_left _ (Nat.pow_le_pow_right (by decide)
    (Nat.le_log_of_pow_le (by decide) power))

theorem largestCapacity_lt (positive : 0 < first) (small : first < 2 ^ 32) :
    largestCapacity first < 2 ^ 32 := by
  have quotient : (2 ^ 32 - 1) / first ≠ 0 :=
    Nat.ne_of_gt (Nat.div_pos (by omega) positive)
  have power := Nat.pow_log_le_self 2 quotient
  have bound := Nat.mul_le_mul_left first power
  have product := Nat.mul_div_le (2 ^ 32 - 1) first
  unfold largestCapacity
  omega

/-- A capacity below the bound is doubled without wrapping round. -/
theorem doubled_lt {k : Nat} (positive : 0 < first) (small : first < 2 ^ 32)
    (below : first * 2 ^ k < largestCapacity first) :
    2 * (first * 2 ^ k) < 2 ^ 32 := by
  have exponent : k < Nat.log 2 ((2 ^ 32 - 1) / first) :=
    (Nat.pow_lt_pow_iff_right (by decide)).mp
      (Nat.lt_of_mul_lt_mul_left below)
  have next : first * 2 ^ (k + 1) ≤ largestCapacity first :=
    Nat.mul_le_mul_left _ (Nat.pow_le_pow_right (by decide) exponent)
  have bound := largestCapacity_lt positive small
  rw [Nat.pow_succ, ← Nat.mul_assoc] at next
  omega

theorem sizeProduct_eq {count : UInt32} (small : size < 2 ^ 32) :
    sizeProduct count.toNat size = count.toNat * size := by
  have bound : count.toNat * size < 2 ^ 32 * 2 ^ 32 :=
    Nat.mul_lt_mul_of_lt_of_lt count.toNat_lt small
  exact Nat.mod_eq_of_lt bound

theorem arrayListCreate_holds (small : size < 2 ^ 32) (uninit : Nat → UInt8)
    (capacity : UInt32) :
    Holds (firstCapacity capacity) size (arrayListCreate uninit size capacity)
      [] := by
  have first : (if capacity = 0 then 4 else capacity).toNat =
      firstCapacity capacity := by
    unfold firstCapacity
    by_cases zero : capacity = 0
    · rw [if_pos zero, if_pos zero]
      rfl
    · rw [if_neg zero, if_neg zero]
  constructor
  · rfl
  · rfl
  · exact ⟨0, first.trans (Nat.mul_one _).symm⟩
  · exact Nat.zero_le _
  · rw [arrayListCreate, Buffer.malloc, sizeProduct, Nat.mul_comm size]
    exact sizeProduct_eq small
  · exact fun item member => absurd member List.not_mem_nil
  · rw [List.length_nil, Nat.zero_mul]
    rfl

namespace Holds

theorem capacity_lt (_ : Holds first size array items) :
    array.capacity.toNat < 2 ^ 32 :=
  array.capacity.toNat_lt

/-- An array list holds no more than the bound. -/
theorem length_le (holds : Holds first size array items)
    (positive : 0 < first) : items.length ≤ largestCapacity first := by
  rcases holds.doubled with ⟨k, capacity⟩
  have small := holds.capacity_lt
  rw [capacity] at small
  exact Nat.le_trans (capacity ▸ holds.within)
    (le_largestCapacity positive small)

/-- There is room for an item, or there is after doubling. -/
def Room (array : ArrayList) (items : List Item) : Prop :=
  items.length < array.capacity.toNat ∨ 2 * array.capacity.toNat < 2 ^ 32

theorem room (holds : Holds first size array items) (positive : 0 < first)
    (small : first < 2 ^ 32) (below : items.length < largestCapacity first) :
    Room array items := by
  rcases holds.doubled with ⟨k, capacity⟩
  rcases Nat.lt_or_ge items.length array.capacity.toNat with inside | full
  · exact .inl inside
  · refine .inr ?_
    rw [capacity] at full ⊢
    exact doubled_lt positive small (Nat.lt_of_le_of_lt full below)

/-- Growing keeps the items and makes room. -/
theorem grow (holds : Holds first size array items) (positive : 0 < first)
    (small : size < 2 ^ 32) (room : Room array items) :
    Holds first size (arrayListGrow uninit array) items ∧
      items.length < (arrayListGrow uninit array).capacity.toNat := by
  rcases holds.doubled with ⟨k, capacity⟩
  have nonempty : 0 < array.capacity.toNat := by
    rw [capacity]
    exact Nat.mul_pos positive (Nat.two_pow_pos k)
  rw [arrayListGrow]
  by_cases full : array.itemCount = array.capacity
  · rw [if_pos full]
    have count := holds.itemCount
    rw [full] at count
    have twice : (array.capacity * 2).toNat = 2 * array.capacity.toNat := by
      rcases room with inside | fits
      · exact absurd inside (by omega)
      · rw [UInt32.toNat_mul, Nat.mul_comm]
        exact Nat.mod_eq_of_lt fits
    refine ⟨⟨holds.itemSize, holds.itemCount, ⟨k + 1, ?_⟩, ?_, ?_, holds.sized,
      ?_⟩, ?_⟩
    · rw [twice, capacity, Nat.pow_succ]
      ring
    · exact Nat.le_trans holds.within (by rw [twice]; omega)
    · rw [holds.itemSize]
      exact sizeProduct_eq small
    · rw [Buffer.front_realloc, holds.front]
      rw [holds.block]
      exact Nat.mul_le_mul_right _ holds.within
    · rw [twice]
      omega
  · rw [if_neg full]
    refine ⟨holds, Nat.lt_of_le_of_ne holds.within fun same => full ?_⟩
    exact UInt32.toNat.inj (holds.itemCount.trans same)

theorem grow_itemCount :
    (arrayListGrow uninit array).itemCount = array.itemCount := by
  rw [arrayListGrow]
  by_cases full : array.itemCount = array.capacity
  · rw [if_pos full]
  · rw [if_neg full]

/-- An item is added after those that are there. -/
theorem add (holds : Holds first size array items) (positive : 0 < first)
    (small : size < 2 ^ 32) (room : Room array items)
    (sized : item.length = size) :
    ∃ after, arrayListAdd uninit array item = .ok (array.itemCount, after) ∧
      Holds first size after (items ++ [item]) := by
  rcases holds.grow positive small room with ⟨grown, inside⟩
  have more : (array.itemCount + 1).toNat = items.length + 1 := by
    have bound := grown.capacity_lt
    rw [UInt32.toNat_add, holds.itemCount]
    exact Nat.mod_eq_of_lt (show items.length + 1 < 2 ^ 32 by omega)
  have found : ¬ array.itemCount + 1 ≤ array.itemCount := by
    rw [UInt32.le_iff_toNat_le, more, holds.itemCount]
    omega
  have place : sizeProduct array.itemCount.toNat
      (arrayListGrow uninit array).itemSize = items.length * size := by
    rw [grown.itemSize, sizeProduct_eq small, holds.itemCount]
  have fits : items.length * size + item.length ≤
      (arrayListGrow uninit array).buffer.size := by
    rw [grown.block, sized, ← Nat.succ_mul]
    exact Nat.mul_le_mul_right _ inside
  rcases copyBytes_fits fits with ⟨buffer, returns, kept, whole⟩
  refine ⟨⟨array.itemCount + 1, (arrayListGrow uninit array).capacity,
    (arrayListGrow uninit array).itemSize, buffer⟩, ?_, ?_⟩
  · rw [arrayListAdd]
    simp only [arrayListIndex, grow_itemCount, if_neg found, Stop.ok_bind,
      place, returns]
    rfl
  · constructor
    · exact grown.itemSize
    · rw [List.length_append]
      exact more
    · exact grown.doubled
    · rw [List.length_append]
      exact inside
    · exact kept.trans grown.block
    · rw [List.forall_mem_append, List.forall_mem_singleton]
      exact ⟨grown.sized, sized⟩
    · rw [sized, grown.front] at whole
      rw [List.length_append, List.length_singleton, Nat.succ_mul,
        List.flatten_append, List.flatten_singleton]
      exact whole

/-- Nothing is added past a doubling that wraps round. -/
theorem room_of_add (holds : Holds first size array items)
    (nonempty : 0 < size) (small : size < 2 ^ 32) (sized : item.length = size)
    {index : UInt32}
    (returns : arrayListAdd uninit array item = .ok (index, after)) :
    Room array items := by
  by_contra full
  rw [Room, not_or, Nat.not_lt, Nat.not_lt] at full
  have count := Nat.le_antisymm full.1 holds.within
  have same : array.itemCount = array.capacity :=
    UInt32.toNat.inj (holds.itemCount.trans count.symm)
  have wraps : (array.capacity * 2).toNat < items.length := by
    have bound := holds.capacity_lt
    have product : (array.capacity * 2).toNat =
        array.capacity.toNat * 2 % 2 ^ 32 := UInt32.toNat_mul ..
    omega
  rw [arrayListAdd, arrayListGrow, if_pos same, Stop.bind_eq_ok_iff] at returns
  rcases returns with ⟨itemPtr, pointed, returns⟩
  rw [Stop.bind_eq_ok_iff] at returns
  rcases returns with ⟨buffer, copied, -⟩
  simp only [arrayListIndex] at pointed
  by_cases outside : array.itemCount + 1 ≤ array.itemCount
  · rw [if_pos outside] at pointed
    cases pointed
  · rw [if_neg outside] at pointed
    cases pointed
    have some_ : item ≠ [] := fun empty => by
      rw [empty] at sized
      exact absurd sized (Nat.ne_of_lt nonempty)
    have fits := fits_of_copyBytes some_ copied
    rw [holds.itemSize, sizeProduct_eq small, holds.itemCount, sized,
      ← Nat.succ_mul] at fits
    have block : (array.buffer.realloc (sizeProduct (array.capacity * 2).toNat
        size) uninit).size = (array.capacity * 2).toNat * size :=
      sizeProduct_eq small
    have below := Nat.le_of_mul_le_mul_right (Nat.le_trans fits
      (Nat.le_of_eq block)) nonempty
    omega

/-- The item at an index below the count is the one that was added there. -/
theorem item_eq (holds : Holds first size array items) (small : size < 2 ^ 32)
    (index : UInt32) : arrayListItem array index =
      if inside : index.toNat < items.length then .ok items[index.toNat]
      else .error .failed := by
  have outside : array.itemCount ≤ index ↔ items.length ≤ index.toNat := by
    rw [UInt32.le_iff_toNat_le, holds.itemCount]
  rw [arrayListItem, arrayListIndex]
  by_cases inside : index.toNat < items.length
  · rw [if_neg (mt outside.mp (Nat.not_le.mpr inside)), dif_pos inside,
      Stop.ok_bind, holds.itemSize, sizeProduct_eq small]
    have upTo : index.toNat * size + size ≤ items.length * size := by
      rw [← Nat.succ_mul]
      exact Nat.mul_le_mul_right _ inside
    have block : items.length * size ≤ array.buffer.size := by
      rw [holds.block]
      exact Nat.mul_le_mul_right _ holds.within
    have front : array.buffer.front (index.toNat * size + size) =
        items.flatten.take (index.toNat * size + size) := by
      rw [← holds.front, Buffer.front, Buffer.front, ← List.map_take,
        List.take_range, Nat.min_eq_left upTo]
    rw [readBytes_inside (Nat.le_trans upTo block), front, List.drop_take,
      Nat.add_sub_cancel_left, drop_take_flatten holds.sized inside]
  · rw [if_pos (outside.mpr (Nat.not_lt.mp inside)), dif_neg inside]
    rfl

/-- As many items as the bound allows are added. -/
theorem addAll (holds : Holds first size array items) (positive : 0 < first)
    (bounded : first < 2 ^ 32) (small : size < 2 ^ 32)
    (sized : ∀ item ∈ rest, item.length = size)
    (fits : (items ++ rest).length ≤ largestCapacity first) :
    ∃ after, arrayListAddAll uninit array rest = .ok after := by
  induction rest generalizing array items with
  | nil => exact ⟨array, rfl⟩
  | cons item rest ih =>
      rw [List.forall_mem_cons] at sized
      have below : items.length < largestCapacity first := by
        rw [List.length_append, List.length_cons] at fits
        omega
      rcases holds.add positive small
        (holds.room positive bounded below) sized.1 with
        ⟨middle, returns, added⟩
      rw [arrayListAddAll, returns]
      exact ih added sized.2 (by rwa [List.append_assoc])

/-- Items that have been added are held. -/
theorem of_addAll (holds : Holds first size array items) (positive : 0 < first)
    (nonempty : 0 < size) (small : size < 2 ^ 32)
    (sized : ∀ item ∈ rest, item.length = size)
    (returns : arrayListAddAll uninit array rest = .ok after) :
    Holds first size after (items ++ rest) := by
  induction rest generalizing array items with
  | nil =>
      cases returns
      rwa [List.append_nil]
  | cons item rest ih =>
      rw [List.forall_mem_cons] at sized
      rw [arrayListAddAll, Stop.bind_eq_ok_iff] at returns
      rcases returns with ⟨⟨index, middle⟩, once, returns⟩
      have room := holds.room_of_add nonempty small sized.1 once
      rcases holds.add positive small room sized.1 with
        ⟨same, again, added⟩
      rw [once] at again
      cases again
      rw [List.append_cons]
      exact ih added sized.2 returns

end Holds

end

/--
Items can be added one after another exactly up to the bound.  An index then
gives the item that was added there, and one past the items fails.
-/
theorem arrayListAddAll_iff {size : Nat} (nonempty : 0 < size)
    (small : size < 2 ^ 32) {items : List Item}
    (sized : ∀ item ∈ items, item.length = size) (uninit : Nat → UInt8)
    (capacity : UInt32) :
    ((∃ after, arrayListAddAll uninit (arrayListCreate uninit size capacity)
        items = .ok after) ↔
      items.length ≤ largestCapacity (firstCapacity capacity)) ∧
    ∀ after, arrayListAddAll uninit (arrayListCreate uninit size capacity)
        items = .ok after →
      ∀ index, arrayListItem after index =
        if inside : index.toNat < items.length then .ok items[index.toNat]
        else .error .failed := by
  have positive := firstCapacity_pos capacity
  have empty := arrayListCreate_holds small uninit capacity
  have held : ∀ after, arrayListAddAll uninit (arrayListCreate uninit size
      capacity) items = .ok after →
      Holds (firstCapacity capacity) size after items :=
    fun after returns => empty.of_addAll positive nonempty small sized returns
  refine ⟨⟨?_, ?_⟩, fun after returns => (held after returns).item_eq small⟩
  · rintro ⟨after, returns⟩
    exact (held after returns).length_le positive
  · exact empty.addAll positive (firstCapacity_lt capacity) small sized

-- The block of three items has been doubled twice.
example : ∃ after,
    arrayListAddAll (fun _ => 0) (arrayListCreate (fun _ => 0) 2 1)
        [[1, 2], [3, 4], [5, 6]] = .ok after ∧
      arrayListItem after 2 = .ok [5, 6] ∧
      arrayListItem after 3 = .error .failed := by
  have sized : ∀ item ∈ ([[1, 2], [3, 4], [5, 6]] : List Item),
      item.length = 2 := by decide
  have whole := arrayListAddAll_iff (by decide) (by decide) sized
    (fun _ => 0) 1
  rcases whole.1.mpr (by decide +kernel) with ⟨after, returns⟩
  exact ⟨after, returns, whole.2 after returns 2, whole.2 after returns 3⟩

end Millie.Memory
