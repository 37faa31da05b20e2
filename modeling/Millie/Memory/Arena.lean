import Millie.Foundation.Stop
import Mathlib.Tactic.ByContra
import Mathlib.Tactic.Cases

/-!
# The arena

Translation of `ArenaAllocate` in `platform.c`, with the memory of its blocks
and the stores of those who have been given a part of it.  The amount that the
function compares a request with is what it has already given out of the
current block, not what is left of it.
-/

namespace Millie.Memory

/-! ## The translation -/

/-- `ARENA_SIZE`. -/
def arenaSize : Nat :=
  2097152

/--
`struct ArenaBlock`: which allocation it is, and `start` as a distance from
`arena`.  That array begins at a multiple of eight, after one pointer in an
allocation that is aligned for everything.
-/
structure ArenaBlock where
  address : Nat
  start : Nat
deriving DecidableEq

/-- `struct Arena`: the blocks from `current` on, each before its `next`. -/
structure Arena where
  blocks : List ArenaBlock
deriving DecidableEq

/-- The bytes in the arrays of the blocks. -/
abbrev Bytes := Nat → Nat → UInt8

/-- A part of a block. -/
structure Range where
  block : Nat
  offset : Nat
  size : Nat
deriving DecidableEq

/-- `MakeFreshArena`. -/
def makeFreshArena : Arena :=
  ⟨[]⟩

/-- `calloc` of a block: its bytes are zero. -/
def calloc (address : Nat) (bytes : Bytes) : Bytes :=
  fun block => if block = address then fun _ => 0 else bytes block

/-- The rounding of `new_start` to a multiple of eight. -/
def roundUp (newStart : Nat) : Nat :=
  if newStart % 8 ≠ 0 then newStart + (8 - newStart % 8) else newStart

/-- `space_remaining`. -/
def spaceRemaining (arena : Arena) : Int :=
  match arena.blocks with
  | [] => -1
  | currentBlock :: _ => currentBlock.start

/-- `ArenaAllocate`: where the result is, and the arena and the bytes after. -/
def arenaAllocate (size : Nat) (arena : Arena) (bytes : Bytes) :
    Except Stop (Range × Arena × Bytes) :=
  if arenaSize < size then .error .failed
  else
    let (blocks, bytes) :=
      if spaceRemaining arena < 0 ∨ (spaceRemaining arena).toNat < size then
        (⟨arena.blocks.length, 0⟩ :: arena.blocks,
          calloc arena.blocks.length bytes)
      else (arena.blocks, bytes)
    match blocks with
    | [] => .error .undefinedBehaviour
    | currentBlock :: next =>
        let newStart := roundUp (currentBlock.start + size)
        .ok (⟨currentBlock.address, currentBlock.start, size⟩,
          ⟨{ currentBlock with start := newStart } :: next⟩, bytes)

/-! ## Runs -/

/-- The arena, its bytes, and what it has given out, the last part first. -/
structure Heap where
  arena : Arena
  bytes : Bytes
  taken : List Range

/-- A byte of a block is written. -/
def Heap.store (heap : Heap) (block offset : Nat) (value : UInt8) : Heap :=
  { heap with
    bytes := fun b o =>
      if b = block ∧ o = offset then value else heap.bytes b o }

/-- A call of `ArenaAllocate`: the heap before, the result and the bytes. -/
structure Served where
  before : Heap
  range : Range
  bytes : Bytes

/--
Any sequence of calls with sizes from one to `ARENA_SIZE`, between which the
parts that have been given out are written.
-/
inductive Run : List Served → Heap → Prop where
  | fresh (bytes : Bytes) : Run [] ⟨makeFreshArena, bytes, []⟩
  | allocate {calls : List Served} {heap : Heap} {size : Nat} {range : Range}
      {arena : Arena} {bytes : Bytes} (run : Run calls heap)
      (positive : 0 < size) (small : size ≤ arenaSize)
      (returns : arenaAllocate size heap.arena heap.bytes =
        .ok (range, arena, bytes)) :
      Run (calls ++ [⟨heap, range, bytes⟩]) ⟨arena, bytes, range :: heap.taken⟩
  | store {calls : List Served} {heap : Heap} (run : Run calls heap)
      {range : Range} (member : range ∈ heap.taken) {offset : Nat}
      (low : range.offset ≤ offset) (high : offset < range.offset + range.size)
      (inArena : offset < arenaSize) (value : UInt8) :
      Run calls (heap.store range.block offset value)

/-- Two parts have no byte in common. -/
def Range.Disjoint (first second : Range) : Prop :=
  first.block = second.block →
    first.offset + first.size ≤ second.offset ∨
      second.offset + second.size ≤ first.offset

/-- The result of a call is its caller's own, aligned, zero memory. -/
structure Served.Sound (call : Served) : Prop where
  inside : call.range.offset + call.range.size ≤ arenaSize
  aligned : call.range.offset % 8 = 0
  disjoint : ∀ earlier ∈ call.before.taken, call.range.Disjoint earlier
  zeroed : ∀ offset, call.range.offset ≤ offset →
    offset < call.range.offset + call.range.size →
    call.bytes call.range.block offset = 0

/--
If a request is no larger than what the current block has given out, what is
left of the block holds it.
-/
def Fits (arena : Arena) (size : Nat) : Prop :=
  ∀ block ∈ arena.blocks.head?, size ≤ block.start →
    block.start + size ≤ arenaSize

/-! ## One call -/

theorem roundUp_le (n : Nat) : n ≤ roundUp n := by
  rw [roundUp]
  split
  · omega
  · exact Nat.le_refl n

theorem roundUp_aligned (n : Nat) : roundUp n % 8 = 0 := by
  rw [roundUp]
  split
  · omega
  · omega

/-- A call opens a block for a request that is larger than what was given. -/
theorem arenaAllocate_cases {size : Nat} {arena after : Arena}
    {bytes bytes' : Bytes} {range : Range} (small : size ≤ arenaSize)
    (returns : arenaAllocate size arena bytes = .ok (range, after, bytes')) :
    (range = ⟨arena.blocks.length, 0, size⟩ ∧
        after = ⟨⟨arena.blocks.length, roundUp size⟩ :: arena.blocks⟩ ∧
        bytes' = calloc arena.blocks.length bytes ∧
        ∀ block ∈ arena.blocks.head?, block.start < size) ∨
      ∃ block next, arena.blocks = block :: next ∧ size ≤ block.start ∧
        range = ⟨block.address, block.start, size⟩ ∧
        after = ⟨⟨block.address, roundUp (block.start + size)⟩ :: next⟩ ∧
        bytes' = bytes := by
  rw [arenaAllocate, if_neg (Nat.not_lt.mpr small)] at returns
  rcases arena with ⟨blocks⟩
  cases blocks with
  | nil =>
      left
      rw [if_pos (.inl (by decide))] at returns
      cases returns
      simp
  | cons block next =>
      by_cases more : block.start < size
      · left
        rw [if_pos (.inr more)] at returns
        cases returns
        simpa using more
      · right
        have kept : ¬(spaceRemaining ⟨block :: next⟩ < 0 ∨
            (spaceRemaining ⟨block :: next⟩).toNat < size) := by
          rintro (negative | less)
          · exact absurd negative (by simp [spaceRemaining])
          · exact more less
        rw [if_neg kept] at returns
        cases returns
        exact ⟨block, next, rfl, Nat.le_of_not_lt more, rfl, rfl, rfl⟩

/-! ## What holds in every heap -/

/--
The blocks are numbered in the order they were opened, `start` is aligned, and
nothing has been given out or written from it on.
-/
structure Tidy (heap : Heap) : Prop where
  numbered : ∀ block ∈ heap.arena.blocks.head?,
    block.address + 1 = heap.arena.blocks.length
  aligned : ∀ block ∈ heap.arena.blocks.head?, block.start % 8 = 0
  opened : ∀ range ∈ heap.taken, range.block < heap.arena.blocks.length
  below : ∀ block ∈ heap.arena.blocks.head?, ∀ range ∈ heap.taken,
    range.block = block.address → range.offset + range.size ≤ block.start
  clean : ∀ block ∈ heap.arena.blocks.head?, ∀ offset, block.start ≤ offset →
    heap.bytes block.address offset = 0

section

variable {heap : Heap} {size : Nat} {range : Range} {arena : Arena}
  {bytes : Bytes}

theorem Tidy.fresh (bytes : Bytes) : Tidy ⟨makeFreshArena, bytes, []⟩ where
  numbered := nofun
  aligned := nofun
  opened := nofun
  below := nofun
  clean := nofun

theorem Tidy.allocate (tidy : Tidy heap) (small : size ≤ arenaSize)
    (returns : arenaAllocate size heap.arena heap.bytes =
      .ok (range, arena, bytes)) :
    Tidy ⟨arena, bytes, range :: heap.taken⟩ := by
  rcases arenaAllocate_cases small returns with
    ⟨rfl, rfl, rfl, -⟩ | ⟨block, next, current, -, rfl, rfl, rfl⟩
  · constructor
    · rintro block ⟨⟩
      rfl
    · rintro block ⟨⟩
      exact roundUp_aligned size
    · intro range member
      rcases List.mem_cons.mp member with rfl | earlier
      · exact Nat.lt_succ_self _
      · exact Nat.lt_succ_of_lt (tidy.opened range earlier)
    · rintro block ⟨⟩ range member same
      rcases List.mem_cons.mp member with rfl | earlier
      · rw [Nat.zero_add]
        exact roundUp_le size
      · exact absurd same (Nat.ne_of_lt (tidy.opened range earlier))
    · rintro block ⟨⟩ offset -
      exact congrFun (if_pos rfl) offset
  · have first : block ∈ heap.arena.blocks.head? := by
      rw [current]
      rfl
    have number := tidy.numbered block first
    have room := roundUp_le (block.start + size)
    rw [current, List.length_cons] at number
    constructor
    · rintro _ ⟨⟩
      exact number
    · rintro _ ⟨⟩
      exact roundUp_aligned _
    · intro range member
      rcases List.mem_cons.mp member with rfl | earlier
      · exact Nat.lt_of_succ_le (Nat.le_of_eq number)
      · have old := tidy.opened range earlier
        rw [current] at old
        exact old
    · rintro _ ⟨⟩ range member same
      rcases List.mem_cons.mp member with rfl | earlier
      · exact room
      · have upTo := tidy.below block first range earlier same
        exact Nat.le_trans upTo (Nat.le_trans (Nat.le_add_right _ _) room)
    · rintro _ ⟨⟩ offset after
      exact tidy.clean block first offset
        (Nat.le_trans (Nat.le_add_right _ _) (Nat.le_trans room after))

theorem Tidy.store (tidy : Tidy heap) (member : range ∈ heap.taken)
    {offset : Nat} (high : offset < range.offset + range.size)
    (value : UInt8) : Tidy (heap.store range.block offset value) := by
  refine ⟨tidy.numbered, tidy.aligned, tidy.opened, tidy.below, ?_⟩
  intro block first other after
  have before : ¬(block.address = range.block ∧ other = offset) := by
    rintro ⟨same, rfl⟩
    have upTo := tidy.below block first range member same.symm
    omega
  exact (if_neg before).trans (tidy.clean block first other after)

/-- In a tidy heap a call is sound if and only if its request fits. -/
theorem Tidy.sound_iff (tidy : Tidy heap) (small : size ≤ arenaSize)
    (returns : arenaAllocate size heap.arena heap.bytes =
      .ok (range, arena, bytes)) :
    Served.Sound ⟨heap, range, bytes⟩ ↔ Fits heap.arena size := by
  rcases arenaAllocate_cases small returns with
    ⟨rfl, -, rfl, larger⟩ | ⟨block, next, current, most, rfl, -, rfl⟩
  · refine iff_of_true ?_ ?_
    · constructor
      · simpa using small
      · rfl
      · intro earlier member same
        exact absurd same.symm (Nat.ne_of_lt (tidy.opened earlier member))
      · intro offset _ _
        exact congrFun (if_pos rfl) offset
    · intro block first most
      exact absurd (larger block first) (Nat.not_lt_of_le most)
  · have first : block ∈ heap.arena.blocks.head? := by
      rw [current]
      rfl
    constructor
    · intro sound other isFirst _
      cases Option.mem_unique first isFirst
      exact sound.inside
    · intro fits
      constructor
      · exact fits block first most
      · exact tidy.aligned block first
      · intro earlier member same
        exact .inr (tidy.below block first earlier member same.symm)
      · intro offset low _
        exact tidy.clean block first offset low

end

/-- Every heap of a run is tidy. -/
theorem Run.tidy {calls : List Served} {heap : Heap} (run : Run calls heap) :
    Tidy heap := by
  induction run with
  | fresh bytes => exact .fresh bytes
  | allocate run positive small returns ih => exact ih.allocate small returns
  | store run member low high inArena value ih =>
      exact ih.store member high value

/--
All results of a run are sound if and only if every request that stays in the
current block fits into what is left of it.
-/
theorem allocations_sound_iff {calls : List Served} {heap : Heap}
    (run : Run calls heap) :
    (∀ call ∈ calls, call.Sound) ↔
      ∀ call ∈ calls, Fits call.before.arena call.range.size := by
  induction run with
  | fresh bytes => simp
  | @allocate calls heap size range arena bytes run positive small returns ih =>
      have sized : range.size = size := by
        rcases arenaAllocate_cases small returns with
          ⟨rfl, -⟩ | ⟨block, next, -, -, rfl, -⟩
        · rfl
        · rfl
      have last := run.tidy.sound_iff small returns
      simp only [List.forall_mem_append, List.forall_mem_singleton, ih, last,
        sized]
  | store run member low high inArena value ih => exact ih

/-- Sixteen bytes and then eight, which the first block holds. -/
theorem allocations_sound_two : ∃ first second heap,
    Run [first, second] heap ∧ first.range = ⟨0, 0, 16⟩ ∧
      second.range = ⟨0, 16, 8⟩ ∧ first.Sound ∧ second.Sound := by
  have one := Run.allocate (.fresh fun _ _ => 0)
    (show 0 < 16 by decide) (by decide) rfl
  have two := Run.allocate one (show 0 < 8 by decide) (by decide) rfl
  have sound := (allocations_sound_iff two).mpr ?_
  · exact ⟨_, _, _, two, rfl, rfl, sound _ (.head _), sound _ (.tail _ (.head _))⟩
  · intro call member
    simp only [List.nil_append, List.cons_append, List.mem_cons,
      List.not_mem_nil, or_false] at member
    rcases member with rfl | rfl
    · exact nofun
    · rintro block ⟨⟩ -
      decide

/-- After a request for a whole block, a byte is given from behind its end. -/
theorem allocations_sound_not : ∃ first second heap,
    Run [first, second] heap ∧ first.range = ⟨0, 0, 2097152⟩ ∧
      second.range = ⟨0, 2097152, 1⟩ ∧ ¬second.Sound := by
  have one := Run.allocate (.fresh fun _ _ => 0)
    (show 0 < 2097152 by decide) (by decide) rfl
  have two := Run.allocate one (show 0 < 1 by decide) (by decide) rfl
  refine ⟨_, _, _, two, rfl, rfl, fun sound => ?_⟩
  exact absurd sound.inside (by decide)

end Millie.Memory
