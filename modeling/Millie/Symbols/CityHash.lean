import Millie.Foundation.Footprint
import Millie.Symbols.Table
import Mathlib.Order.Interval.Set.Basic

/-!
# The hash of a string

Translation of `cityhash.c` for a little-endian machine, with a log of the bytes
that are read.  A pointer is a distance from the string, and a read outside the
string is undefined behaviour.
-/

namespace Millie.Symbols

open Footprint

/-! ## The translation -/

/-- Steps that log the bytes of the string they read. -/
abbrev HashM :=
  StateT (List Nat) (Except Stop)

/-- `s[i]`. -/
def charAt (s : ByteString) (i : Nat) : HashM UInt8 := fun log =>
  if i < s.length then .ok (s.getD i 0, i :: log)
  else .error .undefinedBehaviour

/-- `UNALIGNED_LOAD32`, and `Fetch32` without its swap. -/
def fetch32 (s : ByteString) (p : Int) : HashM UInt32 := fun log =>
  if 0 ≤ p ∧ p + 4 ≤ s.length then
    let i := p.toNat
    .ok ((s.getD i 0).toUInt32 ||| (s.getD (i + 1) 0).toUInt32 <<< 8 |||
        (s.getD (i + 2) 0).toUInt32 <<< 16 |||
        (s.getD (i + 3) 0).toUInt32 <<< 24,
      i :: (i + 1) :: (i + 2) :: (i + 3) :: log)
  else .error .undefinedBehaviour

/-- `bswap_32`. -/
def bswap32 (x : UInt32) : UInt32 :=
  let mask : UInt32 := 0xff
  (x >>> 24 &&& mask) ||| (x >>> 8 &&& mask <<< 8) |||
    (x <<< 8 &&& mask <<< 16) ||| (x <<< 24 &&& mask <<< 24)

def c1 : UInt32 := 0xcc9e2d51

def c2 : UInt32 := 0x1b873593

def fmix (h : UInt32) : UInt32 :=
  let h := h ^^^ h >>> 16
  let h := h * 0x85ebca6b
  let h := h ^^^ h >>> 13
  let h := h * 0xc2b2ae35
  h ^^^ h >>> 16

/-- `Rotate32`. -/
def rotate32 (val shift : UInt32) : UInt32 :=
  if shift = 0 then val else val >>> shift ||| val <<< (32 - shift)

/-- `Mur`. -/
def mur (a h : UInt32) : UInt32 :=
  let a := rotate32 (a * c1) 17 * c2
  rotate32 (h ^^^ a) 19 * 5 + 0xe6546b64

/-- The loop of `Hash32Len0to4`: the rest of the length, `i`, `b` and `c`. -/
def hash32Bytes (s : ByteString) :
    Nat → Nat → UInt32 → UInt32 → HashM (UInt32 × UInt32)
  | 0, _, b, c => return (b, c)
  | rest + 1, i, b, c => do
      -- A `signed char` keeps its sign when it is made an `unsigned int`.
      let v ← charAt s i
      let b := b * c1 + v.toInt8.toInt32.toUInt32
      hash32Bytes s rest (i + 1) b (c ^^^ b)

def hash32Len0to4 (s : ByteString) (len : Nat) : HashM UInt32 := do
  let (b, c) ← hash32Bytes s len 0 0 9
  return fmix (mur b (mur (UInt32.ofNat len) c))

def hash32Len5to12 (s : ByteString) (len : Nat) : HashM UInt32 := do
  let d := UInt32.ofNat (len * 5)
  let a ← fetch32 s 0
  let b ← fetch32 s (len - 4)
  let c ← fetch32 s ((len >>> 1) &&& 4 : Nat)
  return fmix (mur (9 + c) (mur (d + b) (mur (UInt32.ofNat len + a) d)))

def hash32Len13to24 (s : ByteString) (len : Nat) : HashM UInt32 := do
  let a ← fetch32 s (-4 + (len >>> 1 : Nat))
  let b ← fetch32 s 4
  let c ← fetch32 s (len - 8)
  let d ← fetch32 s (len >>> 1 : Nat)
  let e ← fetch32 s 0
  let f ← fetch32 s (len - 4)
  let h := UInt32.ofNat len
  return fmix (mur f (mur e (mur d (mur c (mur b (mur a h))))))

/-- The variables `h`, `g` and `f` of `CityHash32`. -/
structure HashState where
  h : UInt32
  g : UInt32
  f : UInt32
deriving DecidableEq

/-- `Rotate32(Fetch32(p) * c1, 17) * c2`. -/
def fetchMixed (s : ByteString) (p : Int) : HashM UInt32 := do
  return rotate32 ((← fetch32 s p) * c1) 17 * c2

/-- `x = Rotate32(x, shift); x = x * 5 + 0xe6546b64`. -/
def stir (x shift : UInt32) : UInt32 :=
  rotate32 x shift * 5 + 0xe6546b64

/-- What `CityHash32` takes from the last twenty bytes before its loop. -/
def hash32Last (s : ByteString) (len : Nat) : HashM HashState := do
  let h := UInt32.ofNat len
  let g := UInt32.ofNat (c1.toNat * len)
  let f := g
  let a0 ← fetchMixed s (len - 4)
  let a1 ← fetchMixed s (len - 8)
  let a2 ← fetchMixed s (len - 16)
  let a3 ← fetchMixed s (len - 12)
  let a4 ← fetchMixed s (len - 20)
  let h := stir (h ^^^ a0) 19
  let h := stir (h ^^^ a2) 19
  let g := stir (g ^^^ a1) 19
  let g := stir (g ^^^ a3) 19
  return ⟨h, g, stir (f + a4) 19⟩

/-- One round of the loop of `CityHash32`, with its `PERMUTE3`. -/
def hash32Round (s : ByteString) (p : Int) (state : HashState) :
    HashM HashState := do
  let ⟨h, g, f⟩ := state
  let a0 ← fetchMixed s p
  let a1 ← fetch32 s (p + 4)
  let a2 ← fetchMixed s (p + 8)
  let a3 ← fetchMixed s (p + 12)
  let a4 ← fetch32 s (p + 16)
  let h := stir (h ^^^ a0) 18
  let f := rotate32 (f + a1) 19 * c1
  let g := stir (g + a2) 18
  let h := stir (h ^^^ (a3 + a1)) 19
  let g := bswap32 (g ^^^ a4) * 5
  let h := bswap32 (h + a4 * 5)
  let f := f + a0
  return ⟨f, h, g⟩

/-- The loop `do … while (--iters != 0)`. -/
def hash32Rounds (s : ByteString) : Nat → Int → HashState → HashM HashState
  -- The count wraps round and the loop leaves the string.
  | 0, _, _ => throw .undefinedBehaviour
  | iters + 1, p, state => do
      let state ← hash32Round s p state
      if iters ≠ 0 then hash32Rounds s iters (p + 20) state else return state

/-- `CityHash32`. -/
def cityHash32 (s : ByteString) (len : Nat) : HashM UInt32 := do
  if len ≤ 4 then hash32Len0to4 s len
  else if len ≤ 12 then hash32Len5to12 s len
  else if len ≤ 24 then hash32Len13to24 s len
  else
    let state ← hash32Last s len
    let ⟨h, g, f⟩ ← hash32Rounds s ((len - 1) / 20) 0 state
    let g := rotate32 (rotate32 g 11 * c1) 17 * c1
    let f := rotate32 (rotate32 f 11 * c1) 17 * c1
    let h := rotate32 (stir (h + g) 19) 17 * c1
    return rotate32 (stir (h + f) 19) 17 * c1

/-! ## What is read -/

section

variable {s : ByteString} {i : Nat} {p : Int}

theorem charAt_touches (inside : i < s.length) :
    Touches (Set.Ico i (i + 1)) (charAt s i) := by
  intro log
  refine ⟨s.getD i 0, i :: log, if_pos inside, fun place => ?_⟩
  rw [List.mem_cons, Set.mem_Ico, or_comm]
  exact or_congr_right (by omega)

theorem fetch32_touches (at_ : p = i) (inside : i + 4 ≤ s.length) :
    Touches (Set.Ico i (i + 4)) (fetch32 s p) := by
  intro log
  subst at_
  have within : 0 ≤ (i : Int) ∧ (i : Int) + 4 ≤ s.length := by omega
  refine ⟨_, _, if_pos within, fun place => ?_⟩
  have four : (place = i ∨ place = i + 1 ∨ place = i + 2 ∨ place = i + 3) ↔
      i ≤ place ∧ place < i + 4 := by omega
  simp only [Int.toNat_natCast, List.mem_cons, Set.mem_Ico, ← four]
  tauto

theorem fetchMixed_touches (at_ : p = i) (inside : i + 4 ≤ s.length) :
    Touches (Set.Ico i (i + 4)) (fetchMixed s p) :=
  ((fetch32_touches at_ inside).bind fun _ => .pure _).congr
    (Set.union_empty _)

/-- The loop over the bytes of a short string reads the rest of them. -/
theorem hash32Bytes_touches {rest : Nat} (b c : UInt32)
    (inside : i + rest ≤ s.length) :
    Touches (Set.Ico i (i + rest)) (hash32Bytes s rest i b c) := by
  induction rest generalizing i b c with
  | zero =>
      refine Touches.congr (.pure (b, c)) ?_
      simp
  | succ rest ih =>
      refine ((charAt_touches (by omega)).bind fun v =>
        ih _ _ (by omega)).congr ?_
      ext place
      simp only [Set.mem_union, Set.mem_Ico]
      omega

theorem hash32Len0to4_touches :
    Touches (Set.Iio s.length) (hash32Len0to4 s s.length) := by
  refine ((hash32Bytes_touches 0 9 (Nat.le_of_eq (Nat.zero_add _))).bind
    fun _ => .pure _).congr ?_
  ext place
  simp

theorem hash32Len5to12_touches (low : 5 ≤ s.length) (high : s.length ≤ 12) :
    Touches (Set.Iio s.length) (hash32Len5to12 s s.length) := by
  -- The middle word begins at `4` from eight bytes on and at `0` below.
  have middle : ∃ start, s.length >>> 1 &&& 4 = start ∧ start ≤ 4 ∧
      start + 4 ≤ s.length ∧ s.length ≤ start + 8 := by
    have starts : ∀ n ≤ 12, 5 ≤ n → n >>> 1 &&& 4 ≤ 4 ∧
        (n >>> 1 &&& 4) + 4 ≤ n ∧ n ≤ (n >>> 1 &&& 4) + 8 := by decide
    exact ⟨_, rfl, starts s.length high low⟩
  rcases middle with ⟨start, same, low, within, reaches⟩
  refine ((fetch32_touches (i := 0) rfl (by omega)).bind fun a =>
    (fetch32_touches (i := s.length - 4) (by omega) (by omega)).bind fun b =>
      (fetch32_touches (i := start) (by rw [same]) within).bind fun c =>
        .pure _).congr ?_
  ext place
  simp only [Set.mem_union, Set.mem_Ico, Set.mem_Iio,
    Set.mem_empty_iff_false, or_false]
  omega

theorem hash32Len13to24_touches (low : 13 ≤ s.length)
    (high : s.length ≤ 24) :
    Touches (Set.Iio s.length) (hash32Len13to24 s s.length) := by
  have half : s.length >>> 1 = s.length / 2 := Nat.shiftRight_eq_div_pow _ 1
  refine ((fetch32_touches (i := s.length / 2 - 4) (by omega) (by omega)).bind
    fun a => (fetch32_touches (i := 4) rfl (by omega)).bind
    fun b => (fetch32_touches (i := s.length - 8) (by omega) (by omega)).bind
    fun c => (fetch32_touches (i := s.length / 2) (by omega) (by omega)).bind
    fun d => (fetch32_touches (i := 0) rfl (by omega)).bind
    fun e => (fetch32_touches (i := s.length - 4) (by omega) (by omega)).bind
    fun f => .pure _).congr ?_
  ext place
  simp only [Set.mem_union, Set.mem_Ico, Set.mem_Iio,
    Set.mem_empty_iff_false, or_false]
  omega

/-- Before the loop the last twenty bytes are read. -/
theorem hash32Last_touches (long : 24 < s.length) :
    Touches (Set.Ico (s.length - 20) s.length) (hash32Last s s.length) := by
  refine ((fetchMixed_touches (i := s.length - 4) (by omega) (by omega)).bind
    fun a0 => (fetchMixed_touches (i := s.length - 8) (by omega)
      (by omega)).bind
    fun a1 => (fetchMixed_touches (i := s.length - 16) (by omega)
      (by omega)).bind
    fun a2 => (fetchMixed_touches (i := s.length - 12) (by omega)
      (by omega)).bind
    fun a3 => (fetchMixed_touches (i := s.length - 20) (by omega)
      (by omega)).bind
    fun a4 => .pure _).congr ?_
  ext place
  simp only [Set.mem_union, Set.mem_Ico, Set.mem_empty_iff_false, or_false]
  omega

/-- A round reads twenty bytes. -/
theorem hash32Round_touches (state : HashState) (at_ : p = i)
    (inside : i + 20 ≤ s.length) :
    Touches (Set.Ico i (i + 20)) (hash32Round s p state) := by
  refine ((fetchMixed_touches (i := i) (by omega) (by omega)).bind
    fun a0 => (fetch32_touches (i := i + 4) (by omega) (by omega)).bind
    fun a1 => (fetchMixed_touches (i := i + 8) (by omega) (by omega)).bind
    fun a2 => (fetchMixed_touches (i := i + 12) (by omega) (by omega)).bind
    fun a3 => (fetch32_touches (i := i + 16) (by omega) (by omega)).bind
    fun a4 => .pure _).congr ?_
  ext place
  simp only [Set.mem_union, Set.mem_Ico, Set.mem_empty_iff_false, or_false]
  omega

/-- The rounds read one block of twenty bytes after the other. -/
theorem hash32Rounds_touches {iters : Nat} (state : HashState) (at_ : p = i)
    (positive : 0 < iters) (inside : i + 20 * iters ≤ s.length) :
    Touches (Set.Ico i (i + 20 * iters)) (hash32Rounds s iters p state) := by
  induction iters generalizing i p state with
  | zero => exact absurd positive (Nat.lt_irrefl 0)
  | succ iters ih =>
      rw [hash32Rounds]
      by_cases last : iters = 0
      · subst last
        exact ((hash32Round_touches state at_ (by omega)).bind
          fun _ => .pure _).congr (Set.union_empty _)
      · have later : ∀ next, Touches (Set.Ico (i + 20) (i + 20 + 20 * iters))
            (if iters ≠ 0 then hash32Rounds s iters (p + 20) next
              else return next) := by
          intro next
          rw [if_pos last]
          exact ih next (by omega) (by omega) (by omega)
        refine ((hash32Round_touches state at_ (by omega)).bind later).congr ?_
        ext place
        simp only [Set.mem_union, Set.mem_Ico]
        omega

/-- The bytes that are read are those of the string. -/
theorem cityHash32_touches (s : ByteString) :
    Touches (Set.Iio s.length) (cityHash32 s s.length) := by
  rw [cityHash32]
  by_cases tiny : s.length ≤ 4
  · rw [if_pos tiny]
    exact hash32Len0to4_touches
  by_cases short : s.length ≤ 12
  · rw [if_neg tiny, if_pos short]
    exact hash32Len5to12_touches (by omega) short
  by_cases middling : s.length ≤ 24
  · rw [if_neg tiny, if_neg short, if_pos middling]
    exact hash32Len13to24_touches (by omega) middling
  · rw [if_neg tiny, if_neg short, if_neg middling]
    refine ((hash32Last_touches (by omega)).bind fun state =>
      (hash32Rounds_touches (i := 0) state rfl (by omega) (by omega)).bind
        fun _ => .pure _).congr ?_
    ext place
    simp only [Set.mem_union, Set.mem_Ico, Set.mem_Iio,
      Set.mem_empty_iff_false,
    or_false]
    omega

end

/-! ## The hash of the symbol table -/

/-- `MStringHash32`. -/
def mStringHash32 (string : ByteString) : UInt32 :=
  match cityHash32 string string.length [] with
  | .ok (hash, _) => hash
  | .error _ => 0

/--
`CityHash32` returns for every string, and the bytes it reads are exactly those
of the string.
-/
theorem cityHash32_reads (string : ByteString) :
    ∃ log, cityHash32 string string.length [] =
        .ok (mStringHash32 string, log) ∧
      ∀ i, i ∈ log ↔ i < string.length := by
  rcases (cityHash32_touches string).run with ⟨hash, log, returns, read⟩
  refine ⟨log, ?_, read⟩
  rw [mStringHash32, returns]

example : mStringHash32 [] = 0xdc56d17a := by decide +kernel

end Millie.Symbols
