import Millie.Foundation.Stop
import Mathlib.Logic.Function.Basic
import Mathlib.Data.List.Basic

/-!
# Bounded buffers

A heap block of a known number of cells.  Reading or writing outside the block
is undefined behaviour; growing keeps the contents.
-/

/-- A block of `size` cells. -/
structure Buffer (α : Type) where
  size : Nat
  cells : Nat → α

namespace Buffer

variable {α : Type}

/-- A fresh block; `uninit` is what its cells hold before they are written. -/
def malloc (size : Nat) (uninit : Nat → α) : Buffer α :=
  ⟨size, uninit⟩

/-- A block of a new size with the old contents. -/
def realloc (buffer : Buffer α) (size : Nat) (uninit : Nat → α) :
    Buffer α :=
  ⟨size, fun i => if i < buffer.size then buffer.cells i else uninit i⟩

def read (buffer : Buffer α) (i : Nat) : Except Stop α :=
  if i < buffer.size then .ok (buffer.cells i)
  else .error .undefinedBehaviour

def write (buffer : Buffer α) (i : Nat) (value : α) :
    Except Stop (Buffer α) :=
  if i < buffer.size then
    .ok { buffer with cells := Function.update buffer.cells i value }
  else .error .undefinedBehaviour

/-- The first `count` cells. -/
def front (buffer : Buffer α) (count : Nat) : List α :=
  (List.range count).map buffer.cells

@[simp]
theorem length_front (buffer : Buffer α) (count : Nat) :
    (buffer.front count).length = count := by
  simp [front]

theorem front_succ (buffer : Buffer α) (count : Nat) :
    buffer.front (count + 1) = buffer.front count ++ [buffer.cells count] := by
  simp [front, List.range_succ]

theorem read_ok {buffer : Buffer α} {i : Nat} {value : α}
    (ok : buffer.read i = .ok value) :
    i < buffer.size ∧ value = buffer.cells i := by
  unfold read at ok
  split at ok
  · rename_i inside
    exact ⟨inside, (Except.ok.inj ok).symm⟩
  · cases ok

theorem write_ok {buffer after : Buffer α} {i : Nat} {value : α}
    (ok : buffer.write i value = .ok after) :
    i < buffer.size ∧ after.size = buffer.size ∧
      after.cells = Function.update buffer.cells i value := by
  unfold write at ok
  split at ok
  · rename_i inside
    cases ok
    exact ⟨inside, rfl, rfl⟩
  · cases ok

/-- Writing the cell after the front extends the front. -/
theorem front_write_end {buffer after : Buffer α} {count : Nat} {value : α}
    (ok : buffer.write count value = .ok after) :
    after.front (count + 1) = buffer.front count ++ [value] := by
  rcases write_ok ok with ⟨-, -, cells⟩
  rw [front_succ, cells, Function.update_self]
  congr 1
  refine List.map_congr_left fun i member => ?_
  rw [cells, Function.update_of_ne (Nat.ne_of_lt (List.mem_range.mp member))]

/-- Writing inside the front replaces one element. -/
theorem front_write_inside {buffer after : Buffer α} {count i : Nat}
    {value : α} (ok : buffer.write i value = .ok after) :
    after.front count = (buffer.front count).set i value := by
  rcases write_ok ok with ⟨-, -, cells⟩
  refine List.ext_getElem (by simp) fun j left right => ?_
  simp only [front, List.getElem_map, List.getElem_range,
    List.getElem_set, cells]
  by_cases same : i = j
  · simp [same]
  · rw [Function.update_of_ne (Ne.symm same), if_neg same]

theorem front_realloc {buffer : Buffer α} {count size : Nat}
    {uninit : Nat → α} (kept : count ≤ buffer.size) :
    (buffer.realloc size uninit).front count = buffer.front count := by
  refine List.map_congr_left fun i member => ?_
  have inside : i < buffer.size :=
    Nat.lt_of_lt_of_le (List.mem_range.mp member) kept
  simp [realloc, inside]

end Buffer
