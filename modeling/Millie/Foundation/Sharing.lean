import Mathlib.Data.Set.Card
import Mathlib.Logic.Function.Basic

/-!
# Sharing

Variables that hold references.  A variable that takes a reference adds one to
the number of those that hold it, and one that drops it takes one away.
-/

namespace Sharing

variable {V A : Type}

/-- The variables that hold a reference. -/
def holders (vars : V → Option A) (a : A) : Set V :=
  { x | vars x = some a }

/-- The variables that hold anything. -/
def occupied (vars : V → Option A) : Set V :=
  { x | vars x ≠ none }

section

variable {vars : V → Option A} {a b : A} {x : V}

@[simp]
theorem mem_holders : x ∈ holders vars a ↔ vars x = some a :=
  Iff.rfl

@[simp]
theorem mem_occupied : x ∈ occupied vars ↔ vars x ≠ none :=
  Iff.rfl

theorem holders_subset (vars : V → Option A) (a : A) :
    holders vars a ⊆ occupied vars := by
  intro x holds
  rw [mem_holders] at holds
  rw [mem_occupied, holds]
  exact Option.some_ne_none a

theorem count_le (finite : (occupied vars).Finite) (a : A) :
    (holders vars a).ncard ≤ (occupied vars).ncard :=
  Set.ncard_le_ncard (holders_subset vars a) finite

variable [DecidableEq V]

theorem finite_update (finite : (occupied vars).Finite) (x : V)
    (value : Option A) : (occupied (Function.update vars x value)).Finite := by
  refine (finite.insert x).subset fun y holds => ?_
  by_cases same : y = x
  · exact .inl same
  · rw [mem_occupied, Function.update_of_ne same] at holds
    exact .inr holds

/-- A variable that held nothing takes a reference. -/
theorem count_take (finite : (occupied vars).Finite) (null : vars x = none)
    (a : A) : (holders (Function.update vars x (some a)) a).ncard =
      (holders vars a).ncard + 1 := by
  have outside : x ∉ holders vars a := by
    rw [mem_holders, null]
    exact (Option.some_ne_none a).symm
  have more : holders (Function.update vars x (some a)) a =
      insert x (holders vars a) := by
    ext y
    by_cases same : y = x
    · subst same
      simp
    · simp [same]
  rw [more, Set.ncard_insert_of_notMem outside
    (finite.subset (holders_subset vars a))]

/-- A variable drops the reference that it held. -/
theorem count_drop (finite : (occupied vars).Finite) (holds : vars x = some a) :
    (holders (Function.update vars x none) a).ncard + 1 =
      (holders vars a).ncard := by
  have fewer : holders (Function.update vars x none) a =
      holders vars a \ {x} := by
    ext y
    by_cases same : y = x
    · subst same
      simp
    · simp [same]
  rw [fewer]
  exact Set.ncard_sdiff_singleton_add_one holds
    (finite.subset (holders_subset vars a))

/-- The other references have the same holders. -/
theorem holders_update_other {value : Option A} (before : vars x ≠ some a)
    (after : value ≠ some a) :
    holders (Function.update vars x value) a = holders vars a := by
  ext y
  by_cases same : y = x
  · subst same
    simp [before, after]
  · simp [same]

end

end Sharing
