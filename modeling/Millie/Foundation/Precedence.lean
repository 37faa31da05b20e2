import Mathlib.Data.Set.Insert

/-!
# What comes first in a list

An element comes ahead of a set in a list if it occurs before every element of
the set.  A walk along one list that looks up in another list each element that
it meets for the first time, and fails at the elements that it has met, succeeds
exactly if the two lists have those elements in opposite orders.
-/

namespace Precedence

variable {α : Type} {a v : α} {set visited : Set α} {list rest : List α}

/-- Every element of the set comes after the element. -/
def Ahead (a : α) (set : Set α) : List α → Prop
  | [] => True
  | x :: rest => x ∉ set ∧ (x = a ∨ Ahead a set rest)

theorem ahead_append (outside : a ∉ set) (first second : List α) :
    Ahead a set (first ++ second) ↔
      Ahead a set first ∧ (a ∉ first → Ahead a set second) := by
  induction first with
  | nil => simp [Ahead]
  | cons x first ih =>
      rw [List.cons_append, Ahead, Ahead, ih]
      by_cases here : x = a
      · simp [here, outside]
      · simp [here, Ne.symm here, and_assoc]

theorem ahead_iff : Ahead a set list ↔ ∀ b ∈ set, Ahead a {b} list := by
  induction list with
  | nil => simp [Ahead]
  | cons x list ih =>
      simp only [Ahead, ih, Set.mem_singleton_iff]
      constructor
      · rintro ⟨outside, here | later⟩ b member
        · exact ⟨fun same => outside (same ▸ member), .inl here⟩
        · exact ⟨fun same => outside (same ▸ member), .inr (later b member)⟩
      · intro ahead
        refine ⟨fun member => (ahead x member).1 rfl, ?_⟩
        by_cases here : x = a
        · exact .inl here
        · exact .inr fun b member => (ahead b member).2.resolve_left here

/-- Only the elements of the set that occur in the list matter. -/
theorem ahead_congr {other : Set α} (same : ∀ b ∈ list, b ∈ set ↔ b ∈ other) :
    Ahead a set list ↔ Ahead a other list := by
  induction list with
  | nil => rfl
  | cons x list ih =>
      rw [Ahead, Ahead, same x (List.mem_cons_self ..),
        ih fun b member => same b (List.mem_cons_of_mem x member)]

/-- A walk along a list finds every new element ahead of those it has met. -/
def Walks (list : List α) (visited : Set α) : List α → Prop
  | [] => True
  | v :: rest =>
      (v ∈ visited ∨ Ahead v visited list) ∧
        Walks list (insert v visited) rest

theorem walks_append (first second : List α) :
    Walks list visited (first ++ second) ↔
      Walks list visited first ∧
        Walks list (visited ∪ { v | v ∈ first }) second := by
  induction first generalizing visited with
  | nil => simp [Walks]
  | cons x first ih =>
      have union : insert x visited ∪ { v | v ∈ first } =
          visited ∪ { v | v ∈ x :: first } := by
        ext v
        simp [or_assoc, or_left_comm]
      rw [List.cons_append, Walks, Walks, ih, union, and_assoc]

theorem walks_iff :
    Walks list visited rest ↔
      ∀ v ∈ rest, v ∉ visited →
        ∀ w, w ∈ visited ∨ Ahead w {v} rest → Ahead v {w} list := by
  induction rest generalizing visited with
  | nil => simp [Walks]
  | cons u rest ih =>
      rw [Walks, ih, ahead_iff]
      constructor
      · rintro ⟨here, later⟩ v member fresh w before
        by_cases same : v = u
        · subst same
          rcases before with met | ahead
          · exact (here.resolve_left fresh) w met
          · exact absurd rfl ahead.1
        · have inRest := (List.mem_cons.mp member).resolve_left same
          apply later v inRest (by simp [same, fresh]) w
          rcases before with met | ⟨-, rfl | ahead⟩
          · exact .inl (.inr met)
          · exact .inl (.inl rfl)
          · exact .inr ahead
      · intro all
        constructor
        · by_cases met : u ∈ visited
          · exact .inl met
          · exact .inr fun w member =>
              all u (List.mem_cons_self ..) met w (.inl member)
        · intro v member fresh w before
          have other : u ≠ v := fun same => fresh (.inl same.symm)
          apply all v (List.mem_cons_of_mem u member)
            (fun met => fresh (.inr met)) w
          rcases before with (rfl | met) | ahead
          · exact .inr ⟨other, .inl rfl⟩
          · exact .inl met
          · exact .inr ⟨other, .inr ahead⟩

/--
Whenever one element comes ahead of another in the first list, the other comes
ahead of it in the second one.
-/
def Opposed (first second : List α) : Prop :=
  ∀ v ∈ first, ∀ w, Ahead w {v} first → Ahead v {w} second

/-- A walk that starts fresh asks for opposite orders. -/
theorem walks_empty_iff : Walks list ∅ rest ↔ Opposed rest list := by
  rw [walks_iff]
  simp [Opposed]

end Precedence
