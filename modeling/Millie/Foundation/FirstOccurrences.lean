import Mathlib.Data.List.Basic
import Mathlib.Data.Set.Function

/-!
# First occurrences

The members of a list in the order in which they first occur.  The position of
a member in this order is a name for it that does not depend on what the member
is: two lists have the same positions exactly when a one-to-one renaming turns
one into the other.
-/

namespace FirstOccurrences

variable {α β : Type*} [DecidableEq α] [DecidableEq β]

/-! ## The order of first occurrence -/

/-- Add a member at the end of a list that does not have it yet. -/
def insertLast (seen : List α) (a : α) : List α :=
  if a ∈ seen then seen else seen ++ [a]

/-- Add the members of a list, one after the other. -/
def firsts (seen list : List α) : List α :=
  list.foldl insertLast seen

section

variable {seen list xs ys : List α} {a : α} {f : α → β}

theorem insertLast_of_mem (member : a ∈ seen) : insertLast seen a = seen :=
  if_pos member

theorem insertLast_of_notMem (new : a ∉ seen) :
    insertLast seen a = seen ++ [a] :=
  if_neg new

@[simp]
theorem mem_insertLast {b : α} :
    b ∈ insertLast seen a ↔ b ∈ seen ∨ b = a := by
  by_cases member : a ∈ seen
  · rw [insertLast_of_mem member]
    exact ⟨.inl, fun either => either.elim id fun same => same ▸ member⟩
  · rw [insertLast_of_notMem member, List.mem_append, List.mem_singleton]

theorem firsts_append (seen xs ys : List α) :
    firsts seen (xs ++ ys) = firsts (firsts seen xs) ys :=
  List.foldl_append

@[simp]
theorem mem_firsts : a ∈ firsts seen list ↔ a ∈ seen ∨ a ∈ list := by
  induction list generalizing seen with
  | nil => simp [firsts]
  | cons b rest ih =>
      change a ∈ firsts (insertLast seen b) rest ↔ _
      rw [ih, mem_insertLast, List.mem_cons, or_assoc]

theorem nodup_insertLast (nodup : seen.Nodup) : (insertLast seen a).Nodup := by
  by_cases member : a ∈ seen
  · rwa [insertLast_of_mem member]
  · rw [insertLast_of_notMem member]
    refine List.nodup_append.mpr ⟨nodup, List.pairwise_singleton _ a, ?_⟩
    rintro b known c isLast rfl
    exact member (List.mem_singleton.mp isLast ▸ known)

theorem nodup_firsts (nodup : seen.Nodup) : (firsts seen list).Nodup := by
  induction list generalizing seen with
  | nil => exact nodup
  | cons b rest ih => exact ih (nodup_insertLast nodup)

/-- What was seen keeps its place. -/
theorem idxOf_firsts (member : a ∈ seen) :
    (firsts seen list).idxOf a = seen.idxOf a := by
  induction list generalizing seen with
  | nil => rfl
  | cons b rest ih =>
      change (firsts (insertLast seen b) rest).idxOf a = _
      rw [ih (mem_insertLast.mpr (.inl member))]
      by_cases known : b ∈ seen
      · rw [insertLast_of_mem known]
      · rw [insertLast_of_notMem known, List.idxOf_append_of_mem member]

theorem insertLast_map (injective : Set.InjOn f { b | b ∈ seen ∨ b = a }) :
    insertLast (seen.map f) (f a) = (insertLast seen a).map f := by
  by_cases member : a ∈ seen
  · rw [insertLast_of_mem member,
      insertLast_of_mem (List.mem_map_of_mem member)]
  · have new : f a ∉ seen.map f := by
      intro image
      rcases List.mem_map.mp image with ⟨b, known, same⟩
      exact member (injective (.inl known) (.inr rfl) same ▸ known)
    rw [insertLast_of_notMem member, insertLast_of_notMem new, List.map_append,
      List.map_singleton]

/-- A one-to-one renaming keeps the order. -/
theorem firsts_map (injective : Set.InjOn f { a | a ∈ seen ∨ a ∈ list }) :
    firsts (seen.map f) (list.map f) = (firsts seen list).map f := by
  induction list generalizing seen with
  | nil => rfl
  | cons b rest ih =>
      change firsts (insertLast (seen.map f) (f b)) (rest.map f) =
        (firsts (insertLast seen b) rest).map f
      rw [insertLast_map, ih]
      · apply injective.mono
        rintro a (known | later)
        · rcases mem_insertLast.mp known with old | rfl
          · exact .inl old
          · exact .inr List.mem_cons_self
        · exact .inr (List.mem_cons_of_mem _ later)
      · apply injective.mono
        rintro a (known | rfl)
        · exact .inl known
        · exact .inr List.mem_cons_self

end

/-! ## Positions -/

/-- The place of a member in the order of first occurrence. -/
def position (list : List α) (a : α) : Nat :=
  (firsts [] list).idxOf a

section

variable {xs ys list : List α} {a b : α}

theorem position_lt (member : a ∈ list) :
    position list a < (firsts [] list).length :=
  List.idxOf_lt_length_of_mem (mem_firsts.mpr (.inr member))

theorem position_inj (member : a ∈ list) :
    position list a = position list b ↔ a = b :=
  List.idxOf_inj (mem_firsts.mpr (.inr member))

theorem getElem?_position (member : a ∈ list) :
    (firsts [] list)[position list a]? = some a :=
  List.getElem?_idxOf (mem_firsts.mpr (.inr member))

/-- A one-to-one renaming keeps the positions. -/
theorem position_map {ρ : α → α} (injective : Set.InjOn ρ { a | a ∈ list })
    (member : a ∈ list) : position (list.map ρ) (ρ a) = position list a := by
  have order : firsts (([] : List α).map ρ) (list.map ρ) =
      (firsts [] list).map ρ :=
    firsts_map (injective.mono fun b inside =>
      inside.resolve_left List.not_mem_nil)
  rw [List.map_nil] at order
  have distinct : (firsts [] (list.map ρ)).Nodup := nodup_firsts List.nodup_nil
  have here : (firsts [] (list.map ρ))[position list a]? = some (ρ a) := by
    rw [order, List.getElem?_map, getElem?_position member, Option.map_some]
  rcases List.getElem?_eq_some_iff.mp here with ⟨inside, same⟩
  rw [position, ← same]
  exact distinct.idxOf_getElem _ inside

/-- The positions name the members up to a one-to-one renaming. -/
theorem map_position_eq_iff :
    xs.map (position xs) = ys.map (position ys) ↔
      ∃ ρ : α → α, Set.InjOn ρ { a | a ∈ xs } ∧ ys = xs.map ρ := by
  constructor
  · intro same
    have lengths : xs.length = ys.length := by
      simpa using congrArg List.length same
    let ρ : α → α := fun a => ((firsts [] ys)[position xs a]?).getD a
    have renamed : ∀ i (inXs : i < xs.length) (inYs : i < ys.length),
        position xs xs[i] = position ys ys[i] ∧ ρ xs[i] = ys[i] := by
      intro i inXs inYs
      have here : position xs xs[i] = position ys ys[i] := by
        have both := congrArg (·[i]?) same
        simpa [inXs, inYs] using both
      refine ⟨here, ?_⟩
      simp only [ρ, here, getElem?_position (List.getElem_mem inYs),
        Option.getD_some]
    refine ⟨ρ, ?_, ?_⟩
    · intro a memberA b memberB equal
      rcases List.getElem_of_mem memberA with ⟨i, inI, rfl⟩
      rcases List.getElem_of_mem memberB with ⟨j, inJ, rfl⟩
      rcases renamed i inI (lengths ▸ inI) with ⟨placeI, imageI⟩
      rcases renamed j inJ (lengths ▸ inJ) with ⟨placeJ, imageJ⟩
      rw [imageI, imageJ] at equal
      rw [← position_inj memberA, placeI, placeJ, equal]
    · apply List.ext_getElem
      · rw [List.length_map, lengths]
      · intro i inYs inMap
        rw [List.getElem_map]
        exact (renamed i (lengths ▸ inYs) inYs).2.symm
  · rintro ⟨ρ, injective, rfl⟩
    rw [List.map_map]
    exact List.map_congr_left fun a member =>
      (position_map injective member).symm

end

end FirstOccurrences
