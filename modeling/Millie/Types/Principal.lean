import Millie.Types.Completeness
import Millie.Types.Naming

/-!
# The text of a principal type

An expression has one principal type up to the names of its variables, and the
text of the type that the checker returns is the text of every principal type.
-/

namespace Millie.Types

open Weakest FirstOccurrences
open Millie.Symbols Millie.Syntax

/-! ## Instances of each other -/

namespace Ty

variable {α β : Type} {s t : Ty α}

/-- A substitution is determined on the leaves of a type by its result. -/
theorem bind_inj {first second : α → Ty β}
    (same : s.bind first = s.bind second) :
    ∀ a ∈ s.leaves, first a = second a := by
  induction s with
  | leaf a =>
      intro b member
      rw [List.mem_singleton.mp member]
      exact same
  | int | bool => exact fun a member => absurd member List.not_mem_nil
  | func left right leftIh rightIh =>
      rcases func.inj same with ⟨sameLeft, sameRight⟩
      exact List.forall_mem_append.mpr ⟨leftIh sameLeft, rightIh sameRight⟩
  | tuple left right leftIh rightIh =>
      rcases tuple.inj same with ⟨sameLeft, sameRight⟩
      exact List.forall_mem_append.mpr ⟨leftIh sameLeft, rightIh sameRight⟩
  | tupleFinal first firstIh => exact firstIh (tupleFinal.inj same)

/-- What a substitution turns into a leaf is one. -/
theorem leaf_of_bind {image : α → Ty β} {b : β}
    (same : s.bind image = leaf b) : ∃ a, s = leaf a := by
  cases s with
  | leaf a => exact ⟨a, rfl⟩
  | _ => cases same

/-- Types that are instances of each other are alike. -/
theorem alike_of_instances {first second : α → Ty α}
    (left : t = s.bind first) (right : s = t.bind second) : s.Alike t := by
  have back : ∀ a ∈ s.leaves, (first a).bind second = leaf a := by
    refine bind_inj ?_
    rw [← bind_bind, ← left, ← right, bind_leaf]
  have leaves_ : ∀ a, ∃ b, a ∈ s.leaves → first a = leaf b := by
    intro a
    by_cases member : a ∈ s.leaves
    · rcases leaf_of_bind (back a member) with ⟨b, isLeaf⟩
      exact ⟨b, fun _ => isLeaf⟩
    · exact ⟨a, fun inside => absurd inside member⟩
  choose ρ isLeaf using leaves_
  refine ⟨ρ, fun a memberA b memberB same => ?_, ?_⟩
  · have images : first a = first b := by
      rw [isLeaf a memberA, isLeaf b memberB, same]
    have roots := back a memberA
    rw [images, back b memberB] at roots
    exact (leaf.inj roots).symm
  · rw [left]
    exact bind_congr isLeaf

end Ty

/-! ## Principal types -/

/-- The types of an expression are the instances of this one. -/
def PrincipalType (expression : Expression) (s : Ty Leaf) : Prop :=
  ∀ t, Typing [] expression t ↔
    ∃ σ, PlainFor (Leaf.under σ) ∧ t = s.bind (Leaf.under σ)

/-- Alike types have the same names for their leaves. -/
theorem Ty.Alike.named {α : Type} [DecidableEq α] {s t : Ty α}
    (alike : s.Alike t) : s.named = t.named := by
  have same := congrArg (rename · typeName) (alike_iff_positions.mp alike)
  rw [Ty.named, Ty.named]
  simpa only [rename_rename] using same

/-- Alike types have as many leaves. -/
theorem Ty.Alike.length_firsts {α : Type} [DecidableEq α] {s t : Ty α}
    (alike : s.Alike t) :
    (firsts [] t.leaves).length = (firsts [] s.leaves).length := by
  rcases alike with ⟨ρ, injective, rfl⟩
  have onLeaves : Set.InjOn ρ { a | a ∈ [] ∨ a ∈ s.leaves } := by
    simpa using injective
  have mapped := firsts_map onLeaves
  rw [List.map_nil] at mapped
  rw [leaves_rename, mapped, List.length_map]

/-- An open node stands for its leaf. -/
theorem TypeGraph.Open.denotes {graph : TypeGraph} {v : TypePointer}
    (open_ : graph.Open v) : Denotes graph v (.leaf (graph.leafAt v)) := by
  rcases open_ with ⟨isVariable | isGeneric, none_⟩
  · rw [TypeGraph.leafAt, if_pos isVariable]
    exact .of_unbound ⟨isVariable, none_⟩
  · have other : (graph.nodes v).type ≠ .variable_ := by
      rw [isGeneric]
      decide
    rw [TypeGraph.leafAt, if_neg other]
    cases node : graph.nodes v with
    | mk type first second =>
        rw [node] at isGeneric none_
        cases isGeneric
        cases none_
        exact .generic node

/-- There are names for a type if there are for the leaves of its term. -/
theorem Denotes.nameable {graph : TypeGraph} {p : TypePointer} {t : Ty Leaf}
    (denotes : Denotes graph p t)
    (few : (firsts [] t.leaves).length ≤ typeNames.length) :
    graph.Nameable p := by
  have leaves_ : ∀ v ∈ graph.openNodes p,
      graph.leafAt v ∈ (firsts [] t.leaves).toFinset := by
    rintro v ⟨path, open_⟩
    rcases denotes.reaches path with ⟨s, here, inside⟩
    rw [here.unique open_.denotes] at inside
    have member := inside (List.mem_singleton_self _)
    exact List.mem_toFinset.mpr (mem_firsts.mpr (.inr member))
  refine Nat.le_trans ?_ few
  rw [← List.toFinset_card_of_nodup (nodup_firsts List.nodup_nil),
    ← Set.ncard_coe_finset]
  exact Set.ncard_le_ncard_of_injOn graph.leafAt leaves_
    graph.leafAt_injective.injOn (Finset.finite_toSet _)

section

variable {expression : Expression} {s t : Ty Leaf}

theorem PrincipalType.typing (principal : PrincipalType expression s) :
    Typing [] expression s := by
  refine (principal s).mpr ⟨fun v => .leaf (.variable_ v), ?_, ?_⟩
  · intro v a member
    exact ⟨v, List.mem_singleton.mp member⟩
  · rw [Leaf.under_variable, Ty.bind_leaf]

/-- Two principal types of an expression are alike. -/
theorem PrincipalType.alike (left : PrincipalType expression s)
    (right : PrincipalType expression t) : s.Alike t := by
  rcases (left t).mp right.typing with ⟨σ, -, isInstance⟩
  rcases (right s).mp left.typing with ⟨τ, -, isInstance'⟩
  exact Ty.alike_of_instances isInstance isInstance'

/--
The type that the checker returns has a text exactly if there are names enough,
and then the text of the principal type.
-/
theorem PrincipalType.formats_iff {tokens : Tokens} {fuel : Nat}
    {type : TypePointer} {after : CheckState} {text : String}
    (principal : PrincipalType expression s)
    (functions : RecursiveFunctions expression)
    (returns : getExpressionType tokens fuel expression = (.ok type, after))
    (quiet : after.errors = []) :
    (∃ enough graph, formatTypeExpression enough type after.graph =
        .ok (text, graph)) ↔
      (firsts [] s.leaves).length ≤ typeNames.length ∧
        text = s.named.print := by
  have advances :=
    of_wp (analyze_advances tokens fuel expression ready_static) returns
  have wellFormed := advances.progress.wellFormed
  have clean := advances.progress.clean
  have inside : type < after.graph.size :=
    advances.inside (.inl List.mem_cons_self)
  rcases getExpressionType_instances functions returns quiet with
    ⟨t, denotes, instances⟩
  have found : PrincipalType expression t := instances
  have noError : Leaf.error ∉ t.leaves := by
    intro member
    rcases found.typing.plain _ member with ⟨v, impossible⟩
    cases impossible
  have alike := principal.alike found
  rw [alike.named, ← alike.length_firsts]
  constructor
  · rintro ⟨enough, graph, formats⟩
    have named := of_wpExcept (formatTypeExpression_text wellFormed clean enough
      denotes inside noError) formats
    exact ⟨named.2, named.1⟩
  · rintro ⟨few, rfl⟩
    have shows_ := shows_named wellFormed clean denotes inside noError
      (denotes.nameable few)
    rcases shows_.settles.returns with ⟨enough, formats⟩
    exact ⟨enough, after.graph, formats⟩

end

end Millie.Types
