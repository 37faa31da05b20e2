import Millie.Types.Unify
import Mathlib.Order.CompletePartialOrder

/-!
# Termination of unification

Every instance leaves fewer unbound variables, and between two instances the
ranks of the two types fall.  So two types of a regular graph always have a
unification, and with enough fuel `_UnifyImpl` carries it out, unless it has to
report a failure of types with more variables than there are names.
-/

namespace Millie.Types

open Relation Links Weakest
open Millie.Syntax

/-! ## Regular graphs -/

/-- A graph that every operation can work on. -/
structure TypeGraph.Regular (graph : TypeGraph) : Prop where
  wellFormed : graph.WellFormed
  clean : graph.Clean
  ranked : graph.Ranked

/-- The unbound variables of a graph. -/
def TypeGraph.unbound (graph : TypeGraph) : Set TypePointer :=
  { v | v < graph.size ∧ graph.Unbound v }

section

variable {graph middle after : TypeGraph} {p q r s a b : TypePointer}
  {moments : List TypeGraph}

theorem TypeGraph.finite_unbound (graph : TypeGraph) : graph.unbound.Finite :=
  (Set.finite_lt_nat graph.size).subset fun _ member => member.1

theorem TypeGraph.bind_unbound (inside : a < graph.size)
    (unbound : graph.Unbound a) : (graph.bind a b).unbound ⊂ graph.unbound := by
  have bound : ¬(graph.bind a b).Unbound a := by
    rw [TypeGraph.Unbound, TypeGraph.bind_node]
    exact fun none_ => absurd none_.2 (Option.some_ne_none b)
  refine Set.ssubset_iff_of_subset ?_ |>.mpr ⟨a, ⟨inside, unbound⟩, fun member =>
    bound member.2⟩
  rintro v ⟨insideV, unboundV⟩
  have other : v ≠ a := by
    rintro rfl
    exact bound unboundV
  rw [TypeGraph.Unbound, TypeGraph.bind_old graph b other] at unboundV
  exact ⟨insideV, unboundV⟩

/-- A graph in which nothing was bound, or with fewer unbound variables. -/
def TypeGraph.Settles (graph after : TypeGraph) : Prop :=
  after = graph ∨ after.unbound ⊂ graph.unbound

theorem TypeGraph.Settles.trans (first : graph.Settles middle)
    (second : middle.Settles after) : graph.Settles after := by
  rcases first with rfl | fewer
  · exact second
  · rcases second with rfl | fewer'
    · exact .inr fewer
    · exact .inr (fewer'.trans fewer)

namespace Unifies

theorem settles (unifies : Unifies graph p q moments after)
    (wellFormed : graph.WellFormed) (clean : graph.Clean)
    (insideP : p < graph.size) (insideQ : q < graph.size) :
    graph.Settles after := by
  induction unifies with
  | prunes left right _ ih =>
      exact ih wellFormed clean (wellFormed.reaches_lt insideP left.reaches)
        (wellFormed.reaches_lt insideQ right.reaches)
  | binds oriented unbound noError pruned apart =>
      rcases oriented.either with ⟨rfl, rfl⟩ | ⟨rfl, rfl⟩
      · exact .inr (TypeGraph.bind_unbound insideP unbound)
      · exact .inr (TypeGraph.bind_unbound insideQ unbound)
  | both joins left right firsts _ firstIh secondIh =>
      have linkP := joins.links left
      have linkQ := joins.links right
      have insideA := wellFormed.link_lt insideP linkP.1
      have insideC := wellFormed.link_lt insideQ linkQ.1
      rcases firsts.keeps wellFormed clean insideA insideC with
        ⟨wellFormed', clean'⟩
      have size := firsts.size_eq
      apply (firstIh wellFormed clean insideA insideC).trans
      apply secondIh wellFormed' clean'
      · rw [size]
        exact wellFormed.link_lt insideP linkP.2
      · rw [size]
        exact wellFormed.link_lt insideQ linkQ.2
  | final left right firsts ih =>
      exact ih wellFormed clean
        (wellFormed.link_lt insideP (.inl (by rw [left])))
        (wellFormed.link_lt insideQ (.inl (by rw [right])))
  | _ => exact .inl rfl

theorem regular (unifies : Unifies graph p q moments after)
    (regular : graph.Regular) (insideP : p < graph.size)
    (insideQ : q < graph.size) : after.Regular := by
  rcases unifies.keeps regular.wellFormed regular.clean insideP insideQ with
    ⟨wellFormed, clean⟩
  exact ⟨wellFormed, clean, unifies.ranked regular.ranked⟩

end Unifies

/-! ## Every two types have a unification -/

theorem TypeGraph.Regular.prunes (regular : graph.Regular)
    (inside : p < graph.size) : ∃ q, Prunes graph p q := by
  rcases regular.ranked.ranksFrom regular.wellFormed inside with ⟨rank, ranks⟩
  rcases returns_of_wpExcept (pruneTypeExp_spec (rank p + 1) p graph)
    (fun stop starved => Nat.not_succ_le_self _ (starved.2 rank ranks)) with
    ⟨q, -, -, -, prunes⟩
  exact ⟨q, prunes⟩

/-- A variable and another type. -/
theorem unifies_variable (oriented : Oriented graph p q a b)
    (unbound : graph.Unbound a) (noError : (graph.nodes b).type ≠ .error)
    (pruned : ∀ r, ¬graph.Bound b r) :
    ∃ moments after, Unifies graph p q moments after := by
  by_cases same : a = b
  · subst same
    have both : p = a ∧ q = a := by
      rcases oriented.either with ⟨rfl, rfl⟩ | ⟨rfl, same⟩
      · exact ⟨rfl, rfl⟩
      · exact ⟨same.symm, rfl⟩
    rw [both.1, both.2]
    exact ⟨[], graph, .same unbound⟩
  by_cases contained : graph.Reaches b a
  · exact ⟨[graph], graph, .recursive oriented unbound same pruned contained⟩
  · exact ⟨[], graph.bind a b, .binds oriented unbound noError pruned contained⟩

/-- Two types that are pruned, from the unifications of their arguments. -/
theorem unifies_pruned (wellFormed : graph.WellFormed) (clean : graph.Clean)
    (insideP : p < graph.size) (insideQ : q < graph.size)
    (endedP : ∀ r, ¬graph.Bound p r) (endedQ : ∀ r, ¬graph.Bound q r)
    (arguments : ∀ {middle : TypeGraph} {a c : TypePointer},
      graph.Settles middle → middle.size = graph.size →
      (graph.Regular → middle.Regular) → graph.Link p a →
      graph.Link q c → ∃ moments after, Unifies middle a c moments after) :
    ∃ moments after, Unifies graph p q moments after := by
  have here : ∀ {a c : TypePointer}, graph.Link p a → graph.Link q c →
      ∃ moments after, Unifies graph a c moments after :=
    arguments (.inl rfl) rfl id
  have refl : ∀ {p}, (∀ r, ¬graph.Bound p r) → Prunes graph p p :=
    fun ended => ⟨.refl, ended⟩
  by_cases errorP : (graph.nodes p).type = .error
  · exact ⟨[], graph, .bails (.inl errorP)⟩
  by_cases errorQ : (graph.nodes q).type = .error
  · exact ⟨[], graph, .bails (.inr errorQ)⟩
  by_cases variableQ : (graph.nodes q).type = .variable_
  · exact unifies_variable (.swapped variableQ)
      ((refl endedQ).unbound variableQ) errorP endedP
  by_cases variableP : (graph.nodes p).type = .variable_
  · exact unifies_variable (.straight variableQ variableP)
      ((refl endedP).unbound variableP) errorQ endedQ
  by_cases different : (graph.nodes p).type ≠ (graph.nodes q).type
  · exact ⟨[graph], graph,
      .clash variableP variableQ ⟨errorP, errorQ⟩ different⟩
  have same := not_not.mp different
  have both : ∀ {kind : TypeExpType} {join : Ty Leaf → Ty Leaf → Ty Leaf}
      {a b c d : TypePointer}, Joins kind join →
      graph.nodes p = ⟨kind, some a, .type b⟩ →
      graph.nodes q = ⟨kind, some c, .type d⟩ →
      ∃ moments after, Unifies graph p q moments after := by
    intro kind join a b c d joins left right
    have linkP := joins.links left
    have linkQ := joins.links right
    have insideA := wellFormed.link_lt insideP linkP.1
    have insideC := wellFormed.link_lt insideQ linkQ.1
    rcases here linkP.1 linkQ.1 with ⟨first, middle, firsts⟩
    rcases arguments (firsts.settles wellFormed clean insideA insideC)
      firsts.size_eq (fun regular => firsts.regular regular insideA insideC)
      linkP.2 linkQ.2 with ⟨second, after, seconds⟩
    exact ⟨_, _, .both joins left right firsts seconds⟩
  have shapedP := wellFormed.shaped p insideP
  have shapedQ := wellFormed.shaped q insideQ
  generalize left : graph.nodes p = expP at *
  generalize right : graph.nodes q = expQ at *
  cases shapedP with
  | unbound | bound => exact absurd rfl variableP
  | error => exact absurd rfl errorP
  | generic | int | bool =>
      exact ⟨[], graph, .leaves (by rw [left]; simp) (by rw [left, right, same])⟩
  | func _ _ =>
      cases shapedQ <;> cases same
      exact both .func rfl rfl
  | tuple _ _ =>
      cases shapedQ <;> cases same
      exact both .tuple rfl rfl
  | tupleFinal _ =>
      cases shapedQ <;> cases same
      rcases here (.inl (by rw [left])) (.inl (by rw [right])) with
        ⟨moments, after, firsts⟩
      exact ⟨_, _, .final left right firsts⟩

/-- Every two types have a unification. -/
theorem unifies_total (regular : graph.Regular) (insideP : p < graph.size)
    (insideQ : q < graph.size) :
    ∃ moments after, Unifies graph p q moments after := by
  induction count : graph.unbound.ncard using Nat.strong_induction_on
    generalizing graph p q with
  | _ n outer =>
      subst count
      rcases regular.ranked with ⟨rank, ranks⟩
      induction sum : rank p + rank q using Nat.strong_induction_on
        generalizing p q with
      | _ m inner =>
          subst sum
          rcases regular.prunes insideP with ⟨r, left⟩
          rcases regular.prunes insideQ with ⟨s, right⟩
          have insideR := regular.wellFormed.reaches_lt insideP left.reaches
          have insideS := regular.wellFormed.reaches_lt insideQ right.reaches
          have from_ : ∀ {p}, p < graph.size → RanksFrom graph p rank :=
            fun inside r s path link =>
              ranks r s ⟨regular.wellFormed.reaches_lt inside path, link⟩
          suffices pruned : ∃ moments after, Unifies graph r s moments after by
            rcases pruned with ⟨moments, after, unifies⟩
            exact ⟨moments, after, .prunes left right unifies⟩
          apply unifies_pruned regular.wellFormed regular.clean insideR insideS
            left.ended right.ended
          intro middle a c settles size keeps linkR linkS
          have insideA := regular.wellFormed.link_lt insideR linkR
          have insideC := regular.wellFormed.link_lt insideS linkS
          rcases settles with rfl | fewer
          · apply inner (rank a + rank c) ?_ insideA insideC rfl
            have fallsA := ranks r a ⟨insideR, linkR⟩
            have fallsC := ranks s c ⟨insideS, linkS⟩
            have lowR := (from_ insideP).le left.reaches
            have lowS := (from_ insideQ).le right.reaches
            omega
          · exact outer _ (Set.ncard_lt_ncard fewer graph.finite_unbound)
              (keeps regular) (size ▸ insideA) (size ▸ insideC) rfl

end

end Millie.Types
