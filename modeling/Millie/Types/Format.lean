import Millie.Types.Follow
import Mathlib.Data.Set.Card

/-!
# Formatting

Formatting a type names its variables in their scratch fields and clears the
names again, so it leaves a clean graph as it was.  It returns when there are
names for all of them.
-/

namespace Millie.Types

open Relation Links Weakest

/-- A clean graph in which some open nodes have been given names. -/
structure Named (base : TypeGraph) (set : Set TypePointer)
    (graph : TypeGraph) : Prop where
  size : graph.size = base.size
  nodes : ∀ v, graph.nodes v = base.nodes v ∨
    v ∈ set ∧ ∃ text,
      graph.nodes v = { base.nodes v with second := .name text }

namespace Named

variable {base graph : TypeGraph} {set : Set TypePointer}

theorem same (named : Named base set graph)
    (opens : ∀ v ∈ set, base.Open v) (v : TypePointer) :
    (base.nodes v).Same (graph.nodes v) := by
  rcases named.nodes v with unchanged | ⟨member, text, renamed⟩
  · rw [unchanged]
    exact .refl _
  · rw [renamed]
    exact ⟨rfl, rfl, .inl (opens v member).1⟩

theorem allocates (named : Named base set graph)
    (opens : ∀ v ∈ set, base.Open v) : base.Allocates graph :=
  ⟨Nat.le_of_eq named.size.symm, fun v _ => named.same opens v⟩

theorem wellFormed (named : Named base set graph)
    (wellFormed : base.WellFormed) (opens : ∀ v ∈ set, base.Open v) :
    graph.WellFormed :=
  wellFormed.same named.size (named.same opens)

/-- Naming one more node. -/
theorem name (named : Named base set graph) {v : TypePointer}
    (member : v ∈ set) (text : String) :
    Named base set (graph.mark v (.name text)) := by
  refine ⟨named.size, fun w => ?_⟩
  by_cases here : w = v
  · subst here
    refine .inr ⟨member, text, ?_⟩
    rw [TypeGraph.mark_node]
    rcases named.nodes w with unchanged | ⟨-, other, renamed⟩
    · rw [unchanged]
    · rw [renamed]
  · rw [TypeGraph.mark_old graph _ here]
    exact named.nodes w

end Named

/-- Naming more nodes later. -/
theorem Named.mono {base graph : TypeGraph} {set more : Set TypePointer}
    (named : Named base set graph) (subset : set ⊆ more) :
    Named base more graph :=
  ⟨named.size, fun v => (named.nodes v).imp_right (.imp_left (subset ·))⟩

/-- Every node of a set has a name, and the counter has counted them. -/
structure Counted (base : TypeGraph) (set : Set TypePointer)
    (graph : TypeGraph) (counter : Nat) : Prop extends
    Named base set graph where
  opens : ∀ v ∈ set, base.Open v
  names : ∀ v ∈ set, ∃ text, (graph.nodes v).second = .name text
  finite : set.Finite
  counts : set.ncard = counter
  enough : counter ≤ typeNames.length

namespace Counted

variable {base graph : TypeGraph} {set : Set TypePointer} {counter : Nat}

theorem start (graph : TypeGraph) : Counted graph ∅ graph 0 where
  size := rfl
  nodes _ := .inl rfl
  opens := nofun
  names := nofun
  finite := Set.finite_empty
  counts := Set.ncard_empty _
  enough := Nat.zero_le _

/-- An open node without a name is not in the set yet. -/
theorem fresh (counted : Counted base set graph counter) {v : TypePointer}
    (unnamed : (graph.nodes v).second = .null) : v ∉ set := by
  intro member
  rcases counted.names v member with ⟨text, name⟩
  rw [unnamed] at name
  cases name

/-- A node that has a name in a clean graph got it here. -/
theorem member (counted : Counted base set graph counter) (clean : base.Clean)
    {v : TypePointer} (inside : v < base.size) (open_ : base.Open v)
    (named : (graph.nodes v).second ≠ .null) : v ∈ set := by
  rcases counted.nodes v with unchanged | ⟨member, -⟩
  · rw [unchanged, clean v inside open_.1] at named
    exact absurd rfl named
  · exact member

/-- The next name. -/
theorem name (counted : Counted base set graph counter) {v : TypePointer}
    (open_ : base.Open v) (unnamed : (graph.nodes v).second = .null)
    (text : String) (enough : counter < typeNames.length) :
    Counted base (set ∪ {v}) (graph.mark v (.name text)) (counter + 1) where
  toNamed := (counted.toNamed.mono Set.subset_union_left).name (by simp) text
  opens := by
    rintro w (member | rfl)
    · exact counted.opens w member
    · exact open_
  names := by
    intro w member
    by_cases here : w = v
    · rw [here, TypeGraph.mark_node]
      exact ⟨text, rfl⟩
    · rw [TypeGraph.mark_old graph _ here]
      exact counted.names w (member.resolve_right here)
  finite := counted.finite.union (Set.finite_singleton v)
  counts := by
    rw [Set.union_singleton,
      Set.ncard_insert_of_notMem (counted.fresh unnamed) counted.finite,
      counted.counts]
  enough := enough

end Counted

/-- Formatting stops for lack of fuel, or when it runs out of names. -/
def StarvedNames (graph : TypeGraph) (set : Set TypePointer) (fuel : Nat)
    (p : TypePointer) : Stop → Prop := fun reason =>
  reason = .undefinedBehaviour ∧
      typeNames.length < (set ∪ graph.openNodes p).ncard ∨
    StarvedWalk graph fuel p reason

theorem TypeGraph.WellFormed.finite_openNodes {graph : TypeGraph}
    (wellFormed : graph.WellFormed) {p : TypePointer}
    (inside : p < graph.size) : (graph.openNodes p).Finite :=
  (Set.finite_lt_nat graph.size).subset fun _ member =>
    wellFormed.reaches_lt inside member.1

/-- What formatting an argument leaves serves the type that has it. -/
theorem StarvedNames.link {graph : TypeGraph} {set more : Set TypePointer}
    {fuel : Nat} {p q r : TypePointer} (prunes : Prunes graph p q)
    (link : graph.Link q r) (finite : (more ∪ graph.openNodes p).Finite)
    (subset : set ∪ graph.openNodes r ⊆ more ∪ graph.openNodes p)
    {reason : Stop} (starved : StarvedNames graph set fuel r reason) :
    StarvedNames graph more (fuel + 1) p reason := by
  rcases starved with ⟨undefined, few⟩ | starved
  · exact .inl ⟨undefined,
      Nat.lt_of_lt_of_le few (Set.ncard_le_ncard subset finite)⟩
  · exact .inr (.link prunes link starved)

theorem formatTypeExpressionImpl_spec {base : TypeGraph}
    (wellFormed : base.WellFormed) (clean : base.Clean) (fuel : Nat)
    (p : TypePointer) {set : Set TypePointer} {counter : Nat}
    {graph : TypeGraph} (counted : Counted base set graph counter)
    (inside : p < base.size) :
    wpExcept (StarvedNames base set fuel p)
      (formatTypeExpressionImpl fuel p counter)
      (fun result after =>
        Counted base (set ∪ base.openNodes p) after result.2) graph := by
  induction fuel generalizing p set counter graph with
  | zero => exact .inr ⟨rfl, fun _ _ => Nat.zero_le _⟩
  | succ fuel ih =>
      have allocates := counted.allocates counted.opens
      have finite := counted.finite.union (wellFormed.finite_openNodes inside)
      rw [formatTypeExpressionImpl, wpExcept_bind]
      apply wpExcept_mono (pruneTypeExp_spec fuel p graph)
      · rintro q after ⟨rfl, prunesAfter⟩
        rename TypeGraph => graph
        have prunes := allocates.prunes wellFormed inside prunesAfter
        have within := wellFormed.reaches_lt inside prunes.reaches
        have same := counted.same counted.opens q
        have shaped := wellFormed.shaped q within
        have plainNode : ¬(base.nodes q).IsVariable →
            graph.nodes q = base.nodes q := same.eq
        have links : ∀ r, base.Link q r ↔ (base.nodes q).first = some r ∨
            ¬(base.nodes q).IsVariable ∧ (base.nodes q).second = .type r :=
          fun r => Iff.rfl
        rw [prunes.openNodes] at finite ⊢
        rw [wpExcept_bind, wp_node]
        generalize node : base.nodes q = exp at shaped same plainNode links
        have none_ : ¬exp.IsVariable → exp.first = none → exp.second = .null →
            Counted base (set ∪ base.openNodes q) graph counter := by
          intro plain first second
          have empty : base.openNodes q = ∅ := TypeGraph.openNodes_none
            (by simp [TypeGraph.Open, node, plain])
            (by simp [links, first, second])
          rw [empty, Set.union_empty]
          exact counted
        have both : ∀ {a b : TypePointer} (join : String → String → String),
            (∀ r, base.Link q r ↔ r = a ∨ r = b) →
            wpExcept (StarvedNames base set (fuel + 1) p)
              (do
                let left ← formatTypeExpressionImpl fuel a counter
                let right ← formatTypeExpressionImpl fuel b left.2
                return (join left.1 right.1, right.2))
              (fun result after =>
                Counted base (set ∪ base.openNodes q) after result.2)
              graph := by
          intro a b join links
          have linkA := (links a).mpr (.inl rfl)
          have linkB := (links b).mpr (.inr rfl)
          have opens := TypeGraph.openNodes_link links
          rw [opens, ← Set.union_assoc] at finite ⊢
          rw [wpExcept_bind]
          apply wpExcept_mono (ih a counted (wellFormed.link_lt within linkA))
          · intro left middle counted
            rw [wpExcept_bind]
            apply wpExcept_mono
              (ih b counted (wellFormed.link_lt within linkB))
            · exact fun right after => id
            · intro stop
              apply StarvedNames.link prunes linkB
              · rwa [prunes.openNodes, opens, ← Set.union_assoc]
              · rw [prunes.openNodes, opens, ← Set.union_assoc]
          · intro stop
            apply StarvedNames.link prunes linkA
            · rwa [prunes.openNodes, opens, ← Set.union_assoc]
            · rw [prunes.openNodes, opens, ← Set.union_assoc]
              exact Set.subset_union_left
        cases shaped with
        | bound scratch inside =>
            exact absurd ⟨by rw [node], by rw [node]⟩ (prunes.ended _)
        | unbound scratch | generic scratch =>
            have open_ : base.Open q :=
              ⟨by rw [node]; simp [TypeExp.IsVariable], by rw [node]⟩
            have opens := TypeGraph.openNodes_open open_
            rw [opens]
            cases second : (graph.nodes q).second with
            | null =>
                simp only [same.1]
                cases letter : typeNames[counter]? with
                | none =>
                    refine .inl ⟨rfl, ?_⟩
                    rw [prunes.openNodes, opens, Set.union_singleton,
                      Set.ncard_insert_of_notMem (counted.fresh second)
                        counted.finite, counted.counts]
                    exact Nat.lt_succ_of_le
                      (List.getElem?_eq_none_iff.mp letter)
                | some letter' =>
                    exact counted.name open_ second _
                      (List.getElem?_eq_some_iff.mp letter).1
            | name text =>
                simp only [same.1]
                have member : q ∈ set := counted.member clean within open_
                  (by simp [second])
                rw [wpExcept_pure,
                  Set.union_eq_self_of_subset_right
                    (Set.singleton_subset_iff.mpr member)]
                exact counted
            | type other =>
                have member : q ∈ set := counted.member clean within open_
                  (by simp [second])
                rcases counted.names q member with ⟨text, named⟩
                rw [second] at named
                cases named
        | error | int | bool =>
            rw [plainNode (by simp [TypeExp.IsVariable])]
            exact none_ (by simp [TypeExp.IsVariable]) rfl rfl
        | @func a b _ _ =>
            rw [plainNode (by simp [TypeExp.IsVariable])]
            exact both (fun left right => "( " ++ left ++ " -> " ++ right ++ " )")
              (by simp [links, TypeExp.IsVariable, eq_comm])
        | @tuple a b _ _ =>
            rw [plainNode (by simp [TypeExp.IsVariable])]
            exact both (fun left right => left ++ " * " ++ right)
              (by simp [links, TypeExp.IsVariable, eq_comm])
        | @tupleFinal a _ =>
            rw [plainNode (by simp [TypeExp.IsVariable])]
            have only : ∀ r, base.Link q r ↔ r = a := by
              simp [links, eq_comm]
            have opens := TypeGraph.openNodes_only only
            have link := (only a).mpr rfl
            rw [opens]
            apply wpExcept_mono (ih a counted (wellFormed.link_lt within link))
            · exact fun result after => id
            · intro stop
              apply StarvedNames.link prunes link
              · rwa [prunes.openNodes]
              · rw [prunes.openNodes, opens]
      · rintro stop ⟨isFuel, least⟩
        refine .inr ⟨isFuel, fun rank ranks => Nat.succ_le_succ ?_⟩
        exact least rank (allocates.ranksFrom wellFormed inside ranks)

/-- Clearing the names again restores the graph. -/
theorem Named.cleanup {base graph : TypeGraph} (wellFormed : base.WellFormed)
    (clean : base.Clean) {p : TypePointer} (inside : p < base.size)
    (named : Named base (base.openNodes p) graph) :
    graph.unmark (graph.openNodes p) = base := by
  have opens : ∀ v ∈ base.openNodes p, base.Open v := fun _ member => member.2
  have allocates := named.allocates opens
  have same := allocates.openNodes wellFormed inside
  rw [same]
  rcases base with ⟨nodes, size⟩
  have sizes : graph.size = size := named.size
  simp only [TypeGraph.unmark, TypeGraph.mk.injEq, sizes, and_true]
  ext v : 1
  have nodesV := named.nodes v
  dsimp only at nodesV
  by_cases member : v ∈ TypeGraph.openNodes ⟨nodes, size⟩ p
  · have blank : (nodes v).second = .null :=
      clean v (wellFormed.reaches_lt inside member.1) member.2.1
    rw [if_pos member]
    rcases nodesV with unchanged | ⟨-, text, renamed⟩
    · rw [unchanged, ← blank]
    · rw [renamed, ← blank]
  · rw [if_neg member]
    exact nodesV.resolve_right fun renamed => member renamed.1

/-- Formatting stops for lack of fuel, or when it runs out of names. -/
def StarvedFormat (graph : TypeGraph) (fuel : Nat) (p : TypePointer) :
    Stop → Prop :=
  StarvedNames graph ∅ fuel p

/-- There are names for the open nodes of a type. -/
def TypeGraph.Nameable (graph : TypeGraph) (p : TypePointer) : Prop :=
  (graph.openNodes p).ncard ≤ typeNames.length

theorem formatTypeExpression_spec {graph : TypeGraph}
    (wellFormed : graph.WellFormed) (clean : graph.Clean) (fuel : Nat)
    {p : TypePointer} (inside : p < graph.size) :
    wpExcept (StarvedFormat graph fuel p) (formatTypeExpression fuel p)
      (fun _ after => after = graph ∧ graph.Nameable p) graph := by
  rw [formatTypeExpression, wpExcept_bind]
  apply wpExcept_mono
    (formatTypeExpressionImpl_spec wellFormed clean fuel p (.start graph)
      inside) ?_ fun _ => id
  intro text after counted
  rw [Set.empty_union] at counted
  have allocates := counted.allocates counted.opens
  have later : p < after.size := Nat.lt_of_lt_of_le inside allocates.size
  rw [wpExcept_bind]
  apply wpExcept_mono (cleanupTypeVariables_spec
    (counted.wellFormed wellFormed counted.opens) fuel p later)
  · rintro - cleaned rfl
    refine ⟨counted.cleanup wellFormed clean inside, ?_⟩
    rw [TypeGraph.Nameable, counted.counts]
    exact counted.enough
  · rintro stop ⟨isFuel, least⟩
    exact .inr ⟨isFuel, fun rank ranks =>
      least rank (allocates.ranksFrom wellFormed inside ranks)⟩

end Millie.Types
