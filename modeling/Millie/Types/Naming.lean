import Millie.Foundation.Fuel
import Millie.Types.Format
import Millie.Types.Instances
import Millie.Types.Texts

/-!
# Printed types

`FormatTypeExpression` gives the variables of a type their names in the order in
which they first occur, and returns the text of the named term.  So printed
types identify types up to the nesting of tuples, while there are names.
-/

namespace Millie.Types

open Relation Links Weakest FirstOccurrences

/-! ## Graphs with names -/

/-- The leaf that an open node stands for. -/
def TypeGraph.leafAt (graph : TypeGraph) (v : TypePointer) : Leaf :=
  if (graph.nodes v).type = .variable_ then .variable_ v else .generic v

open Classical in
/-- The graph in which the leaves of a list have got their names. -/
noncomputable def TypeGraph.naming (base : TypeGraph) (order : List Leaf) :
    TypeGraph :=
  { base with
    nodes := fun v =>
      if base.Open v ∧ base.leafAt v ∈ order then
        { base.nodes v with
          second := .name (typeName (order.idxOf (base.leafAt v))) }
      else base.nodes v }

namespace TypeGraph

variable {base : TypeGraph} {order : List Leaf} {v w : TypePointer}

theorem leafAt_injective : Function.Injective base.leafAt := by
  intro v w same
  unfold leafAt at same
  split at same <;> split at same <;> cases same <;> rfl

theorem naming_nil (base : TypeGraph) : base.naming [] = base := by
  simp [naming]

theorem naming_plain (closed : ¬base.Open v) :
    (base.naming order).nodes v = base.nodes v :=
  if_neg fun both => closed both.1

theorem naming_new (new : base.leafAt v ∉ order) :
    (base.naming order).nodes v = base.nodes v :=
  if_neg fun both => new both.2

theorem naming_known (open_ : base.Open v) (known : base.leafAt v ∈ order) :
    (base.naming order).nodes v =
      { base.nodes v with
        second := .name (typeName (order.idxOf (base.leafAt v))) } :=
  if_pos ⟨open_, known⟩

theorem naming_named (base : TypeGraph) (order : List Leaf) :
    Named base { v | base.Open v } (base.naming order) := by
  refine ⟨rfl, fun v => ?_⟩
  by_cases named : base.Open v ∧ base.leafAt v ∈ order
  · exact .inr ⟨named.1, _, naming_known named.1 named.2⟩
  · exact .inl (if_neg named)

/-- The next leaf gets the next name. -/
theorem naming_mark (open_ : base.Open v) (new : base.leafAt v ∉ order) :
    (base.naming order).mark v (.name (typeName order.length)) =
      base.naming (order ++ [base.leafAt v]) := by
  have size : ((base.naming order).mark v
      (.name (typeName order.length))).size =
        (base.naming (order ++ [base.leafAt v])).size := rfl
  have nodes : ((base.naming order).mark v
      (.name (typeName order.length))).nodes =
        (base.naming (order ++ [base.leafAt v])).nodes := by
    ext w : 1
    by_cases here : w = v
    · subst here
      rw [mark_node, naming_new new, naming_known open_ (by simp),
        List.idxOf_append_of_notMem new, List.idxOf_cons_self, Nat.add_zero]
    · have other : base.leafAt w ≠ base.leafAt v := fun same =>
        here (leafAt_injective same)
      rw [mark_old _ _ here]
      by_cases named : base.Open w ∧ base.leafAt w ∈ order
      · rw [naming_known named.1 named.2, naming_known named.1
          (List.mem_append_left _ named.2), List.idxOf_append_of_mem named.2]
      · have unnamed : ¬(base.Open w ∧
            base.leafAt w ∈ order ++ [base.leafAt v]) := by
          simpa [other] using named
        exact (if_neg named).trans (if_neg unnamed).symm
  exact congrArg₂ TypeGraph.mk nodes size

end TypeGraph

/-! ## The text of a type in a graph -/

/-- The text of a type whose leaves are named by their place in a list. -/
def Ty.textIn (t : Ty Leaf) (order : List Leaf) : String :=
  (t.rename fun a => typeName (order.idxOf a)).print

/-- Later names do not change a text. -/
theorem Ty.textIn_firsts {t : Ty Leaf} {order more : List Leaf}
    (known : ∀ a ∈ t.leaves, a ∈ order) :
    t.textIn (firsts order more) = t.textIn order :=
  congrArg Ty.print (rename_congr fun a member =>
    congrArg typeName (idxOf_firsts (known a member)))

/-- What formatting a type returns when the leaves of a list have names. -/
structure Formatted (base : TypeGraph) (order : List Leaf) (t : Ty Leaf)
    (result : String × Nat) (after : TypeGraph) : Prop where
  text : result.1 = t.textIn (firsts order t.leaves)
  counter : result.2 = (firsts order t.leaves).length
  graph : after = base.naming (firsts order t.leaves)
  few : (firsts order t.leaves).length ≤ typeNames.length

section

variable {base : TypeGraph} {p q : TypePointer} {t : Ty Leaf}

/-- A pruned type that stands for a variable is open. -/
theorem Denotes.open_leaf {a : Leaf} (denotes : Denotes base q (.leaf a))
    (pruned : ∀ r, ¬base.Bound q r) (noError : a ≠ .error) :
    base.Open q ∧ base.leafAt q = a := by
  cases denotes with
  | bound node _ => exact absurd ⟨by rw [node], by rw [node]⟩ (pruned _)
  | unbound node | generic node =>
      simp [TypeGraph.Open, TypeExp.IsVariable, TypeGraph.leafAt, node]
  | error node => exact absurd rfl noError

/-- Formatting a leaf: it has a name, or it gets the next one. -/
theorem formatted_leaf {order : List Leaf} {a : Leaf}
    (clean : base.Clean) (inside : q < base.size)
    (few : order.length ≤ typeNames.length) (open_ : base.Open q)
    (leafAt : base.leafAt q = a) :
    wpExcept (fun _ => True)
      (match ((base.naming order).nodes q).second with
        | .name name => return (name, order.length)
        | .null =>
            match typeNames[order.length]? with
            | none => stop .undefinedBehaviour
            | some letter => do
                let name := "'" ++ letter
                setVarTempOther q (.name name)
                return (name, order.length + 1)
        | .type _ => stop .undefinedBehaviour)
      (Formatted base order (.leaf a)) (base.naming order) := by
  subst leafAt
  by_cases known : base.leafAt q ∈ order
  · have same : firsts order [base.leafAt q] = order :=
      insertLast_of_mem known
    rw [TypeGraph.naming_known open_ known]
    exact ⟨by rw [Ty.leaves, same]; rfl, by rw [Ty.leaves, same],
      by rw [Ty.leaves, same], by rwa [Ty.leaves, same]⟩
  · have longer : firsts order [base.leafAt q] = order ++ [base.leafAt q] :=
      insertLast_of_notMem known
    rw [TypeGraph.naming_new known, clean q inside open_.1]
    cases letter : typeNames[order.length]? with
    | none => trivial
    | some letter' =>
        have room := (List.getElem?_eq_some_iff.mp letter).1
        have name : "'" ++ letter' = typeName order.length := by
          rw [typeName, List.getD_eq_getElem?_getD, letter, Option.getD_some]
        have place : (order ++ [base.leafAt q]).idxOf (base.leafAt q) =
            order.length := by
          rw [List.idxOf_append_of_notMem known, List.idxOf_cons_self,
            Nat.add_zero]
        simp only [wpExcept_bind, wp_setVarTempOther, wpExcept_pure]
        refine ⟨?_, ?_, ?_, ?_⟩
        · rw [Ty.leaves, longer, Ty.textIn, Ty.rename_leaf, place]
          exact name
        · rw [Ty.leaves, longer, List.length_append]
          rfl
        · rw [Ty.leaves, longer, name, TypeGraph.naming_mark open_ known]
        · rw [Ty.leaves, longer, List.length_append]
          exact room

/-- Formatting two arguments, one after the other. -/
theorem formatted_both {order : List Leaf} {s t : Ty Leaf} {a b : TypePointer}
    {fuel : Nat} (join : String → String → String)
    (first : wpExcept (fun _ => True)
      (formatTypeExpressionImpl fuel a order.length)
      (Formatted base order s) (base.naming order))
    (second : ∀ order, order.length ≤ typeNames.length →
      wpExcept (fun _ => True)
        (formatTypeExpressionImpl fuel b order.length)
        (Formatted base order t) (base.naming order)) :
    wpExcept (fun _ => True)
      (do
        let left ← formatTypeExpressionImpl fuel a order.length
        let right ← formatTypeExpressionImpl fuel b left.2
        return (join left.1 right.1, right.2))
      (fun result after =>
        result.1 = join (s.textIn (firsts order (s.leaves ++ t.leaves)))
          (t.textIn (firsts order (s.leaves ++ t.leaves))) ∧
        result.2 = (firsts order (s.leaves ++ t.leaves)).length ∧
        after = base.naming (firsts order (s.leaves ++ t.leaves)) ∧
        (firsts order (s.leaves ++ t.leaves)).length ≤ typeNames.length)
      (base.naming order) := by
  rw [wpExcept_bind]
  apply wpExcept_mono first ?_ fun _ => id
  rintro ⟨left, counter⟩ middle ⟨rfl, rfl, rfl, few⟩
  rw [wpExcept_bind]
  apply wpExcept_mono (second _ few) ?_ fun _ => id
  rintro ⟨right, counter'⟩ after ⟨rfl, rfl, rfl, few'⟩
  rw [firsts_append]
  refine ⟨?_, rfl, rfl, few'⟩
  rw [Ty.textIn_firsts fun c member => mem_firsts.mpr (.inr member)]

theorem formatTypeExpressionImpl_text (wellFormed : base.WellFormed)
    (clean : base.Clean) (fuel : Nat) {order : List Leaf}
    (few : order.length ≤ typeNames.length) (denotes : Denotes base p t)
    (inside : p < base.size) (noError : Leaf.error ∉ t.leaves) :
    wpExcept (fun _ => True) (formatTypeExpressionImpl fuel p order.length)
      (Formatted base order t) (base.naming order) := by
  induction fuel generalizing p t order with
  | zero => trivial
  | succ fuel ih =>
      have opens : ∀ v ∈ { v | base.Open v }, base.Open v := fun _ => id
      have allocates := (base.naming_named order).allocates opens
      rw [formatTypeExpressionImpl, wpExcept_bind]
      apply wpExcept_mono (pruneTypeExp_spec fuel p _) ?_ fun _ _ => trivial
      rintro q after ⟨rfl, prunesAfter⟩
      have prunes := allocates.prunes wellFormed inside prunesAfter
      have within := wellFormed.reaches_lt inside prunes.reaches
      have here := prunes.denotes_iff.mp denotes
      rw [wpExcept_bind, wp_node]
      have plain : ∀ {exp}, base.nodes q = exp → ¬exp.IsVariable →
          (base.naming order).nodes q = exp := by
        rintro exp node isPlain
        rw [← node] at isPlain ⊢
        exact TypeGraph.naming_plain fun open_ => isPlain open_.1
      have next : ∀ {r u}, base.Link q r → Denotes base r u →
          u.leaves ⊆ t.leaves → ∀ order, order.length ≤ typeNames.length →
          wpExcept (fun _ => True)
            (formatTypeExpressionImpl fuel r order.length)
            (Formatted base order u) (base.naming order) :=
        fun link denotes parts _ few => ih few denotes
          (wellFormed.link_lt within link) fun member => noError (parts member)
      have denotesQ := here
      cases here with
      | bound node _ =>
          exact absurd ⟨by rw [node], by rw [node]⟩ (prunes.ended _)
      | unbound node | generic node =>
          have type := ((base.naming_named order).same opens q).1
          rcases denotesQ.open_leaf prunes.ended (by simp) with
            ⟨open_, leafAt⟩
          have leaf := formatted_leaf clean within few open_ leafAt
          rw [node] at type
          generalize (base.naming order).nodes q = exp at type leaf
          rcases exp with ⟨kind, first, second⟩
          cases type
          cases second <;> exact leaf
      | error node => exact absurd (List.mem_singleton_self _) noError
      | int node | bool node =>
          rw [plain node (by simp [TypeExp.IsVariable])]
          exact ⟨rfl, rfl, rfl, few⟩
      | func node first second =>
          rw [plain node (by simp [TypeExp.IsVariable])]
          apply wpExcept_mono (formatted_both
            (fun left right => "( " ++ left ++ " -> " ++ right ++ " )")
            (next (.inl (by rw [node])) first
              (List.subset_append_left _ _) order few)
            (next (.inr ⟨by simp [node, TypeExp.IsVariable], by rw [node]⟩)
              second (List.subset_append_right _ _))) ?_ fun _ => id
          rintro result after ⟨text, counter, graph, few⟩
          exact ⟨text, counter, graph, few⟩
      | tuple node first second =>
          rw [plain node (by simp [TypeExp.IsVariable])]
          apply wpExcept_mono (formatted_both
            (fun left right => left ++ " * " ++ right)
            (next (.inl (by rw [node])) first
              (List.subset_append_left _ _) order few)
            (next (.inr ⟨by simp [node, TypeExp.IsVariable], by rw [node]⟩)
              second (List.subset_append_right _ _))) ?_ fun _ => id
          rintro result after ⟨text, counter, graph, few⟩
          exact ⟨text, counter, graph, few⟩
      | tupleFinal node first =>
          rw [plain node (by simp [TypeExp.IsVariable])]
          apply wpExcept_mono (next (.inl (by rw [node])) first
            (List.Subset.refl _) order few) ?_ fun _ => id
          rintro result after ⟨text, counter, graph, few⟩
          exact ⟨text, counter, graph, few⟩

/-- Formatting a type returns the text of its term, named by first occurrence. -/
theorem formatTypeExpression_text (wellFormed : base.WellFormed)
    (clean : base.Clean) (fuel : Nat) (denotes : Denotes base p t)
    (inside : p < base.size) (noError : Leaf.error ∉ t.leaves) :
    wpExcept (fun _ => True) (formatTypeExpression fuel p)
      (fun text _ => text = t.named.print ∧
        (firsts [] t.leaves).length ≤ typeNames.length) base := by
  have few : ([] : List Leaf).length ≤ typeNames.length := Nat.zero_le _
  have formats := formatTypeExpressionImpl_text wellFormed clean fuel few
    denotes inside noError
  rw [TypeGraph.naming_nil] at formats
  rw [formatTypeExpression, wpExcept_bind]
  apply wpExcept_mono formats ?_ fun _ => id
  rintro ⟨text, counter⟩ after formatted
  rw [wpExcept_bind]
  have established : text = t.named.print ∧
      (firsts [] t.leaves).length ≤ typeNames.length :=
    ⟨formatted.text, formatted.few⟩
  exact wpExcept_const established after

end

/-! ## Printed types -/

/-- A text that formatting a type returns, with a name of its own for each leaf. -/
structure Shows (graph : TypeGraph) (p : TypePointer) (t : Ty Leaf)
    (text : String) : Prop where
  settles : Settles (fun fuel => formatTypeExpression fuel p) graph text graph
  names : ∃ name : Leaf → String, Set.InjOn name { a | a ∈ t.leaves } ∧
    text = (t.rename name).print

/-- Two types have texts, which are equal exactly when the types are alike. -/
def PrintsIdentify (first : TypeGraph) (p : TypePointer) (s : Ty Leaf)
    (second : TypeGraph) (q : TypePointer) (t : Ty Leaf) : Prop :=
  ∃ text text', Shows first p s text ∧ Shows second q t text' ∧
    (text = text' ↔ s.Alike t)

section

variable {graph first second : TypeGraph} {p q : TypePointer}
  {s t : Ty Leaf} {text : String}

theorem Shows.text_eq (shows_ : Shows graph p t text)
    (wellFormed : graph.WellFormed) (clean : graph.Clean)
    (denotes : Denotes graph p t) (inside : p < graph.size)
    (noError : Leaf.error ∉ t.leaves) :
    text = t.named.print ∧ (firsts [] t.leaves).length ≤ typeNames.length :=
  shows_.settles.post fun fuel =>
    formatTypeExpression_text wellFormed clean fuel denotes inside noError

theorem Shows.nameable (shows_ : Shows graph p t text)
    (wellFormed : graph.WellFormed) (clean : graph.Clean)
    (inside : p < graph.size) : graph.Nameable p :=
  (shows_.settles.post fun fuel =>
    formatTypeExpression_spec wellFormed clean fuel inside).2

/-- A type with enough names has a text. -/
theorem shows_named (wellFormed : graph.WellFormed) (clean : graph.Clean)
    (denotes : Denotes graph p t) (inside : p < graph.size)
    (noError : Leaf.error ∉ t.leaves) (nameable : graph.Nameable p) :
    Shows graph p t t.named.print := by
  rcases denotes.acyclicFrom.ranksFrom wellFormed inside with ⟨rank, ranks⟩
  have settles : Settles (fun fuel => formatTypeExpression fuel p) graph
      t.named.print graph := by
    refine ⟨rank p + 2, fun fuel enough => ?_⟩
    have never : ∀ stop, ¬StarvedFormat graph fuel p stop := by
      rintro stop (⟨-, few⟩ | ⟨-, least⟩)
      · rw [Set.empty_union] at few
        exact Nat.not_lt_of_le nameable few
      · have := least rank ranks
        omega
    rcases returns_of_wpExcept
      (formatTypeExpression_spec wellFormed clean fuel inside) never with
      ⟨text, after, returns, same, -⟩
    have spelled := (of_wpExcept (formatTypeExpression_text wellFormed clean
      fuel denotes inside noError) returns).1
    rw [spelled, same] at returns
    exact returns
  have few := (settles.post fun fuel => formatTypeExpression_text wellFormed
    clean fuel denotes inside noError).2
  refine ⟨settles, fun a => typeName (position t.leaves a), ?_, rfl⟩
  intro a memberA b memberB same
  have within : ∀ {a}, a ∈ t.leaves →
      position t.leaves a < typeNames.length := fun member =>
    Nat.lt_of_lt_of_le (position_lt member) few
  exact (position_inj memberA).mp
    (typeName_injOn (within memberA) (within memberB) same)

/--
Printed types identify two types exactly when there are names for the variables
of both and the types do not differ in the nesting of their tuples alone.
-/
theorem formatTypeExpression_identifies_iff (wellFormedP : first.WellFormed)
    (cleanP : first.Clean) (insideP : p < first.size)
    (denotesP : Denotes first p s) (noErrorS : Leaf.error ∉ s.leaves)
    (wellFormedQ : second.WellFormed) (cleanQ : second.Clean)
    (insideQ : q < second.size) (denotesQ : Denotes second q t)
    (noErrorT : Leaf.error ∉ t.leaves) :
    PrintsIdentify first p s second q t ↔
      first.Nameable p ∧ second.Nameable q ∧
        (s.flat.Alike t.flat → s.Alike t) := by
  constructor
  · rintro ⟨text, text', showsP, showsQ, identify⟩
    rcases showsP.text_eq wellFormedP cleanP denotesP insideP noErrorS with
      ⟨rfl, fewS⟩
    rcases showsQ.text_eq wellFormedQ cleanQ denotesQ insideQ noErrorT with
      ⟨rfl, fewT⟩
    exact ⟨showsP.nameable wellFormedP cleanP insideP,
      showsQ.nameable wellFormedQ cleanQ insideQ,
      fun alike => identify.mp ((Ty.print_named_eq_iff fewS fewT).mpr alike)⟩
  · rintro ⟨nameableP, nameableQ, unnested⟩
    have showsP := shows_named wellFormedP cleanP denotesP insideP noErrorS
      nameableP
    have showsQ := shows_named wellFormedQ cleanQ denotesQ insideQ noErrorT
      nameableQ
    have fewS := (showsP.text_eq wellFormedP cleanP denotesP insideP noErrorS).2
    have fewT := (showsQ.text_eq wellFormedQ cleanQ denotesQ insideQ noErrorT).2
    exact ⟨_, _, showsP, showsQ,
      (Ty.print_named_eq_iff fewS fewT).trans ⟨unnested, Ty.Alike.flat⟩⟩

end

/--
The types of pairs: `4` is that of `(1, 2)`, `5` that of `((1, 2), 3)` and `7`
that of `(1, (2, 3))`.
-/
def nestedPairs : TypeGraph :=
  ((((staticGraph.add ⟨.tupleFinal, some 0, .null⟩).add
    ⟨.tuple, some 0, .type 3⟩).add ⟨.tuple, some 4, .type 3⟩).add
    ⟨.tupleFinal, some 4, .null⟩).add ⟨.tuple, some 0, .type 6⟩

/-- The type of a pair. -/
def pairType (first last : Ty Leaf) : Ty Leaf :=
  .tuple first (.tupleFinal last)

theorem nestedPairs_wellFormed : nestedPairs.WellFormed := by
  have last := TypeGraph.add_wellFormed TypeGraph.wellFormed_static
    (.tupleFinal (a := 0) (by decide)) nofun
  have pair := TypeGraph.add_wellFormed last
    (.tuple (a := 0) (b := 3) (by decide) (by decide)) nofun
  have left := TypeGraph.add_wellFormed pair
    (.tuple (a := 4) (b := 3) (by decide) (by decide)) nofun
  have lastPair := TypeGraph.add_wellFormed left
    (.tupleFinal (a := 4) (by decide)) nofun
  exact TypeGraph.add_wellFormed lastPair
    (.tuple (a := 0) (b := 6) (by decide) (by decide)) nofun

theorem nestedPairs_closed {p : TypePointer} (inside : p < nestedPairs.size) :
    ¬(nestedPairs.nodes p).IsVariable := by
  match p, inside with
  | 0, _ | 1, _ | 2, _ | 3, _ | 4, _ | 5, _ | 6, _ | 7, _ =>
      rintro (type | type) <;> cases type

theorem nestedPairs_clean : nestedPairs.Clean :=
  fun _ inside isVariable => absurd isVariable (nestedPairs_closed inside)

theorem nestedPairs_nameable {p : TypePointer} (inside : p < nestedPairs.size) :
    nestedPairs.Nameable p := by
  have none_ : nestedPairs.openNodes p = ∅ := by
    ext v
    refine ⟨fun member => ?_, False.elim⟩
    have below := nestedPairs_wellFormed.reaches_lt inside member.1
    exact nestedPairs_closed below member.2.1
  rw [TypeGraph.Nameable, none_, Set.ncard_empty]
  exact Nat.zero_le _

theorem nestedPairs_pair : Denotes nestedPairs 4 (pairType .int .int) :=
  .tuple rfl (.int rfl) (.tupleFinal rfl (.int rfl))

theorem nestedPairs_left :
    Denotes nestedPairs 5 (pairType (pairType .int .int) .int) :=
  .tuple rfl nestedPairs_pair (.tupleFinal rfl (.int rfl))

theorem nestedPairs_right :
    Denotes nestedPairs 7 (pairType .int (pairType .int .int)) :=
  .tuple rfl (.int rfl) (.tupleFinal rfl nestedPairs_pair)

/-- The types of `(1, 2)` and `((1, 2), 3)` have different texts. -/
theorem formatTypeExpression_identifies_pair :
    PrintsIdentify nestedPairs 4 (pairType .int .int) nestedPairs 5
      (pairType (pairType .int .int) .int) := by
  apply (formatTypeExpression_identifies_iff nestedPairs_wellFormed
    nestedPairs_clean (by decide) nestedPairs_pair (by decide)
    nestedPairs_wellFormed nestedPairs_clean (by decide) nestedPairs_left
    (by decide)).mpr
  refine ⟨nestedPairs_nameable (by decide), nestedPairs_nameable (by decide),
    ?_⟩
  rintro ⟨ρ, -, same⟩
  cases same

/-- The types of `((1, 2), 3)` and `(1, (2, 3))` have the same text. -/
theorem formatTypeExpression_nested :
    formatTypeExpression 9 5 nestedPairs =
        .ok ("int * int * int", nestedPairs) ∧
      formatTypeExpression 9 7 nestedPairs =
        .ok ("int * int * int", nestedPairs) ∧
      ¬PrintsIdentify nestedPairs 5 (pairType (pairType .int .int) .int)
        nestedPairs 7 (pairType .int (pairType .int .int)) := by
  refine ⟨rfl, rfl, ?_⟩
  rintro ⟨text, text', showsLeft, showsRight, identify⟩
  have left := (showsLeft.text_eq nestedPairs_wellFormed nestedPairs_clean
    nestedPairs_left (by decide) (by decide)).1
  have right := (showsRight.text_eq nestedPairs_wellFormed nestedPairs_clean
    nestedPairs_right (by decide) (by decide)).1
  have same : text = text' := by
    rw [left, right]
    rfl
  rcases identify.mp same with ⟨ρ, -, renamed⟩
  cases renamed

end Millie.Types
