import Millie.Foundation.Fuel
import Millie.Foundation.Precedence
import Millie.Types.Completion

/-!
# When generalisation returns

`_MakeGenericTypeExpImpl` marks a variable that it keeps with the variable
itself, in the field that the search for the next variable follows.  A search
that meets such a mark before it finds its variable never returns.  So
generalisation returns exactly if the type has its generic variables first and
the others in the order opposite to that of the non-generic list.
-/

namespace Millie.Types

open Relation Links Weakest Precedence

/-! ## The variables of a type -/

/-- The variable of a leaf. -/
def Leaf.unbound? : Leaf → Option TypePointer
  | variable_ type => some type
  | _ => none

/-- The variables of a type, from left to right. -/
def Ty.unboundVariables (t : Ty Leaf) : List TypePointer :=
  t.leaves.filterMap Leaf.unbound?

theorem Leaf.unbound?_eq_some {leaf : Leaf} {v : TypePointer} :
    leaf.unbound? = some v ↔ leaf = .variable_ v := by
  cases leaf <;> simp [unbound?]

theorem Ty.mem_unboundVariables {t : Ty Leaf} {v : TypePointer} :
    v ∈ t.unboundVariables ↔ Leaf.variable_ v ∈ t.leaves := by
  simp [unboundVariables, Leaf.unbound?_eq_some]

theorem Joins.unboundVariables {kind : TypeExpType}
    {join : Ty Leaf → Ty Leaf → Ty Leaf} (joins : Joins kind join)
    (s t : Ty Leaf) :
    (join s t).unboundVariables =
      s.unboundVariables ++ t.unboundVariables := by
  rw [Ty.unboundVariables, joins.leaves, List.filterMap_append]
  rfl

/-! ## The nodes of a marked graph -/

/-- The variables that are marked with themselves. -/
def TypeGraph.selfMarked (graph : TypeGraph) : Set TypePointer :=
  { v | (graph.nodes v).second = .type v }

namespace Marked

variable {keep : TypePointer → Prop} {base graph : TypeGraph}
  {p : TypePointer} {kind : TypeExpType} {first : Option TypePointer}
  {scratch : Link}

theorem plain_node (marked : Marked .generalize keep base graph)
    (inside : p < base.size) {exp : TypeExp} (node : base.nodes p = exp)
    (plain : ¬exp.IsVariable) : graph.nodes p = exp :=
  ((marked.allocates.same p inside).eq (node ▸ plain)).trans node

/-- A variable that the walk does not replace carries no mark. -/
theorem blank_node (marked : Marked .generalize keep base graph)
    (inside : p < base.size) (node : base.nodes p = ⟨kind, first, scratch⟩)
    (isVariable : (base.nodes p).IsVariable)
    (other : ¬Markable .generalize base p) :
    graph.nodes p = ⟨kind, first, .null⟩ := by
  have same := marked.allocates.same p inside
  have blank := marked.unmarked p inside isVariable other
  rw [node] at same
  cases here : graph.nodes p
  simp_all [TypeExp.Same]

/-- What the search finds behind an unbound variable. -/
theorem unbound_node (marked : Marked .generalize keep base graph)
    (inside : p < base.size)
    (node : base.nodes p = ⟨.variable_, none, scratch⟩) (a : TypePointer)
    (below : a < base.size) :
    graph.nodes p = ⟨.variable_, none, .null⟩ ∨
      graph.nodes p = ⟨.variable_, none, .type p⟩ ∨
      ∃ q, graph.nodes p = ⟨.variable_, none, .type q⟩ ∧ q ≠ p ∧
        graph.DeadEnd a q := by
  have isVariable : (base.nodes p).IsVariable := .inl (by rw [node])
  by_cases markable : Markable .generalize base p
  · have same := marked.allocates.same p inside
    have shape : ∀ {link}, (graph.nodes p).second = link →
        graph.nodes p = ⟨.variable_, none, link⟩ := by
      rintro link rfl
      rw [node] at same
      cases here : graph.nodes p
      simp_all [TypeExp.Same]
    cases marked.mark p markable with
    | blank second => exact .inl (shape second)
    | kept _ second => exact .inr (.inl (shape second))
    | @replaced q _ second new _ image =>
        refine .inr (.inr ⟨q, shape second, ?_, ?_, ?_, ?_⟩)
        · exact Nat.ne_of_gt (Nat.lt_of_lt_of_le inside new)
        · exact Nat.ne_of_gt (Nat.lt_of_lt_of_le below new)
        · rw [image]
        · rw [image]
  · exact .inl (marked.blank_node inside node isVariable markable)

end Marked

/-! ## The containment search -/

theorem node_returns (type : TypePointer) (graph : TypeGraph) :
    node type graph = .ok (graph.nodes type, graph) :=
  rfl

section

variable {graph : TypeGraph} {a p q r : TypePointer} {found other : Bool}
  {kind : TypeExpType}

theorem search_found :
    Settles (fun fuel => isTypeContainedWithin a fuel a) graph true graph := by
  apply Settles.succ (fun _ => pure true) ?_ (.of_eq fun _ => rfl)
  intro fuel
  rw [isTypeContainedWithin, if_pos rfl]

theorem search_none (distinct : a ≠ p)
    (node : graph.nodes p = ⟨kind, none, .null⟩) :
    Settles (fun fuel => isTypeContainedWithin a fuel p) graph false graph := by
  apply Settles.succ (fun _ => pure false) ?_ (.of_eq fun _ => rfl)
  intro fuel
  rw [isTypeContainedWithin, if_neg distinct]
  exact (bind_returned (node_returns p graph)).trans (by rw [node]; rfl)

theorem search_mark (distinct : a ≠ p)
    (node : graph.nodes p = ⟨kind, none, .type q⟩)
    (rest : Settles (fun fuel => isTypeContainedWithin a fuel q) graph found
      graph) :
    Settles (fun fuel => isTypeContainedWithin a fuel p) graph found graph := by
  apply Settles.succ (fun fuel => isTypeContainedWithin a fuel q) ?_ rest
  intro fuel
  rw [isTypeContainedWithin, if_neg distinct]
  exact (bind_returned (node_returns p graph)).trans (by rw [node]; rfl)

theorem search_only (distinct : a ≠ p)
    (node : graph.nodes p = ⟨kind, some q, .null⟩)
    (first : Settles (fun fuel => isTypeContainedWithin a fuel q) graph found
      graph) :
    Settles (fun fuel => isTypeContainedWithin a fuel p) graph found graph := by
  apply Settles.succ (fun fuel =>
    isTypeContainedWithin a fuel q >>= fun inFirst =>
      if inFirst then pure true else pure false)
  · intro fuel
    rw [isTypeContainedWithin, if_neg distinct]
    exact (bind_returned (node_returns p graph)).trans (by rw [node])
  · apply first.bind
    cases found <;> exact .of_eq fun _ => rfl

theorem search_two (distinct : a ≠ p)
    (node : graph.nodes p = ⟨kind, some q, .type r⟩)
    (first : Settles (fun fuel => isTypeContainedWithin a fuel q) graph found
      graph)
    (second : found = false →
      Settles (fun fuel => isTypeContainedWithin a fuel r) graph other graph) :
    Settles (fun fuel => isTypeContainedWithin a fuel p) graph
      (found || other) graph := by
  apply Settles.succ (fun fuel =>
    isTypeContainedWithin a fuel q >>= fun inFirst =>
      if inFirst then pure true else isTypeContainedWithin a fuel r)
  · intro fuel
    rw [isTypeContainedWithin, if_neg distinct]
    exact (bind_returned (node_returns p graph)).trans (by rw [node])
  · apply first.bind
    cases found with
    | true => exact .of_eq fun _ => rfl
    | false => exact second rfl

end

theorem Markable.ne {walk : Walk} {base : TypeGraph} {a p : TypePointer}
    {exp : TypeExp} (markable : Markable walk base a)
    (node : base.nodes p = exp) (other : exp ≠ ⟨walk.kind, none, .null⟩) :
    a ≠ p := by
  rintro rfl
  exact other (node.symm.trans markable.2)

section

variable {keep : TypePointer → Prop} {base graph : TypeGraph}
  {a p : TypePointer} {s : Ty Leaf}

theorem outside_selfMarked (blank : (graph.nodes a).second = .null) :
    a ∉ graph.selfMarked := by
  intro member
  rw [TypeGraph.selfMarked, Set.mem_ofPred_eq, blank] at member
  cases member

/-- A search of a node with two arguments. -/
theorem search_joins {kind : TypeExpType}
    {join : Ty Leaf → Ty Leaf → Ty Leaf} (joins : Joins kind join)
    (marked : Marked .generalize keep base graph)
    (markable : Markable .generalize base a)
    (blank : (graph.nodes a).second = .null) {b c : TypePointer} {t : Ty Leaf}
    (node : base.nodes p = ⟨kind, some b, .type c⟩) (inside : p < base.size)
    (first : Ahead a graph.selfMarked s.unboundVariables →
      Settles (fun fuel => isTypeContainedWithin a fuel b) graph
        (decide (a ∈ s.unboundVariables)) graph)
    (second : Ahead a graph.selfMarked t.unboundVariables →
      Settles (fun fuel => isTypeContainedWithin a fuel c) graph
        (decide (a ∈ t.unboundVariables)) graph)
    (ahead : Ahead a graph.selfMarked (join s t).unboundVariables) :
    Settles (fun fuel => isTypeContainedWithin a fuel p) graph
      (decide (a ∈ (join s t).unboundVariables)) graph := by
  rw [joins.unboundVariables, ahead_append (outside_selfMarked blank)] at ahead
  have either := search_two (markable.ne node (by simp))
    (marked.plain_node inside node (joins.plain b c)) (first ahead.1)
    fun absent => second (ahead.2 (of_decide_eq_false absent))
  simpa [joins.unboundVariables] using either

/-- A search that finds its variable ahead of the self-marked ones returns. -/
theorem search_settles (wellFormed : base.WellFormed)
    (marked : Marked .generalize keep base graph)
    (markable : Markable .generalize base a)
    (blank : (graph.nodes a).second = .null) (denotes : Denotes base p s)
    (inside : p < base.size)
    (ahead : Ahead a graph.selfMarked s.unboundVariables) :
    Settles (fun fuel => isTypeContainedWithin a fuel p) graph
      (decide (a ∈ s.unboundVariables)) graph := by
  induction denotes with
  | @bound p q scratch s node instance_ ih =>
      have child := wellFormed.link_lt inside (.inl (by rw [node]))
      have kept := marked.blank_node inside node (.inl (by rw [node]))
        fun other => by cases node.symm.trans other.2
      exact search_only (markable.ne node (by simp)) kept (ih child ahead)
  | @unbound p scratch node =>
      by_cases here : a = p
      · subst here
        simpa [Ty.unboundVariables, Ty.leaves, Leaf.unbound?] using search_found
      · have absent : decide (a ∈ (Ty.leaf (Leaf.variable_ p)).unboundVariables)
            = false := by
          simpa [Ty.unboundVariables, Ty.leaves, Leaf.unbound?] using here
        rw [absent]
        rcases marked.unbound_node inside node a markable.1 with
          free | self | ⟨q, other, -, deadEnd⟩
        · exact search_none here free
        · exact absurd (by rw [TypeGraph.selfMarked, Set.mem_ofPred_eq, self])
            ahead.1
        · apply search_mark here other
          have node : graph.nodes q = ⟨(graph.nodes q).type, none, .null⟩ := by
            rw [← deadEnd.2.1, ← deadEnd.2.2]
          exact search_none (Ne.symm deadEnd.1) node
  | @generic p scratch node =>
      have kept := marked.blank_node inside node (.inr (by rw [node]))
        fun other => by cases node.symm.trans other.2
      exact search_none (markable.ne node (by simp [Walk.kind])) kept
  | error node | int node | bool node =>
      exact search_none (markable.ne node (by simp [Walk.kind]))
        (marked.plain_node inside node (by simp [TypeExp.IsVariable]))
  | func node first second firstIh secondIh =>
      rcases Joins.func.links node with ⟨linkA, linkB⟩
      exact search_joins .func marked markable blank node inside
        (firstIh (wellFormed.link_lt inside linkA))
        (secondIh (wellFormed.link_lt inside linkB)) ahead
  | tuple node first second firstIh secondIh =>
      rcases Joins.tuple.links node with ⟨linkA, linkB⟩
      exact search_joins .tuple marked markable blank node inside
        (firstIh (wellFormed.link_lt inside linkA))
        (secondIh (wellFormed.link_lt inside linkB)) ahead
  | @tupleFinal p b s node first firstIh =>
      have child := wellFormed.link_lt inside (.inl (by rw [node]))
      exact search_only (markable.ne node (by simp [Walk.kind]))
        (marked.plain_node inside node (by simp [TypeExp.IsVariable]))
        (firstIh child ahead)

/-- What a search that returns has found, and ahead of what. -/
def Searched (graph : TypeGraph) (a : TypePointer) (list : List TypePointer)
    (found : Bool) (after : TypeGraph) : Prop :=
  after = graph ∧ (found = true ↔ a ∈ list) ∧ Ahead a graph.selfMarked list

/-- One search after another. -/
theorem Searched.append {fail : Stop → Prop} {first second : List TypePointer}
    {one two : GraphM Bool} (blank : (graph.nodes a).second = .null)
    (left : wpExcept fail one (Searched graph a first) graph)
    (right : wpExcept fail two (Searched graph a second) graph) :
    wpExcept fail (one >>= fun found => if found then pure true else two)
      (Searched graph a (first ++ second)) graph := by
  have outside := outside_selfMarked blank
  rw [wpExcept_bind]
  apply wpExcept_mono left ?_ fun _ => id
  rintro found after ⟨rfl, member, ahead⟩
  cases found with
  | true =>
      have here := member.mp rfl
      exact ⟨rfl, by simp [here],
        (ahead_append outside _ _).mpr ⟨ahead, fun absent => absurd here absent⟩⟩
  | false =>
      have absent : a ∉ first := by simpa using member
      apply wpExcept_mono right ?_ fun _ => id
      rintro found final ⟨rfl, member', ahead'⟩
      exact ⟨rfl, by simp [absent, member'],
        (ahead_append outside _ _).mpr ⟨ahead, fun _ => ahead'⟩⟩

/-- A search that returns has found its variable ahead of the self-marked ones. -/
theorem search_ahead (wellFormed : base.WellFormed)
    (marked : Marked .generalize keep base graph)
    (markable : Markable .generalize base a)
    (blank : (graph.nodes a).second = .null) (fuel : Nat)
    (denotes : Denotes base p s) (inside : p < base.size) :
    wpExcept (fun _ => True) (isTypeContainedWithin a fuel p)
      (Searched graph a s.unboundVariables) graph := by
  induction fuel generalizing p s with
  | zero => trivial
  | succ fuel ih =>
      rw [isTypeContainedWithin]
      by_cases here : a = p
      · subst here
        rw [denotes.unique (.unbound markable.2), if_pos rfl]
        exact ⟨rfl, by simp [Ty.unboundVariables, Ty.leaves, Leaf.unbound?],
          outside_selfMarked blank, .inl rfl⟩
      rw [if_neg here, wpExcept_bind, wp_node]
      have nothing : wpExcept (fun _ => True) (pure false : GraphM Bool)
          (Searched graph a []) graph := ⟨rfl, by simp, trivial⟩
      have missed : p ∉ graph.selfMarked →
          Searched graph a [p] false graph := fun outside =>
        ⟨rfl, by simpa using here, outside, .inr trivial⟩
      have only : ∀ {q s}, Denotes base q s → q < base.size →
          wpExcept (fun _ => True)
            (isTypeContainedWithin a fuel q >>= fun found =>
              if found then pure true else pure false)
            (Searched graph a s.unboundVariables) graph := by
        intro q s denotes child
        have both := Searched.append blank (ih denotes child) nothing
        rwa [List.append_nil] at both
      have two : ∀ {kind join b c s t}, Joins kind join →
          base.nodes p = ⟨kind, some b, .type c⟩ → Denotes base b s →
          Denotes base c t →
          wpExcept (fun _ => True)
            (isTypeContainedWithin a fuel b >>= fun found =>
              if found then pure true else isTypeContainedWithin a fuel c)
            (Searched graph a (join s t).unboundVariables) graph := by
        intro kind join b c s t joins node first second
        rcases joins.links node with ⟨linkB, linkC⟩
        rw [joins.unboundVariables]
        exact Searched.append blank
          (ih first (wellFormed.link_lt inside linkB))
          (ih second (wellFormed.link_lt inside linkC))
      cases denotes with
      | @bound p q scratch s node instance_ =>
          rw [marked.blank_node inside node (.inl (by rw [node]))
            fun other => by cases node.symm.trans other.2]
          exact only instance_ (wellFormed.link_lt inside (.inl (by rw [node])))
      | unbound node =>
          have again := ih (.unbound node) inside
          rcases marked.unbound_node inside node a markable.1 with
            free | self | ⟨q, other, distinct, deadEnd⟩
          · rw [free]
            exact missed (outside_selfMarked (by rw [free]))
          · rw [self]
            exact again
          · rw [other]
            apply wpExcept_mono (isTypeContainedWithin_deadEnd deadEnd fuel) ?_
              fun _ _ => trivial
            rintro found after ⟨rfl, rfl⟩
            apply missed
            rw [TypeGraph.selfMarked, Set.mem_ofPred_eq, other]
            simpa using distinct
      | generic node =>
          rw [marked.blank_node inside node (.inr (by rw [node]))
            fun other => by cases node.symm.trans other.2]
          exact nothing
      | error node | int node | bool node =>
          rw [marked.plain_node inside node (by simp [TypeExp.IsVariable])]
          exact nothing
      | func node first second =>
          rw [marked.plain_node inside node (by simp [TypeExp.IsVariable])]
          exact two .func node first second
      | tuple node first second =>
          rw [marked.plain_node inside node (by simp [TypeExp.IsVariable])]
          exact two .tuple node first second
      | tupleFinal node first =>
          rw [marked.plain_node inside node (by simp [TypeExp.IsVariable])]
          have searched := only first
            (wellFormed.link_lt inside (.inl (by rw [node])))
          exact searched

variable {nonGenerics : List TypePointer} {terms : List (Ty Leaf)}

/-- The variables of the types of a list, from left to right. -/
def listVariables (terms : List (Ty Leaf)) : List TypePointer :=
  terms.flatMap Ty.unboundVariables

theorem isTypeNonGeneric_settles (wellFormed : base.WellFormed)
    (marked : Marked .generalize keep base graph)
    (markable : Markable .generalize base a)
    (blank : (graph.nodes a).second = .null)
    (denote : List.Forall₂ (Denotes base) nonGenerics terms)
    (within : ∀ n ∈ nonGenerics, n < base.size)
    (ahead : Ahead a graph.selfMarked (listVariables terms)) :
    Settles (fun fuel => isTypeNonGeneric fuel a nonGenerics) graph
      (decide (a ∈ listVariables terms)) graph := by
  induction denote with
  | nil => exact .of_eq fun _ => rfl
  | @cons n s nonGenerics terms denotes _ ih =>
      rw [listVariables, List.flatMap_cons,
        ahead_append (outside_selfMarked blank)] at ahead
      have first := search_settles wellFormed marked markable blank denotes
        (within n (List.mem_cons_self ..)) ahead.1
      apply first.bind
      by_cases member : a ∈ s.unboundVariables
      · simp only [listVariables, List.flatMap_cons, List.mem_append, member,
          decide_true, true_or]
        exact .of_eq fun _ => rfl
      · have rest := ih (fun n member => within n (.tail _ member))
          (ahead.2 member)
        simpa [listVariables, member] using rest

theorem isTypeNonGeneric_ahead (wellFormed : base.WellFormed)
    (marked : Marked .generalize keep base graph)
    (markable : Markable .generalize base a)
    (blank : (graph.nodes a).second = .null) (fuel : Nat)
    (denote : List.Forall₂ (Denotes base) nonGenerics terms)
    (within : ∀ n ∈ nonGenerics, n < base.size) :
    wpExcept (fun _ => True) (isTypeNonGeneric fuel a nonGenerics)
      (Searched graph a (listVariables terms)) graph := by
  induction denote with
  | nil => exact ⟨rfl, by simp [listVariables], trivial⟩
  | @cons n s nonGenerics terms denotes _ ih =>
      rw [listVariables, List.flatMap_cons]
      exact Searched.append blank
        (search_ahead wellFormed marked markable blank fuel denotes
          (within n (List.mem_cons_self ..)))
        (ih fun n member => within n (.tail _ member))

/-- The variables that the list reaches are those of its types. -/
theorem mem_listVariables (denote : List.Forall₂ (Denotes base) nonGenerics terms) :
    a ∈ listVariables terms ↔
      base.ReachedFrom nonGenerics a ∧ base.Unbound a := by
  induction denote with
  | nil => simp [listVariables, TypeGraph.ReachedFrom]
  | @cons n s nonGenerics terms denotes _ ih =>
      have split : a ∈ listVariables (s :: terms) ↔
          a ∈ s.unboundVariables ∨ a ∈ listVariables terms := by
        simp [listVariables]
      rw [split, ih, Ty.mem_unboundVariables, denotes.mem_variables]
      simp only [TypeGraph.ReachedFrom, List.exists_mem_cons_iff]
      exact or_and_right.symm

end

/-! ## The walk -/

section

variable {base graph after : TypeGraph} {p q r v : TypePointer} {t : Ty Leaf}
  {nonGenerics : List TypePointer} {terms : List (Ty Leaf)}

/-- The variables of a graph that carry a mark in a later one. -/
def TypeGraph.visited (base graph : TypeGraph) : Set TypePointer :=
  { v | Markable .generalize base v ∧ (graph.nodes v).second ≠ .null }

theorem markable_of_unbound (clean : base.Clean) (inside : v < base.size)
    (unbound : base.Unbound v) : Markable .generalize base v := by
  have blank := clean v inside (.inl unbound.1)
  rcases unbound with ⟨type, first⟩
  refine ⟨inside, ?_⟩
  cases node : base.nodes v
  simp_all [Walk.kind]

theorem reachedFrom_lt (wellFormed : base.WellFormed)
    (within : ∀ n ∈ nonGenerics, n < base.size)
    (reached : base.ReachedFrom nonGenerics v) : v < base.size := by
  rcases reached with ⟨n, member, path⟩
  exact wellFormed.reaches_lt (within n member) path

/-- Among the non-generic variables those are self-marked that are visited. -/
theorem selfMarked_iff_visited (wellFormed : base.WellFormed)
    (clean : base.Clean) (within : ∀ n ∈ nonGenerics, n < base.size)
    (denote : List.Forall₂ (Denotes base) nonGenerics terms)
    (marked : Marked .generalize (base.ReachedFrom nonGenerics) base graph)
    (member : v ∈ listVariables terms) :
    v ∈ graph.selfMarked ↔ v ∈ base.visited graph := by
  rcases (mem_listVariables denote).mp member with ⟨reached, unbound⟩
  have markable := markable_of_unbound clean
    (reachedFrom_lt wellFormed within reached) unbound
  simp only [TypeGraph.selfMarked, TypeGraph.visited, Set.mem_ofPred_eq]
  cases marked.mark v markable with
  | blank second => simp [second]
  | kept _ second => simp [second, markable]
  | replaced moves _ _ _ _ => exact absurd reached moves

/-- A walk through a type visits its variables. -/
theorem Copied.visited (wellFormed : base.WellFormed) (clean : base.Clean)
    {keep : TypePointer → Prop} (inside : p < base.size)
    (denotes : Denotes base p t)
    (copied : Copied .generalize keep base graph p r after) :
    base.visited after =
      base.visited graph ∪ { v | v ∈ t.unboundVariables } := by
  rcases copied.copies with ⟨s, denotesS, seconds, -⟩
  rw [denotesS.unique denotes] at seconds
  ext v
  simp only [TypeGraph.visited, Set.mem_ofPred_eq, Set.mem_union,
    Ty.mem_unboundVariables]
  constructor
  · rintro ⟨markable, second⟩
    rcases copied.step.inside v markable.1 with ⟨path, -⟩ | kept
    · refine .inr (denotes.mem_variables.mpr ⟨path, ?_, ?_⟩)
      · rw [markable.2, Walk.kind]
      · rw [markable.2]
    · exact .inl ⟨markable, kept ▸ second⟩
  · rintro (⟨markable, second⟩ | member)
    · exact ⟨markable, (copied.step.second_eq markable.1 second).symm ▸ second⟩
    · rcases denotes.mem_variables.mp member with ⟨path, unbound⟩
      exact ⟨markable_of_unbound clean (wellFormed.reaches_lt inside path)
        unbound, seconds v member⟩

/-- A type and the node that it is pruned to stand for the same term. -/
theorem Denotes.pruned (denotes : Denotes base p t) :
    ∃ q, Prunes base p q ∧ Denotes base q t := by
  have ended : ∀ {p kind first second}, base.nodes p = ⟨kind, first, second⟩ →
      kind ≠ .variable_ ∨ first = none → Prunes base p p := by
    rintro p kind first second node plain
    refine ⟨.refl, ?_⟩
    rintro r ⟨type, instance_⟩
    rw [node] at type instance_
    rcases plain with other | none_
    · exact other type
    · exact absurd (none_.symm.trans instance_) nofun
  induction denotes with
  | bound node instance_ ih =>
      rcases ih with ⟨r, prunes, here⟩
      have bound : base.Bound _ _ := ⟨by rw [node], by rw [node]⟩
      exact ⟨r, ⟨.head bound prunes.path, prunes.ended⟩, here⟩
  | unbound node => exact ⟨_, ended node (.inr rfl), .unbound node⟩
  | generic node => exact ⟨_, ended node (.inr rfl), .generic node⟩
  | error node => exact ⟨_, ended node (.inr rfl), .error node⟩
  | int node => exact ⟨_, ended node (.inr rfl), .int node⟩
  | bool node => exact ⟨_, ended node (.inr rfl), .bool node⟩
  | func node first second _ _ =>
      exact ⟨_, ended node (.inl nofun), .func node first second⟩
  | tuple node first second _ _ =>
      exact ⟨_, ended node (.inl nofun), .tuple node first second⟩
  | tupleFinal node first _ =>
      exact ⟨_, ended node (.inl nofun), .tupleFinal node first⟩

/-- A function or a tuple is pruned to a node with two arguments. -/
theorem Joins.pruned {kind : TypeExpType} {join : Ty Leaf → Ty Leaf → Ty Leaf}
    (joins : Joins kind join) {s : Ty Leaf}
    (denotes : Denotes base p (join s t)) :
    ∃ q b c, Prunes base p q ∧ base.nodes q = ⟨kind, some b, .type c⟩ ∧
      Denotes base b s ∧ Denotes base c t := by
  rcases denotes.pruned with ⟨q, prunes, here⟩
  cases joins with
  | func =>
      cases here with
      | bound node _ =>
          exact absurd ⟨by rw [node], by rw [node]⟩ (prunes.ended _)
      | func node first second =>
          exact ⟨q, _, _, prunes, node, first, second⟩
  | tuple =>
      cases here with
      | bound node _ =>
          exact absurd ⟨by rw [node], by rw [node]⟩ (prunes.ended _)
      | tuple node first second =>
          exact ⟨q, _, _, prunes, node, first, second⟩

theorem Denotes.pruned_final (denotes : Denotes base p (.tupleFinal t)) :
    ∃ q b, Prunes base p q ∧ base.nodes q = ⟨.tupleFinal, some b, .null⟩ ∧
      Denotes base b t := by
  rcases denotes.pruned with ⟨q, prunes, here⟩
  cases here with
  | bound node _ => exact absurd ⟨by rw [node], by rw [node]⟩ (prunes.ended _)
  | tupleFinal node first => exact ⟨q, _, prunes, node, first⟩

/-- Pruning ends at the same node in a graph that has grown. -/
theorem TypeGraph.Allocates.prunes_after (allocates : base.Allocates graph)
    (wellFormed : base.WellFormed) (inside : p < base.size)
    (prunes : Prunes base p q) : Prunes graph p q := by
  have same : ∀ {r s}, r < base.size → (graph.Bound r s ↔ base.Bound r s) := by
    intro r s below
    have same := allocates.same r below
    rw [TypeGraph.Bound, TypeGraph.Bound, same.1, same.2.1]
  rcases prunes with ⟨path, ended⟩
  induction path using ReflTransGen.head_induction_on with
  | refl => exact ⟨.refl, fun r bound => ended r ((same inside).mp bound)⟩
  | head first _ ih =>
      have rest := ih (wellFormed.link_lt inside first.link)
      exact ⟨.head ((same inside).mpr first) rest.path, rest.ended⟩

/-- Copying a type starts by pruning it. -/
theorem copyTypeExp_settles {kind : TypeExpType}
    {replace : Nat → TypePointer → TypeExp → GraphM TypePointer}
    (prunes : Prunes graph p q)
    (settles : Settles
      (fun fuel =>
        if (graph.nodes q).type = kind then replace fuel q (graph.nodes q)
        else convertArguments (copyTypeExp kind replace fuel) q
          (graph.nodes q))
      graph r after) :
    Settles (fun fuel => copyTypeExp kind replace fuel p) graph r after := by
  apply Settles.succ
    (fun fuel => pruneTypeExp fuel p >>= fun type => node type >>= fun exp =>
      if exp.type = kind then replace fuel type exp
      else convertArguments (copyTypeExp kind replace fuel) type exp)
  · intro fuel
    rw [copyTypeExp]
  · exact .bind prunes.returns settles

theorem genericReplacement_settles (wellFormed : base.WellFormed)
    (clean : base.Clean) (within : ∀ n ∈ nonGenerics, n < base.size)
    (denote : List.Forall₂ (Denotes base) nonGenerics terms)
    (marked : Marked .generalize (base.ReachedFrom nonGenerics) base graph)
    (markable : Markable .generalize base v)
    (visits : v ∈ base.visited graph ∨
      Ahead v (base.visited graph) (listVariables terms)) :
    ∃ r after, Settles
      (fun fuel => genericReplacement nonGenerics fuel v (graph.nodes v))
      graph r after := by
  cases marked.mark v markable with
  | kept _ second | replaced _ second _ _ _ =>
      simp only [genericReplacement, second]
      exact ⟨_, _, .of_eq fun _ => rfl⟩
  | blank blank =>
      have fresh : v ∉ base.visited graph := fun member => member.2 blank
      have ahead := visits.resolve_left fresh
      rw [← ahead_congr fun b member => selfMarked_iff_visited wellFormed clean
        within denote marked member] at ahead
      have searches := isTypeNonGeneric_settles wellFormed marked markable blank
        denote within ahead
      simp only [genericReplacement, blank]
      by_cases member : v ∈ listVariables terms
      · rw [decide_eq_true member] at searches
        exact ⟨_, _, searches.bind (.of_eq fun _ => rfl)⟩
      · rw [decide_eq_false member] at searches
        exact ⟨_, _, searches.bind (.of_eq fun _ => rfl)⟩

end

section

variable {base : TypeGraph} (wellFormed : base.WellFormed)
    (clean : base.Clean) {nonGenerics : List TypePointer}
    (within : ∀ n ∈ nonGenerics, n < base.size) {terms : List (Ty Leaf)}
    (denote : List.Forall₂ (Denotes base) nonGenerics terms)

include wellFormed clean within

/-- The walk of generalisation establishes what a copy does. -/
theorem generalize_copied {graph after : TypeGraph} {p r : TypePointer}
    (marked : Marked .generalize (base.ReachedFrom nonGenerics) base graph)
    (inside : p < base.size)
    (settles : Settles
      (fun fuel => copyTypeExp .variable_ (genericReplacement nonGenerics) fuel p)
      graph r after) :
    Copied .generalize (base.ReachedFrom nonGenerics) base graph p r after :=
  settles.post fun fuel => copyTypeExp_spec wellFormed clean nofun
    (genericReplacement_spec wellFormed within) fuel p marked inside

omit wellFormed clean within

/--
Generalising a type returns wherever its new variables come ahead of the visited
ones.
-/
def Generalizes (base : TypeGraph) (nonGenerics : List TypePointer)
    (terms : List (Ty Leaf)) (t : Ty Leaf) : Prop :=
  ∀ ⦃p : TypePointer⦄ ⦃graph : TypeGraph⦄,
    Marked .generalize (base.ReachedFrom nonGenerics) base graph →
    Denotes base p t → p < base.size →
    Walks (listVariables terms) (base.visited graph) t.unboundVariables →
    ∃ r after, Settles
      (fun fuel => copyTypeExp .variable_ (genericReplacement nonGenerics) fuel p)
      graph r after

include wellFormed

/-- A node that is no variable is generalised by its arguments. -/
theorem generalize_arguments {graph after : TypeGraph} {p q r : TypePointer}
    {exp : TypeExp}
    (marked : Marked .generalize (base.ReachedFrom nonGenerics) base graph)
    (inside : p < base.size) (prunes : Prunes base p q)
    (node : base.nodes q = exp) (plain : ¬exp.IsVariable)
    (settles : Settles
      (fun fuel => convertArguments
        (copyTypeExp .variable_ (genericReplacement nonGenerics) fuel) q exp)
      graph r after) :
    Settles
      (fun fuel => copyTypeExp .variable_ (genericReplacement nonGenerics) fuel p)
      graph r after := by
  apply copyTypeExp_settles
    (marked.allocates.prunes_after wellFormed inside prunes)
  have kept := marked.plain_node
    (wellFormed.reaches_lt inside prunes.reaches) node plain
  have other : exp.type ≠ .variable_ := fun type => plain (.inl type)
  simp only [kept, if_neg other]
  exact settles

include clean within

theorem generalizes_join {kind : TypeExpType}
    {join : Ty Leaf → Ty Leaf → Ty Leaf} (joins : Joins kind join)
    {s t : Ty Leaf} (first : Generalizes base nonGenerics terms s)
    (second : Generalizes base nonGenerics terms t) :
    Generalizes base nonGenerics terms (join s t) := by
  intro p graph marked denotes inside walks
  rcases joins.pruned denotes with
    ⟨q, b, c, prunes, node, denotesB, denotesC⟩
  have insideQ := wellFormed.reaches_lt inside prunes.reaches
  rcases joins.links node with ⟨linkB, linkC⟩
  have insideB := wellFormed.link_lt insideQ linkB
  rw [joins.unboundVariables, walks_append] at walks
  rcases first marked denotesB insideB walks.1 with ⟨rb, middle, settlesB⟩
  have copied := generalize_copied wellFormed clean within marked insideB
    settlesB
  rw [← copied.visited wellFormed clean insideB denotesB] at walks
  rcases second copied.marked denotesC (wellFormed.link_lt insideQ linkC)
    walks.2 with ⟨rc, after, settlesC⟩
  by_cases unchanged : rb = b ∧ rc = c
  · refine ⟨q, after, generalize_arguments wellFormed marked inside prunes node
      (joins.plain b c) ?_⟩
    simp only [convertArguments_both joins]
    exact settlesB.bind (settlesC.bind
      (.of_eq fun _ => by rw [if_pos unchanged]; rfl))
  · refine ⟨after.size, after.add ⟨kind, some rb, .type rc⟩,
      generalize_arguments wellFormed marked inside prunes node
        (joins.plain b c) ?_⟩
    simp only [convertArguments_both joins]
    exact settlesB.bind (settlesC.bind
      (.of_eq fun _ => by rw [if_neg unchanged]; rfl))

omit clean within

theorem generalizes_final {s : Ty Leaf}
    (first : Generalizes base nonGenerics terms s) :
    Generalizes base nonGenerics terms (.tupleFinal s) := by
  intro p graph marked denotes inside walks
  rcases denotes.pruned_final with ⟨q, b, prunes, node, denotesB⟩
  have insideQ := wellFormed.reaches_lt inside prunes.reaches
  rcases first marked denotesB
    (wellFormed.link_lt insideQ (.inl (by rw [node]))) walks with
    ⟨rb, after, settles⟩
  have plain : ¬(TypeExp.mk .tupleFinal (some b) .null).IsVariable := by
    simp [TypeExp.IsVariable]
  by_cases unchanged : rb = b
  · exact ⟨q, after, generalize_arguments wellFormed marked inside prunes node
      plain (settles.bind (.of_eq fun _ => by rw [if_pos unchanged]; rfl))⟩
  · exact ⟨_, _, generalize_arguments wellFormed marked inside prunes node
      plain (settles.bind (.of_eq fun _ => by rw [if_neg unchanged]; rfl))⟩

include clean within denote

theorem generalizes_leaf (leaf : Leaf) :
    Generalizes base nonGenerics terms (.leaf leaf) := by
  intro p graph marked denotes inside walks
  rcases denotes.pruned with ⟨q, prunes, here⟩
  have insideQ := wellFormed.reaches_lt inside prunes.reaches
  have later := marked.allocates.prunes_after wellFormed inside prunes
  cases here with
  | bound node _ => exact absurd ⟨by rw [node], by rw [node]⟩ (prunes.ended _)
  | unbound node =>
      have markable := markable_of_unbound clean insideQ
        ⟨by rw [node], by rw [node]⟩
      have isVariable : (graph.nodes q).type = .variable_ := by
        rw [(marked.allocates.same q insideQ).1, node]
      rcases genericReplacement_settles wellFormed clean within denote marked
        markable walks.1 with ⟨r, after, settles⟩
      refine ⟨r, after, copyTypeExp_settles later ?_⟩
      simp only [if_pos isVariable]
      exact settles
  | generic node =>
      have kept := marked.blank_node insideQ node (.inr (by rw [node]))
        fun other => by cases node.symm.trans other.2
      refine ⟨q, graph, copyTypeExp_settles later ?_⟩
      simp only [kept]
      exact .of_eq fun _ => rfl
  | error node =>
      exact ⟨q, graph, generalize_arguments wellFormed marked inside prunes node
        (by simp [TypeExp.IsVariable]) (.of_eq fun _ => rfl)⟩

/-- A walk that finds every variable ahead of the visited ones returns. -/
theorem generalizes (t : Ty Leaf) : Generalizes base nonGenerics terms t := by
  induction t with
  | leaf leaf => exact generalizes_leaf wellFormed clean within denote leaf
  | int | bool =>
      intro p graph marked denotes inside walks
      rcases denotes.pruned with ⟨q, prunes, here⟩
      cases here with
      | bound node _ =>
          exact absurd ⟨by rw [node], by rw [node]⟩ (prunes.ended _)
      | _ node =>
          exact ⟨q, graph, generalize_arguments wellFormed marked inside prunes
            node (by simp [TypeExp.IsVariable]) (.of_eq fun _ => rfl)⟩
  | func s t first second =>
      exact generalizes_join wellFormed clean within .func first second
  | tuple s t first second =>
      exact generalizes_join wellFormed clean within .tuple first second
  | tupleFinal s first => exact generalizes_final wellFormed first

/-- A variable that is replaced was visited or ahead of the visited ones. -/
theorem genericReplacement_visits {graph : TypeGraph} {v : TypePointer}
    (marked : Marked .generalize (base.ReachedFrom nonGenerics) base graph)
    (markable : Markable .generalize base v) (fuel : Nat) :
    wpExcept (fun _ => True)
      (genericReplacement nonGenerics fuel v (graph.nodes v))
      (fun _ _ => v ∈ base.visited graph ∨
        Ahead v (base.visited graph) (listVariables terms)) graph := by
  by_cases blank : (graph.nodes v).second = .null
  · simp only [genericReplacement, blank, wpExcept_bind]
    apply wpExcept_mono (isTypeNonGeneric_ahead wellFormed marked markable blank
      fuel denote within) ?_ fun _ => id
    rintro found after ⟨rfl, -, ahead⟩
    rw [ahead_congr fun b member => selfMarked_iff_visited wellFormed clean
      within denote marked member] at ahead
    cases found with
    | true => exact .inr ahead
    | false => exact .inr ahead
  · have visited : v ∈ base.visited graph := ⟨markable, blank⟩
    cases second : (graph.nodes v).second with
    | null => exact absurd second blank
    | type other =>
        simp only [genericReplacement, second]
        exact .inl visited
    | name text =>
        simp only [genericReplacement, second]
        trivial

/-- A walk that returns has found every variable ahead of the visited ones. -/
theorem generalize_walks (fuel : Nat) {graph : TypeGraph} {p : TypePointer}
    {t : Ty Leaf}
    (marked : Marked .generalize (base.ReachedFrom nonGenerics) base graph)
    (denotes : Denotes base p t) (inside : p < base.size) :
    wpExcept (fun _ => True)
      (copyTypeExp .variable_ (genericReplacement nonGenerics) fuel p)
      (fun _ _ => Walks (listVariables terms) (base.visited graph)
        t.unboundVariables) graph := by
  induction fuel generalizing p graph t with
  | zero => trivial
  | succ fuel ih =>
      rw [copyTypeExp, wpExcept_bind]
      apply wpExcept_mono (pruneTypeExp_spec fuel p graph) ?_
        fun _ _ => trivial
      rintro q after ⟨rfl, prunesAfter⟩
      rename TypeGraph => graph
      have prunes := marked.allocates.prunes wellFormed inside prunesAfter
      have insideQ := wellFormed.reaches_lt inside prunes.reaches
      rw [wpExcept_bind, wp_node]
      -- The second argument is walked from what the first one has visited.
      have two : ∀ {kind join b c s t}, Joins kind join →
          base.nodes q = ⟨kind, some b, .type c⟩ → Denotes base b s →
          Denotes base c t →
          wpExcept (fun _ => True)
            (convertArguments
              (copyTypeExp .variable_ (genericReplacement nonGenerics) fuel) q
              ⟨kind, some b, .type c⟩)
            (fun _ _ => Walks (listVariables terms) (base.visited graph)
              (join s t).unboundVariables) graph := by
        intro kind join b c s t joins node first second
        rcases joins.links node with ⟨linkB, linkC⟩
        have insideB := wellFormed.link_lt insideQ linkB
        rw [convertArguments_both joins, wpExcept_bind, joins.unboundVariables]
        apply wpExcept_mono (wpExcept_and (ih marked first insideB)
          (copyTypeExp_spec wellFormed clean (by simp)
            (genericReplacement_spec wellFormed within) fuel b marked insideB))
          ?_ fun _ _ => trivial
        rintro rb middle ⟨walksB, copied⟩
        rw [wpExcept_bind]
        apply wpExcept_mono
          (ih copied.marked second (wellFormed.link_lt insideQ linkC)) ?_
          fun _ => id
        intro rc after walksC
        rw [copied.visited wellFormed clean insideB first] at walksC
        have both := (walks_append _ _).mpr ⟨walksB, walksC⟩
        split
        · exact both
        · exact both
      cases prunes.denotes_iff.mp denotes with
      | bound node _ => exact absurd ⟨by rw [node], by rw [node]⟩ (prunes.ended _)
      | unbound node =>
          have markable := markable_of_unbound clean insideQ
            ⟨by rw [node], by rw [node]⟩
          have isVariable : (graph.nodes q).type = .variable_ := by
            rw [(marked.allocates.same q insideQ).1, node]
          rw [if_pos isVariable]
          apply wpExcept_mono (genericReplacement_visits wellFormed clean within
            denote marked markable fuel) ?_ fun _ => id
          exact fun _ _ visits => ⟨visits, trivial⟩
      | generic node =>
          rw [marked.blank_node insideQ node (.inr (by rw [node]))
            fun other => by cases node.symm.trans other.2]
          exact True.intro
      | error node | int node | bool node =>
          rw [marked.plain_node insideQ node (by simp [TypeExp.IsVariable])]
          exact True.intro
      | func node first second =>
          rw [marked.plain_node insideQ node (by simp [TypeExp.IsVariable])]
          exact two .func node first second
      | tuple node first second =>
          rw [marked.plain_node insideQ node (by simp [TypeExp.IsVariable])]
          exact two .tuple node first second
      | tupleFinal node first =>
          have child := wellFormed.link_lt insideQ (.inl (by rw [node]))
          rw [marked.plain_node insideQ node (by simp [TypeExp.IsVariable])]
          rw [if_neg (by simp)]
          simp only [convertArguments, wpExcept_bind]
          apply wpExcept_mono (ih marked first child) ?_ fun _ => id
          intro rb after walks
          split
          · exact walks
          · exact walks

end

/-! ## Generalisation -/

/-- Cleaning up a type starts by pruning it. -/
theorem cleanup_settles {graph after : TypeGraph} {p q : TypePointer}
    {kind : TypeExpType} {first : Option TypePointer} {second : Link}
    (prunes : Prunes graph p q)
    (node : graph.nodes q = ⟨kind, first, second⟩)
    (settles : Settles
      (fun fuel =>
        if kind = .variable_ || kind = .genericVariable then
          setVarTempOther q .null
        else do
          match first with
          | none => pure ()
          | some argFirst => cleanupTypeVariables fuel argFirst
          match second with
          | .null => return ()
          | .type argSecond => cleanupTypeVariables fuel argSecond
          | .name _ => stop .undefinedBehaviour)
      graph () after) :
    Settles (fun fuel => cleanupTypeVariables fuel p) graph () after := by
  rcases prunes.returns with ⟨bound, prunes⟩
  rcases settles with ⟨bound', returns⟩
  refine ⟨max bound bound' + 1, fun fuel enough => ?_⟩
  cases fuel with
  | zero => cases enough
  | succ fuel =>
      have enough := Nat.le_of_succ_le_succ enough
      change cleanupTypeVariables (fuel + 1) p graph = _
      rw [cleanupTypeVariables, bind_returned
        (prunes fuel (Nat.le_trans (Nat.le_max_left ..) enough))]
      refine (bind_returned (node_returns q graph)).trans ?_
      rw [node]
      exact returns fuel (Nat.le_trans (Nat.le_max_right ..) enough)

/-- The clean-up of the types that stand for a term returns. -/
def Cleans (t : Ty Leaf) : Prop :=
  ∀ ⦃p : TypePointer⦄ ⦃graph : TypeGraph⦄, graph.WellFormed →
    Denotes graph p t → p < graph.size →
    ∃ after, Settles (fun fuel => cleanupTypeVariables fuel p) graph () after

theorem cleans_join {kind : TypeExpType} {join : Ty Leaf → Ty Leaf → Ty Leaf}
    (joins : Joins kind join) {s t : Ty Leaf} (first : Cleans s)
    (second : Cleans t) : Cleans (join s t) := by
  intro p graph wellFormed denotes inside
  rcases joins.pruned denotes with
    ⟨q, b, c, prunes, node, denotesB, denotesC⟩
  have insideQ := wellFormed.reaches_lt inside prunes.reaches
  rcases joins.links node with ⟨linkB, linkC⟩
  have insideB := wellFormed.link_lt insideQ linkB
  have insideC := wellFormed.link_lt insideQ linkC
  rcases first wellFormed denotesB insideB with ⟨middle, settlesB⟩
  have cleaned := settlesB.post fun fuel =>
    cleanupTypeVariables_spec wellFormed fuel b insideB
  subst cleaned
  have isVariable := graph.openNodes_isVariable b
  have unmarks := TypeGraph.unmark_allocates isVariable
  rcases second (TypeGraph.unmark_wellFormed wellFormed isVariable)
    (unmarks.denotes wellFormed insideC denotesC) insideC with
    ⟨after, settlesC⟩
  refine ⟨after, cleanup_settles prunes node ?_⟩
  have both : Settles (fun fuel => cleanupTypeVariables fuel b >>= fun _ =>
      cleanupTypeVariables fuel c) graph () after := settlesB.bind settlesC
  cases joins with
  | func => exact both
  | tuple => exact both

theorem cleans (t : Ty Leaf) : Cleans t := by
  induction t with
  | leaf leaf =>
      intro p graph wellFormed denotes inside
      rcases denotes.pruned with ⟨q, prunes, here⟩
      cases here with
      | bound node _ =>
          exact absurd ⟨by rw [node], by rw [node]⟩ (prunes.ended _)
      | unbound node | generic node | error node =>
          exact ⟨_, cleanup_settles prunes node (.of_eq fun _ => rfl)⟩
  | int | bool =>
      intro p graph wellFormed denotes inside
      rcases denotes.pruned with ⟨q, prunes, here⟩
      cases here with
      | bound node _ =>
          exact absurd ⟨by rw [node], by rw [node]⟩ (prunes.ended _)
      | _ node => exact ⟨_, cleanup_settles prunes node (.of_eq fun _ => rfl)⟩
  | func s t first second => exact cleans_join .func first second
  | tuple s t first second => exact cleans_join .tuple first second
  | tupleFinal s first =>
      intro p graph wellFormed denotes inside
      rcases denotes.pruned_final with ⟨q, b, prunes, node, denotesB⟩
      have insideQ := wellFormed.reaches_lt inside prunes.reaches
      rcases first wellFormed denotesB
        (wellFormed.link_lt insideQ (.inl (by rw [node]))) with
        ⟨after, settles⟩
      exact ⟨after, cleanup_settles prunes node
        (settles.bind (.of_eq fun _ => rfl))⟩

section

variable {base : TypeGraph} {p : TypePointer} {t : Ty Leaf}
  {nonGenerics : List TypePointer} {terms : List (Ty Leaf)}

theorem TypeGraph.visited_self (base : TypeGraph) : base.visited base = ∅ := by
  ext v
  simp only [TypeGraph.visited, Set.mem_ofPred_eq, Set.mem_empty_iff_false,
    iff_false]
  rintro ⟨markable, second⟩
  exact second (by rw [markable.2])

/-- Where generalisation returns, the two orders are opposite. -/
theorem opposed_of_returns (wellFormed : base.WellFormed) (clean : base.Clean)
    (within : ∀ n ∈ nonGenerics, n < base.size)
    (denote : List.Forall₂ (Denotes base) nonGenerics terms)
    (denotes : Denotes base p t) (inside : p < base.size) {fuel : Nat}
    {r : TypePointer} {after : TypeGraph}
    (returns : makeGenericTypeExp fuel p nonGenerics base = .ok (r, after)) :
    Opposed t.unboundVariables (listVariables terms) := by
  have walks : wpExcept (fun _ => True) (makeGenericTypeExp fuel p nonGenerics)
      (fun _ _ => Walks (listVariables terms) (base.visited base)
        t.unboundVariables) base := by
    rw [makeGenericTypeExp, makeGenericTypeExpImpl_eq, wpExcept_bind]
    apply wpExcept_mono (generalize_walks wellFormed clean within denote fuel
      (.start .generalize _ wellFormed clean) denotes inside) ?_ fun _ => id
    exact fun _ after walks => wpExcept_const walks after
  have walked := of_wpExcept walks returns
  rwa [TypeGraph.visited_self, walks_empty_iff] at walked

/-- Where the two orders are opposite, generalisation returns. -/
theorem settles_of_opposed (wellFormed : base.WellFormed) (clean : base.Clean)
    (within : ∀ n ∈ nonGenerics, n < base.size)
    (denote : List.Forall₂ (Denotes base) nonGenerics terms)
    (denotes : Denotes base p t) (inside : p < base.size)
    (opposed : Opposed t.unboundVariables (listVariables terms)) :
    ∃ r after, Settles (fun fuel => makeGenericTypeExp fuel p nonGenerics) base
      r after := by
  have start := Marked.start .generalize (base.ReachedFrom nonGenerics)
    wellFormed clean
  have walks : Walks (listVariables terms) (base.visited base)
      t.unboundVariables := by
    rwa [TypeGraph.visited_self, walks_empty_iff]
  rcases generalizes wellFormed clean within denote t start denotes inside walks
    with ⟨r, marked, copies⟩
  have copied := generalize_copied wellFormed clean within start inside copies
  have later := copied.marked.allocates.denotes wellFormed inside denotes
  rcases cleans t copied.marked.wellFormed later
    (Nat.lt_of_lt_of_le inside copied.marked.allocates.size) with
    ⟨after, cleans⟩
  refine ⟨r, after, ?_⟩
  simp only [makeGenericTypeExp, makeGenericTypeExpImpl_eq]
  exact copies.bind (cleans.bind (.of_eq fun _ => rfl))

/--
Generalising a type returns, and generalises it exactly, if and only if the
variables of the type and those of the non-generic list are in opposite orders.
-/
theorem makeGenericTypeExp_exact_iff (wellFormed : base.WellFormed)
    (clean : base.Clean) (within : ∀ n ∈ nonGenerics, n < base.size)
    (denote : List.Forall₂ (Denotes base) nonGenerics terms)
    (inside : p < base.size) (denotes : Denotes base p t) :
    (∃ r after,
      Settles (fun fuel => makeGenericTypeExp fuel p nonGenerics) base r after ∧
        Copies .generalize (base.ReachedFrom nonGenerics) base p r after) ↔
      Opposed t.unboundVariables (listVariables terms) := by
  constructor
  · rintro ⟨r, after, settles, -⟩
    rcases settles.returns with ⟨fuel, returns⟩
    exact opposed_of_returns wellFormed clean within denote denotes inside
      returns
  · intro opposed
    rcases settles_of_opposed wellFormed clean within denote denotes inside
      opposed with ⟨r, after, settles⟩
    exact ⟨r, after, settles, settles.post fun fuel =>
      makeGenericTypeExp_spec wellFormed clean within fuel inside⟩

end

/--
The types of a pair of two types below: `3` is the type of the variable of an
enclosing function and `5` the type of `fn z => z`.
-/
def pairGraph (first last : TypePointer) : TypeGraph :=
  ((((staticGraph.add ⟨.variable_, none, .null⟩).add
    ⟨.variable_, none, .null⟩).add ⟨.func, some 4, .type 4⟩).add
    ⟨.tupleFinal, some last, .null⟩).add ⟨.tuple, some first, .type 6⟩

section

variable {first last : TypePointer}

theorem pairGraph_wellFormed (inFirst : first < 6) (inLast : last < 6) :
    (pairGraph first last).WellFormed := by
  have open_ := TypeGraph.add_wellFormed
    (TypeGraph.add_wellFormed TypeGraph.wellFormed_static (.unbound .null) nofun)
    (.unbound .null) nofun
  have function := TypeGraph.add_wellFormed open_
    (.func (a := 4) (b := 4) (by decide) (by decide)) nofun
  have pair := TypeGraph.add_wellFormed function (.tupleFinal inLast) nofun
  exact TypeGraph.add_wellFormed pair
    (.tuple (Nat.lt_succ_of_lt inFirst) (Nat.lt_succ_self 6)) nofun

theorem pairGraph_clean (first last : TypePointer) :
    (pairGraph first last).Clean := by
  intro p inside isVariable
  match p, inside with
  | 0, _ | 1, _ | 2, _ | 5, _ | 6, _ | 7, _ =>
      rcases isVariable with type | type <;> cases type
  | 3, _ | 4, _ => rfl

theorem pairGraph_outer (first last : TypePointer) :
    Denotes (pairGraph first last) 3 (.leaf (.variable_ 3)) :=
  .unbound rfl

theorem pairGraph_function (first last : TypePointer) :
    Denotes (pairGraph first last) 5
      (.func (.leaf (.variable_ 4)) (.leaf (.variable_ 4))) :=
  .func rfl (.unbound rfl) (.unbound rfl)

end

/-- The pair `(fn z => z, x)` is generalised in a function of `x`. -/
theorem makeGenericTypeExp_function_variable :
    ∃ r after,
      Settles (fun fuel => makeGenericTypeExp fuel 7 [3]) (pairGraph 5 3)
        r after ∧
      Copies .generalize ((pairGraph 5 3).ReachedFrom [3]) (pairGraph 5 3) 7 r
        after := by
  have denotes : Denotes (pairGraph 5 3) 7
      (.tuple (.func (.leaf (.variable_ 4)) (.leaf (.variable_ 4)))
        (.tupleFinal (.leaf (.variable_ 3)))) :=
    .tuple rfl (pairGraph_function 5 3)
      (.tupleFinal rfl (pairGraph_outer 5 3))
  apply (makeGenericTypeExp_exact_iff
    (pairGraph_wellFormed (by decide) (by decide)) (pairGraph_clean 5 3)
    (by decide) (.cons (pairGraph_outer 5 3) .nil) (by decide) denotes).mpr
  have types : ∀ v ∈ [4, 4, 3], ∀ w, Ahead w {v} [4, 4, 3] → Ahead v {w} [3] := by
    simp +contextual [Ahead, eq_comm]
  exact types

/-- The search never returns for the pair `(x, fn z => z)`. -/
theorem makeGenericTypeExp_variable_function :
    (pairGraph 3 5).WellFormed ∧ (pairGraph 3 5).Clean ∧
      Denotes (pairGraph 3 5) 7
        (.tuple (.leaf (.variable_ 3))
          (.tupleFinal (.func (.leaf (.variable_ 4)) (.leaf (.variable_ 4))))) ∧
      ¬∃ fuel r after,
        makeGenericTypeExp fuel 7 [3] (pairGraph 3 5) = .ok (r, after) := by
  have wellFormed : (pairGraph 3 5).WellFormed :=
    pairGraph_wellFormed (by decide) (by decide)
  have denotes : Denotes (pairGraph 3 5) 7
      (.tuple (.leaf (.variable_ 3))
        (.tupleFinal (.func (.leaf (.variable_ 4)) (.leaf (.variable_ 4))))) :=
    .tuple rfl (pairGraph_outer 3 5)
      (.tupleFinal rfl (pairGraph_function 3 5))
  refine ⟨wellFormed, pairGraph_clean 3 5, denotes, ?_⟩
  rintro ⟨fuel, r, after, returns⟩
  have opposed := opposed_of_returns wellFormed (pairGraph_clean 3 5)
    (by decide) (.cons (pairGraph_outer 3 5) .nil) denotes (by decide) returns
  have ahead := opposed 4 (by decide) 3 ⟨by simp, .inl rfl⟩
  exact ahead.1 rfl

end Millie.Types
