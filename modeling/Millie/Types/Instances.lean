import Millie.Types.Moments
import Millie.Types.Solving

/-!
# Instances

`_MakeFreshTypeExp` turns every acyclic type into an instance of it: the same
term over new variables, with the old nodes as they were.  Whatever is looked
up, generalised and unified afterwards, a let-bound name gives an instance of
the same term, in which only the variables that were not generalised may have
got instances of their own.
-/

namespace Millie.Types

open Relation Links Weakest
open Millie.Symbols Millie.Syntax

/-! ## Acyclic types -/

/-- No node that a type reaches is on a cycle. -/
def AcyclicFrom (graph : TypeGraph) (p : TypePointer) : Prop :=
  ∀ q, graph.Reaches p q → ¬TransGen graph.Link q q

section

variable {graph : TypeGraph} {p q : TypePointer} {t : Ty Leaf}

/-- An acyclic type can be ranked by how many nodes follow each of its nodes. -/
theorem AcyclicFrom.ranksFrom (acyclic : AcyclicFrom graph p)
    (wellFormed : graph.WellFormed) (inside : p < graph.size) :
    ∃ rank, RanksFrom graph p rank := by
  let reached : TypePointer → TypePointer → Prop := fun r s =>
    graph.Reaches p r ∧ graph.Link r s
  have noCycle : ∀ r, ¬TransGen reached r r := by
    intro r cycle
    rcases TransGen.head'_iff.mp cycle with ⟨s, ⟨path, -⟩, -⟩
    exact acyclic r path (TransGen.mono (fun _ _ => And.right) r r cycle)
  have finite : ∀ r, { s | TransGen reached r s }.Finite := by
    intro r
    apply (Set.finite_lt_nat graph.size).subset
    intro s path
    rcases TransGen.tail'_iff.mp path with ⟨middle, -, upTo, link⟩
    exact wellFormed.link_lt (wellFormed.reaches_lt inside upTo) link
  have ranks := Ranks.of_acyclic noCycle finite
  exact ⟨_, fun r s path link => ranks r s ⟨path, link⟩⟩

/-- A type is acyclic when the types that it links to are. -/
theorem AcyclicFrom.of_links
    (links : ∀ q, graph.Link p q → AcyclicFrom graph q) :
    AcyclicFrom graph p := by
  intro q path cycle
  rcases path.cases_head with rfl | ⟨r, link, rest⟩
  · rcases TransGen.head'_iff.mp cycle with ⟨r, link, back⟩
    exact links r link p back cycle
  · exact links r link q rest cycle

/-- A type that stands for a term is acyclic. -/
theorem Denotes.acyclicFrom (denotes : Denotes graph p t) :
    AcyclicFrom graph p := by
  induction denotes with
  | bound node instance_ ih =>
      apply AcyclicFrom.of_links
      rintro r (first | ⟨plain, -⟩)
      · rw [node] at first
        cases first
        exact ih
      · exact absurd (.inl (by rw [node])) plain
  | unbound node | generic node =>
      apply AcyclicFrom.of_links
      rintro r (first | ⟨plain, -⟩)
      · rw [node] at first
        cases first
      · exact absurd (by simp [TypeExp.IsVariable, node]) plain
  | error node | int node | bool node =>
      apply AcyclicFrom.of_links
      rintro r (first | ⟨-, second⟩)
      · rw [node] at first
        cases first
      · rw [node] at second
        cases second
  | func node first second firstIh secondIh
  | tuple node first second firstIh secondIh =>
      apply AcyclicFrom.of_links
      rintro r (isFirst | ⟨-, isSecond⟩)
      · rw [node] at isFirst
        cases isFirst
        exact firstIh
      · rw [node] at isSecond
        cases isSecond
        exact secondIh
  | tupleFinal node first firstIh =>
      apply AcyclicFrom.of_links
      rintro r (isFirst | ⟨-, isSecond⟩)
      · rw [node] at isFirst
        cases isFirst
        exact firstIh
      · rw [node] at isSecond
        cases isSecond

/-- The acyclic types are those that stand for a term. -/
theorem acyclicFrom_iff (wellFormed : graph.WellFormed)
    (inside : p < graph.size) :
    AcyclicFrom graph p ↔ ∃ t, Denotes graph p t := by
  constructor
  · intro acyclic
    rcases acyclic.ranksFrom wellFormed inside with ⟨rank, ranks⟩
    exact ranks.denotes wellFormed inside
  · rintro ⟨t, denotes⟩
    exact denotes.acyclicFrom

end

/-! ## Instances of a type -/

/-- `r` is a copy of `p` in which new variables replace the generic ones. -/
structure Instantiates (base : TypeGraph) (p r : TypePointer)
    (after : TypeGraph) (t : Ty Leaf) (image : TypePointer → TypePointer) :
    Prop where
  original : Denotes base p t
  result : Denotes after r
    (t.bind fun leaf => .leaf (Walk.freshen.rename image leaf))
  new : ∀ v, Leaf.generic v ∈ t.leaves →
    base.size ≤ image v ∧ image v < after.size ∧
      after.nodes (image v) = ⟨.variable_, none, .null⟩
  injective : ∀ v w, Leaf.generic v ∈ t.leaves → Leaf.generic w ∈ t.leaves →
    image v = image w → v = w
  noGenerics : ∀ q, after.Reaches r q →
    (after.nodes q).type ≠ .genericVariable
  untouched : ∀ v < base.size, after.nodes v = base.nodes v
  inside : r < after.size
  wellFormed : after.WellFormed
  clean : after.Clean

section

variable {base after : TypeGraph} {p r : TypePointer} {t : Ty Leaf}

theorem not_generic_freshen {image : TypePointer → TypePointer}
    {v : TypePointer} :
    Leaf.generic v ∉
      (t.bind fun leaf => .leaf (Walk.freshen.rename image leaf)).leaves := by
  intro member
  rcases Ty.mem_leaves_bind.mp member with ⟨a, -, renamed⟩
  have same := List.mem_singleton.mp renamed
  cases a <;> cases same

/-- What freshening copies is an instance. -/
theorem Copies.instantiates (clean : base.Clean)
    (copies : Copies .freshen (fun _ => False) base p r after) :
    ∃ t image, Instantiates base p r after t image := by
  rcases copies.copies with ⟨t, image, denotes, renames, result⟩
  exact ⟨t, image, {
    original := denotes
    result := result
    new := fun v member => renames.new v member not_false
    injective := fun v w left right =>
      renames.injective v w left right not_false not_false
    noGenerics := fun q path generic =>
      not_generic_freshen (result.generic_mem path generic)
    untouched := fun v below =>
      copies.allocates.node_eq clean copies.clean below
    inside := copies.inside
    wellFormed := copies.wellFormed
    clean := copies.clean }⟩

/-- Making a type of a clean graph fresh gives an instance, if it returns. -/
theorem makeFreshTypeExp_instantiates (wellFormed : base.WellFormed)
    (clean : base.Clean) (inside : p < base.size) {fuel : Nat}
    (returns : makeFreshTypeExp fuel p base = .ok (r, after)) :
    ∃ t image, Instantiates base p r after t image := by
  have spec := makeFreshTypeExp_spec wellFormed clean fuel inside
  exact Copies.instantiates clean (of_wpExcept spec returns)

/-- Making an acyclic type fresh returns, with enough fuel. -/
theorem makeFreshTypeExp_returns (wellFormed : base.WellFormed)
    (clean : base.Clean) (inside : p < base.size)
    (acyclic : AcyclicFrom base p) :
    ∃ enough, ∀ fuel ≥ enough, ∃ r after,
      makeFreshTypeExp fuel p base = .ok (r, after) := by
  rcases acyclic.ranksFrom wellFormed inside with ⟨rank, ranks⟩
  refine ⟨rank p + 2, fun fuel large => ?_⟩
  have never : ∀ stop, ¬StarvedWalk base fuel p stop := by
    rintro stop ⟨-, least⟩
    have := least rank ranks
    omega
  rcases returns_of_wpExcept
    (makeFreshTypeExp_spec wellFormed clean fuel inside) never with
    ⟨r, after, returns, -⟩
  exact ⟨r, after, returns⟩

end

/-! ## Inference between two lookups -/

/-- A call of the analysis that allocates, looks up, generalises or unifies. -/
inductive InferenceStep : CheckState → CheckState → Prop where
  | allocates {before after : CheckState} {contents : TypeExp}
      {type : TypePointer} (shaped : contents.Shaped before.graph.size)
      (noError : contents.type ≠ .error)
      (blank : contents.IsVariable → contents.second = .null)
      (returns : onGraph (allocate contents) before = (.ok type, after)) :
      InferenceStep before after
  | looksUp {before after : CheckState} {fuel : Nat} {id : Symbol}
      {env : TypeEnvironment} {result : Option TypePointer}
      (inside : ∀ entry ∈ env, entry.2 < before.graph.size)
      (returns : onGraph (lookupType fuel id env) before =
        (.ok result, after)) : InferenceStep before after
  | generalises {before after : CheckState} {fuel : Nat} {p r : TypePointer}
      {nonGenerics : List TypePointer} (inside : p < before.graph.size)
      (within : ∀ n ∈ nonGenerics, n < before.graph.size)
      (returns : onGraph (makeGenericTypeExp fuel p nonGenerics) before =
        (.ok r, after)) : InferenceStep before after
  | unifies {before after : CheckState} {tokens : Tokens} {fuel : Nat}
      {range : TokenRange} {errorCode : UnificationError} {p q : TypePointer}
      (insideP : p < before.graph.size) (insideQ : q < before.graph.size)
      (returns : unify tokens fuel range errorCode p q before =
        (.ok (), after)) : InferenceStep before after

/-- Replace the variables that are not generic. -/
def Leaf.under (σ : TypePointer → Ty Leaf) : Leaf → Ty Leaf
  | .variable_ v => σ v
  | a => .leaf a

/-- A later graph, in which old variables may have got instances. -/
structure Extends (before after : TypeGraph) : Prop where
  wellFormed : after.WellFormed
  clean : after.Clean
  size : before.size ≤ after.size
  nodes : ∀ v < before.size, after.nodes v = before.nodes v ∨
    before.Unbound v ∧
      ∃ q, after.nodes v = { before.nodes v with first := some q }

namespace Extends

variable {before middle after : TypeGraph} {p : TypePointer} {t : Ty Leaf}

theorem refl (wellFormed : before.WellFormed) (clean : before.Clean) :
    Extends before before :=
  ⟨wellFormed, clean, Nat.le_refl _, fun _ _ => .inl rfl⟩

theorem trans (first : Extends before middle)
    (second : Extends middle after) : Extends before after where
  wellFormed := second.wellFormed
  clean := second.clean
  size := Nat.le_trans first.size second.size
  nodes v inside := by
    have inMiddle := Nat.lt_of_lt_of_le inside first.size
    rcases first.nodes v inside with same | ⟨unbound, q, bound⟩
    · rcases second.nodes v inMiddle with same' | ⟨unbound, q, bound⟩
      · exact .inl (same'.trans same)
      · rw [TypeGraph.Unbound, same] at unbound
        exact .inr ⟨unbound, q, by rw [bound, same]⟩
    · rcases second.nodes v inMiddle with same' | ⟨unbound', -⟩
      · exact .inr ⟨unbound, q, same'.trans bound⟩
      · rw [TypeGraph.Unbound, bound] at unbound'
        cases unbound'.2

theorem of_progress {bad : TypeExpType → Prop} {roots live : List TypePointer}
    (progress : Progress bad roots before after live) :
    Extends before after where
  wellFormed := progress.wellFormed
  clean := progress.clean
  size := progress.grows.size
  nodes v inside :=
    (progress.grows.nodes v inside).imp_right fun ⟨unbound, _, bound⟩ =>
      ⟨unbound, bound⟩

theorem of_allocates (allocates : before.Allocates after)
    (clean : before.Clean) (wellFormed : after.WellFormed)
    (cleanAfter : after.Clean) : Extends before after :=
  have progress : Progress (fun _ => False) [] before after [] :=
    .of_allocates allocates clean wellFormed cleanAfter
  .of_progress progress

theorem of_copies {walk : Walk} {keep : TypePointer → Prop}
    {r : TypePointer} (clean : before.Clean)
    (copies : Copies walk keep before p r after) : Extends before after :=
  .of_allocates copies.allocates clean copies.wellFormed copies.clean

/-- Only variables of the old graph got instances. -/
theorem grows (later : Extends before after) :
    Grows (List.range before.size) before after where
  size := later.size
  nodes v inside :=
    (later.nodes v inside).imp_right fun ⟨unbound, bound⟩ =>
      ⟨unbound, ⟨v, List.mem_range.mpr inside, .refl⟩, bound⟩

/-- A type stands for its term with instances for its variables. -/
theorem denotes (later : Extends before after)
    (wellFormed : before.WellFormed) (inside : p < before.size)
    {σ : TypePointer → Ty Leaf} (denotes : Denotes before p t)
    (instances : ∀ v, Leaf.variable_ v ∈ t.leaves → Denotes after v (σ v)) :
    Denotes after p (t.bind (Leaf.under σ)) := by
  have kept : ∀ {p}, p < before.size →
      ((before.nodes p).type = .variable_ → (before.nodes p).first ≠ none) →
      after.nodes p = before.nodes p := by
    intro p inside closed
    rcases later.nodes p inside with same | ⟨unbound, -⟩
    · exact same
    · exact absurd unbound.2 (closed unbound.1)
  induction denotes with
  | bound node instance_ ih =>
      exact .bound ((kept inside (by simp [node])).trans node)
        (ih (wellFormed.link_lt inside (.inl (by rw [node]))) instances)
  | unbound node => exact instances _ (List.mem_singleton_self _)
  | generic node => exact .generic ((kept inside (by simp [node])).trans node)
  | error node => exact .error ((kept inside (by simp [node])).trans node)
  | int node => exact .int ((kept inside (by simp [node])).trans node)
  | bool node => exact .bool ((kept inside (by simp [node])).trans node)
  | func node first second firstIh secondIh =>
      exact .func ((kept inside (by simp [node])).trans node)
        (firstIh (wellFormed.link_lt inside (.inl (by rw [node])))
          fun v member => instances v (List.mem_append_left _ member))
        (secondIh (wellFormed.link_lt inside
            (.inr ⟨by simp [node, TypeExp.IsVariable], by rw [node]⟩))
          fun v member => instances v (List.mem_append_right _ member))
  | tuple node first second firstIh secondIh =>
      exact .tuple ((kept inside (by simp [node])).trans node)
        (firstIh (wellFormed.link_lt inside (.inl (by rw [node])))
          fun v member => instances v (List.mem_append_left _ member))
        (secondIh (wellFormed.link_lt inside
            (.inr ⟨by simp [node, TypeExp.IsVariable], by rw [node]⟩))
          fun v member => instances v (List.mem_append_right _ member))
  | tupleFinal node first firstIh =>
      exact .tupleFinal ((kept inside (by simp [node])).trans node)
        (firstIh (wellFormed.link_lt inside (.inl (by rw [node]))) instances)

/-- The variables of a type have terms whenever the type has one. -/
theorem exists_instances (later : Extends before after)
    (wellFormed : before.WellFormed) (inside : p < before.size)
    (earlier : Denotes before p t) {t' : Ty Leaf} (denotes : Denotes after p t') :
    ∃ σ : TypePointer → Ty Leaf,
      (∀ v, Leaf.variable_ v ∈ t.leaves → Denotes after v (σ v)) ∧
        t' = t.bind (Leaf.under σ) := by
  have known : ∀ v, Leaf.variable_ v ∈ t.leaves → ∃ u, Denotes after v u := by
    intro v member
    have reached := (earlier.mem_variables.mp member).1
    rcases denotes.reaches (later.grows.reaches wellFormed inside reached)
      with ⟨u, here, -⟩
    exact ⟨u, here⟩
  have : Nonempty (Ty Leaf) := ⟨.int⟩
  choose! σ instances using known
  exact ⟨σ, instances,
    denotes.unique (later.denotes wellFormed inside earlier instances)⟩

/-- A type whose variables are acyclic is so, too. -/
theorem acyclicFrom (later : Extends before after)
    (wellFormed : before.WellFormed) (inside : p < before.size)
    (denotes : Denotes before p t)
    (acyclic : ∀ v, Leaf.variable_ v ∈ t.leaves → AcyclicFrom after v) :
    AcyclicFrom after p := by
  have known : ∀ v, Leaf.variable_ v ∈ t.leaves → ∃ u, Denotes after v u := by
    intro v member
    have reached := (denotes.mem_variables.mp member).1
    exact (acyclicFrom_iff later.wellFormed (Nat.lt_of_lt_of_le
      (wellFormed.reaches_lt inside reached) later.size)).mp (acyclic v member)
  have : Nonempty (Ty Leaf) := ⟨.int⟩
  choose! σ instances using known
  exact (later.denotes wellFormed inside denotes instances).acyclicFrom

end Extends

/-! ## Steps and runs -/

section

variable {state later : CheckState}

/-- What a step on the graph that returned established. -/
theorem of_onGraph {α : Type} {step : GraphM α} {fail : Stop → Prop}
    {done : α → TypeGraph → Prop} {value : α}
    (holds : wpExcept fail step done state.graph)
    (returns : onGraph step state = (.ok value, later)) :
    done value later.graph := by
  have spec : wp (fun _ => True) (onGraph step)
      (fun value after => done value after.graph) state :=
    wp_onGraph holds trivial fun _ _ => id
  have established := of_wp spec returns
  exact established

theorem InferenceStep.extends (step : InferenceStep state later)
    (wellFormed : state.graph.WellFormed) (clean : state.graph.Clean) :
    Extends state.graph later.graph := by
  cases step with
  | @allocates contents _ shaped noError blank returns =>
      have added := Later.add wellFormed clean shaped noError blank
      cases returns
      exact .of_allocates (TypeGraph.add_allocates _ contents) clean
        added.wellFormed added.clean
  | looksUp inside returns =>
      rcases of_onGraph (lookupType_spec _ _ wellFormed clean inside)
        returns with ⟨-, same⟩ | ⟨entry, -, r, -, copies⟩
      · rw [same]
        exact .refl wellFormed clean
      · exact .of_copies clean copies
  | generalises inside within returns =>
      exact .of_copies clean
        (of_onGraph (makeGenericTypeExp_spec wellFormed clean within _ inside)
          returns)
  | @unifies _ _ _ _ p q insideP insideQ returns =>
      rcases of_wp (unify_spec _ wellFormed clean insideP insideQ) returns with
        ⟨moments, reports, unifies, -⟩
      have within : ∀ n ∈ [p, q], n < state.graph.size := by
        intro n member
        rcases Unifies.mem_pair member with rfl | rfl <;> assumption
      have progress : Progress (fun _ => False) [p, q] state.graph
          later.graph [] :=
        unifies.progress wellFormed clean within fun _ _ _ _ => id
      exact .of_progress progress

/-- What holds of old nodes after one step holds after a run. -/
theorem extends_of_run (run : ReflTransGen InferenceStep state later)
    (wellFormed : state.graph.WellFormed) (clean : state.graph.Clean) :
    Extends state.graph later.graph := by
  induction run with
  | refl => exact .refl wellFormed clean
  | tail _ step ih => exact ih.trans (step.extends ih.wellFormed ih.clean)

/-! ## Lookups -/

/-- Looking up a bound name makes the type of its first binding fresh. -/
theorem lookupType_found {fuel : Nat} {id : Symbol} {env : TypeEnvironment}
    {entry : Symbol × TypePointer}
    (found : env.find? (fun entry => entry.1 = id) = some entry) :
    lookupType fuel id env = do
      let freshType ← makeFreshTypeExp fuel entry.2
      return some freshType := by
  induction env with
  | nil => cases found
  | cons first env ih =>
      rw [lookupType]
      by_cases same : first.1 = id
      · rw [List.find?_cons_of_pos (by simpa using same)] at found
        cases found
        rw [if_pos same]
      · rw [List.find?_cons_of_neg (by simpa using same)] at found
        rw [if_neg same]
        exact ih found

/--
Making an acyclic type fresh gives an instance of its term.  After any run of
inference steps a lookup of a name that is bound to the type gives an instance
of the same term, up to the instances that its variables, but no generic ones,
have got; and it returns as long as these variables are acyclic.
-/
theorem lookupType_instances (wellFormed : state.graph.WellFormed)
    (clean : state.graph.Clean) {p : TypePointer}
    (inside : p < state.graph.size) (acyclic : AcyclicFrom state.graph p)
    {id : Symbol} {env : TypeEnvironment}
    (found : env.find? (fun entry => entry.1 = id) = some (id, p)) :
    ∃ t, Denotes state.graph p t ∧
      (∃ enough, ∀ fuel ≥ enough, ∃ r after image,
        makeFreshTypeExp fuel p state.graph = .ok (r, after) ∧
          Instantiates state.graph p r after t image) ∧
      ∀ later, ReflTransGen InferenceStep state later →
        (∀ fuel result after,
          lookupType fuel id env later.graph = .ok (result, after) →
          ∃ r σ image, result = some r ∧
            (∀ v, Leaf.variable_ v ∈ t.leaves →
              Denotes later.graph v (σ v)) ∧
            Instantiates later.graph p r after (t.bind (Leaf.under σ))
              image) ∧
        ((∀ v, Leaf.variable_ v ∈ t.leaves → AcyclicFrom later.graph v) →
          ∃ enough, ∀ fuel ≥ enough, ∃ r after,
            lookupType fuel id env later.graph = .ok (some r, after)) := by
  rcases (acyclicFrom_iff wellFormed inside).mp acyclic with ⟨t, denotes⟩
  refine ⟨t, denotes, ?_, fun later run => ?_⟩
  · rcases makeFreshTypeExp_returns wellFormed clean inside acyclic with
      ⟨enough, returns⟩
    refine ⟨enough, fun fuel large => ?_⟩
    rcases returns fuel large with ⟨r, after, returned⟩
    rcases makeFreshTypeExp_instantiates wellFormed clean inside returned with
      ⟨t', image, instantiates⟩
    cases instantiates.original.unique denotes
    exact ⟨r, after, image, returned, instantiates⟩
  · have extended := extends_of_run run wellFormed clean
    have below := Nat.lt_of_lt_of_le inside extended.size
    constructor
    · intro fuel result after returns
      rw [lookupType_found found] at returns
      rcases fresh : makeFreshTypeExp fuel p later.graph with stop | ⟨r, middle⟩
      · rw [bind_stopped fresh] at returns
        cases returns
      · rw [bind_returned fresh] at returns
        cases returns
        rcases makeFreshTypeExp_instantiates extended.wellFormed
          extended.clean below fresh with ⟨t', image, instantiates⟩
        rcases extended.exists_instances wellFormed inside denotes
          instantiates.original with ⟨σ, instances, same⟩
        exact ⟨r, σ, image, rfl, instances, same ▸ instantiates⟩
    · intro instances
      rcases makeFreshTypeExp_returns extended.wellFormed extended.clean below
        (extended.acyclicFrom wellFormed inside denotes instances) with
        ⟨enough, returns⟩
      refine ⟨enough, fun fuel large => ?_⟩
      rcases returns fuel large with ⟨r, after, returned⟩
      refine ⟨r, after, ?_⟩
      rw [lookupType_found found, bind_returned returned]
      rfl

end

/-- The generalised type `4` of `fn x => x`. -/
def genericIdentity : CheckState :=
  ⟨(staticGraph.add ⟨.genericVariable, none, .null⟩).add
    ⟨.func, some 3, .type 3⟩, [], []⟩

/-- The state after the identity was looked up: `6` is the type from `5` to `5`. -/
def instantiatedIdentity : CheckState :=
  (onGraph (lookupType 9 0 [(0, 4)]) genericIdentity).2

/-- The state after the argument of the instance was unified with int. -/
def unifiedIdentity : CheckState :=
  (unify (fun _ => ⟨.tokEof, 0, 0⟩) 9 ⟨0, 0⟩ .invalidFunctionApply 5 0
    instantiatedIdentity).2

theorem unifiedIdentity_run :
    ReflTransGen InferenceStep genericIdentity unifiedIdentity := by
  have lookup : onGraph (lookupType 9 0 [(0, 4)]) genericIdentity =
      (.ok (some 6), instantiatedIdentity) := rfl
  have unification : unify (fun _ => ⟨.tokEof, 0, 0⟩) 9 ⟨0, 0⟩
      .invalidFunctionApply 5 0 instantiatedIdentity =
        (.ok (), unifiedIdentity) := rfl
  have inside : ∀ entry ∈ [((0 : Symbol), 4)],
      entry.2 < genericIdentity.graph.size := by decide
  exact (ReflTransGen.single (.looksUp inside lookup)).tail
    (.unifies (by decide) (by decide) unification)

/-- Unifying one instance of the identity leaves the next one general. -/
theorem lookupType_instances_identity :
    ∃ enough, ∀ fuel ≥ enough, ∃ r after image,
      lookupType fuel 0 [(0, 4)] unifiedIdentity.graph = .ok (some r, after) ∧
        Instantiates unifiedIdentity.graph 4 r after
          (.func (.leaf (.generic 3)) (.leaf (.generic 3))) image := by
  have wellFormed : genericIdentity.graph.WellFormed := by
    have generic := TypeGraph.add_wellFormed TypeGraph.wellFormed_static
      (.generic .null) nofun
    exact TypeGraph.add_wellFormed generic
      (.func (a := 3) (b := 3) (by decide) (by decide)) nofun
  have clean : genericIdentity.graph.Clean := by
    intro p inside isVariable
    match p, inside with
    | 0, _ | 1, _ | 2, _ | 4, _ =>
        rcases isVariable with type | type <;> cases type
    | 3, _ => rfl
  have identity : Denotes genericIdentity.graph 4
      (.func (.leaf (.generic 3)) (.leaf (.generic 3))) :=
    .func rfl (.generic rfl) (.generic rfl)
  have found : [((0 : Symbol), 4)].find? (fun entry => entry.1 = 0) =
      some (0, 4) := rfl
  rcases lookupType_instances wellFormed clean (by decide)
    identity.acyclicFrom found with ⟨t, denotes, -, later⟩
  cases denotes.unique identity
  rcases later unifiedIdentity unifiedIdentity_run with ⟨instances, returns⟩
  rcases returns nofun with ⟨enough, enoughReturns⟩
  refine ⟨enough, fun fuel large => ?_⟩
  rcases enoughReturns fuel large with ⟨r, after, returned⟩
  rcases instances fuel (some r) after returned with
    ⟨r', σ, image, same, -, result⟩
  cases same
  exact ⟨r, after, image, returned, result⟩

end Millie.Types
