import Millie.Types.Progress

/-!
# Copies and rebinding

Making a type fresh or generic is progress in the sense of `Progress`.  The let
rec rebinding is more: it gives a variable an instance without asking whether
that instance leads back to the variable.
-/

namespace Millie.Types

open Relation Links

/-! ## Leaves -/

/-- The kind of node that a leaf is. -/
def Leaf.type : Leaf → TypeExpType
  | .variable_ _ => .variable_
  | .generic _ => .genericVariable
  | .error => .error

namespace Denotes

variable {graph : TypeGraph} {p q : TypePointer} {t : Ty Leaf}

theorem leaf_type {a : Leaf} (denotes : Denotes graph p (.leaf a)) :
    ∃ q, graph.Reaches p q ∧ (graph.nodes q).type = a.type := by
  generalize same : Ty.leaf a = t at denotes
  induction denotes with
  | bound node instance_ ih =>
      rcases ih same with ⟨q, path, type⟩
      exact ⟨q, .head (.inl (by rw [node])) path, type⟩
  | unbound node =>
      cases same
      exact ⟨_, .refl, by rw [node]; rfl⟩
  | generic node =>
      cases same
      exact ⟨_, .refl, by rw [node]; rfl⟩
  | error node =>
      cases same
      exact ⟨_, .refl, by rw [node]; rfl⟩
  | _ => cases same

theorem generic_mem (denotes : Denotes graph p t) (path : graph.Reaches p q)
    (type : (graph.nodes q).type = .genericVariable) :
    Leaf.generic q ∈ t.leaves := by
  rcases denotes.reaches path with ⟨s, here, inside⟩
  cases here <;> simp_all [Ty.leaves]

theorem error_mem (denotes : Denotes graph p t) (path : graph.Reaches p q)
    (type : (graph.nodes q).type = .error) : Leaf.error ∈ t.leaves := by
  rcases denotes.reaches path with ⟨s, here, inside⟩
  cases here <;> simp_all [Ty.leaves]

/-- Whether a type reaches a bad leaf is a matter of its term. -/
theorem free_iff {bad : TypeExpType → Prop}
    (leafy : ∀ type, bad type → type = .genericVariable ∨ type = .error)
    (denotes : Denotes graph p t) :
    Free bad graph p ↔ ∀ a ∈ t.leaves, ¬bad a.type := by
  constructor
  · intro free a member isBad
    rcases denotes.leaf_reached member with ⟨q, path, here⟩
    rcases here.leaf_type with ⟨r, further, type⟩
    rw [← type] at isBad
    exact free r (path.trans further) isBad
  · intro good q path isBad
    rcases leafy _ isBad with type | type
    · apply good _ (denotes.generic_mem path type)
      rwa [type] at isBad
    · apply good _ (denotes.error_mem path type)
      rwa [type] at isBad

/-- An argument stands for a smaller term. -/
theorem smaller (denotes : Denotes graph p t) (link : graph.Link p q)
    (argument : ¬graph.Bound p q) :
    ∃ s, Denotes graph q s ∧ s.size < t.size := by
  unfold TypeGraph.Link at link
  cases denotes with
  | bound node instance_ =>
      rw [node] at link
      rcases link with first | ⟨plain, -⟩
      · cases first
        exact absurd ⟨by rw [node], by rw [node]⟩ argument
      · exact absurd (.inl rfl) plain
  | unbound node | generic node | error node | int node | bool node =>
      rw [node] at link
      rcases link with first | ⟨plain, second⟩
      · cases first
      · cases second <;> exact absurd (by simp [TypeExp.IsVariable]) plain
  | func node first second | tuple node first second =>
      rw [node] at link
      rcases link with isFirst | ⟨-, isSecond⟩
      · cases isFirst
        exact ⟨_, first, by simp only [Ty.size]; omega⟩
      · cases isSecond
        exact ⟨_, second, by simp only [Ty.size]; omega⟩
  | tupleFinal node first =>
      rw [node] at link
      rcases link with isFirst | ⟨-, isSecond⟩
      · cases isFirst
        exact ⟨_, first, Nat.lt_succ_self _⟩
      · cases isSecond

theorem size_le (denotes : Denotes graph p t) (path : graph.Reaches p q) :
    ∃ s, Denotes graph q s ∧ s.size ≤ t.size := by
  induction path with
  | refl => exact ⟨t, denotes, Nat.le_refl _⟩
  | @tail middle q _ last ih =>
      rcases ih with ⟨s, here, le⟩
      by_cases bound : graph.Bound middle q
      · cases here <;> simp_all [TypeGraph.Bound]
        exact ⟨_, by assumption, le⟩
      · rcases here.smaller last bound with ⟨r, next, lt⟩
        exact ⟨r, next, Nat.le_trans (Nat.le_of_lt lt) le⟩

/-- A pruned type does not lead to an equally large one. -/
theorem not_reaches (denotes : Denotes graph p t)
    (pruned : ∀ r, ¬graph.Bound p r) (other : p ≠ q) {s : Ty Leaf}
    (target : Denotes graph q s) (large : t.size ≤ s.size) :
    ¬graph.Reaches p q := by
  intro path
  rcases path.cases_head with same | ⟨r, first, rest⟩
  · exact other same
  · rcases denotes.smaller first (pruned r) with ⟨u, next, lt⟩
    rcases next.size_le rest with ⟨s', here, le⟩
    rw [here.unique target] at le
    exact Nat.lt_irrefl _
      (Nat.lt_of_le_of_lt (Nat.le_trans large le) lt)

end Denotes

/-! ## Allocation -/

/-- Old nodes are untouched when no variable carries a mark. -/
theorem TypeGraph.Allocates.node_eq {before after : TypeGraph}
    (allocates : before.Allocates after) (clean : before.Clean)
    (cleanAfter : after.Clean) {v : TypePointer} (inside : v < before.size) :
    after.nodes v = before.nodes v := by
  have grows : Grows [] before after := .of_allocates allocates clean cleanAfter
  rcases grows.nodes v inside with same | ⟨-, ⟨n, member, -⟩, -⟩
  · exact same
  · cases member

/-- Allocation is progress from nothing. -/
theorem Progress.of_allocates {bad : TypeExpType → Prop}
    {before after : TypeGraph} (allocates : before.Allocates after)
    (clean : before.Clean) (wellFormed : after.WellFormed)
    (cleanAfter : after.Clean) : Progress bad [] before after [] where
  wellFormed := wellFormed
  clean := cleanAfter
  grows := .of_allocates allocates clean cleanAfter
  inside := nofun
  confined := by rintro p (member | member) <;> cases member
  free := by rintro p (member | member) <;> cases member

/-- An instance changes no kind. -/
theorem bind_type (graph : TypeGraph) (v instance_ q : TypePointer) :
    ((graph.bind v instance_).nodes q).type = (graph.nodes q).type := by
  by_cases here : q = v
  · rw [here, TypeGraph.bind_node]
  · rw [TypeGraph.bind_old graph instance_ here]

/-! ## Copies -/

/-- The kinds that no type outside the environment may reach. -/
def Unwanted (errors : List ErrorReport) (type : TypeExpType) : Prop :=
  type = .genericVariable ∨ errors = [] ∧ type = .error

/-- The kind that no type in the environment may reach. -/
def Failed (errors : List ErrorReport) (type : TypeExpType) : Prop :=
  errors = [] ∧ type = .error

theorem Unwanted.leafy {errors : List ErrorReport} (type : TypeExpType)
    (bad : Unwanted errors type) : type = .genericVariable ∨ type = .error :=
  bad.imp_right And.right

theorem Failed.leafy {errors : List ErrorReport} (type : TypeExpType)
    (bad : Failed errors type) : type = .genericVariable ∨ type = .error :=
  .inr bad.2

/-- A leaf of a copy is a leaf of the original or an image. -/
theorem Walk.mem_rename {walk : Walk} {image : TypePointer → TypePointer}
    {t : Ty Leaf} {a : Leaf}
    (member : a ∈ (t.bind fun leaf => .leaf (walk.rename image leaf)).leaves) :
    ∃ leaf ∈ t.leaves, a = walk.rename image leaf := by
  rcases Ty.mem_leaves_bind.mp member with ⟨leaf, inside, here⟩
  exact ⟨leaf, inside, List.mem_singleton.mp here⟩

theorem Walk.rename_error {walk : Walk} {image : TypePointer → TypePointer}
    {leaf : Leaf} (isError : (walk.rename image leaf).type = .error) :
    leaf = .error := by
  cases walk with
  | generalize =>
      cases leaf with
      | variable_ v =>
          rw [Walk.rename] at isError
          split at isError <;> cases isError
      | generic v => cases isError
      | error => rfl
  | freshen =>
      cases leaf with
      | variable_ v => cases isError
      | generic v => cases isError
      | error => rfl

theorem Ty.size_rename (t : Ty Leaf) (rename : Leaf → Leaf) :
    (t.bind fun leaf => .leaf (rename leaf)).size = t.size := by
  induction t with
  | leaf a => rfl
  | int => rfl
  | bool => rfl
  | func first second firstIh secondIh | tuple first second firstIh secondIh =>
      rw [Ty.bind, Ty.size, Ty.size, firstIh, secondIh]
  | tupleFinal first firstIh => rw [Ty.bind, Ty.size, Ty.size, firstIh]

namespace Copies

variable {walk : Walk} {keep : TypePointer → Prop} {base after : TypeGraph}
    {p r : TypePointer}

/-- A copy reaches an error only if the original does. -/
theorem failed {errors : List ErrorReport}
    (copies : Copies walk keep base p r after)
    (free : Free (Failed errors) base p) : Free (Failed errors) after r := by
  rcases copies.copies with ⟨t, image, denotes, renames, copy⟩
  rw [copy.free_iff Failed.leafy]
  rintro a member ⟨quiet, isError⟩
  rcases Walk.mem_rename member with ⟨leaf, inside, rfl⟩
  rw [Walk.rename_error isError] at inside
  exact (denotes.free_iff Failed.leafy).mp free .error inside ⟨quiet, rfl⟩

/-- Making a type fresh is progress, and the copy is live. -/
theorem freshen {errors : List ErrorReport} {roots : List TypePointer}
    (copies : Copies .freshen (fun _ => False) base p r after)
    (wellFormed : base.WellFormed) (clean : base.Clean)
    (within : ∀ n ∈ roots, n < base.size)
    (free : ∀ n ∈ roots, Free (Unwanted errors) base n)
    (covered : Covered roots base p) (fails : Free (Failed errors) base p) :
    Progress (Unwanted errors) roots base after [r] := by
  have allocates := copies.allocates
  rcases copies.copies with ⟨t, image, denotes, renames, copy⟩
  constructor
  · exact copies.wellFormed
  · exact copies.clean
  · exact .of_allocates allocates clean copies.clean
  · intro q member
    rw [List.mem_singleton.mp member]
    exact copies.inside
  · rintro q (isCopy | isRoot) v below unbound path
    · rw [List.mem_singleton.mp isCopy] at path
      have member := copy.mem_variables.mpr
        ⟨path, (allocates.unbound_iff below).mpr unbound⟩
      rcases Walk.mem_rename member with ⟨leaf, inLeaves, same⟩
      cases leaf with
      | variable_ w =>
          cases same
          exact covered v unbound (denotes.mem_variables.mp inLeaves).1
      | generic w =>
          cases same
          exact absurd below
            (Nat.not_lt_of_le (renames.new w inLeaves id).1)
      | error => cases same
    · exact ⟨q, isRoot,
        (allocates.reaches_iff wellFormed (within q isRoot)).mp path⟩
  · rintro q (isCopy | isRoot)
    · rw [List.mem_singleton.mp isCopy, copy.free_iff Unwanted.leafy]
      rintro a member (isGeneric | isFailed)
      · rcases Walk.mem_rename member with ⟨leaf, -, rfl⟩
        cases leaf <;> cases isGeneric
      · exact (copy.free_iff Failed.leafy).mp (copies.failed fails) a member
          isFailed
    · intro s path isBad
      have old := (allocates.reaches_iff wellFormed (within q isRoot)).mp path
      rw [allocates.node_eq clean copies.clean
        (wellFormed.reaches_lt (within q isRoot) old)] at isBad
      exact free q isRoot s old isBad

/-- A generic type keeps only variables that the non-generic types reach. -/
theorem covered {roots : List TypePointer}
    (copies : Copies .generalize (base.ReachedFrom roots) base p r after)
    (wellFormed : base.WellFormed)
    (within : ∀ n ∈ roots, n < base.size) : Covered roots after r := by
  intro v unbound path
  rcases copies.copies with ⟨t, image, denotes, renames, copy⟩
  have member := copy.mem_variables.mpr ⟨path, unbound⟩
  rcases Walk.mem_rename member with ⟨leaf, inLeaves, same⟩
  cases leaf with
  | variable_ w =>
      by_cases keeps : base.ReachedFrom roots w
      · rw [Walk.rename, if_pos (renames.kept w inLeaves keeps)] at same
        cases same
        rcases keeps with ⟨n, isRoot, path⟩
        exact ⟨n, isRoot, (copies.allocates.reaches_iff wellFormed
          (within n isRoot)).mpr path⟩
      · rw [Walk.rename] at same
        split at same
        · rename_i kept
          cases same
          have new := (renames.new v inLeaves keeps).2.2
          rw [kept] at new
          rw [TypeGraph.Unbound, new] at unbound
          cases unbound.1
        · cases same
  | generic w => cases same
  | error => cases same

end Copies

/-! ## Rebinding -/

/-- A let rec variable that would become its own instance. -/
def TypeGraph.Entangled (graph : TypeGraph) (newType : TypePointer)
    (nonGenerics : List TypePointer) : Prop :=
  graph.Unbound newType ∧ graph.ReachedFrom nonGenerics newType

section

variable {base middle : TypeGraph} {roots : List TypePointer}
    {a r : TypePointer}
    (copies : Copies .generalize (base.ReachedFrom roots) base a r middle)

include copies

/-- A variable that becomes its own instance was entangled. -/
theorem rebinding_entangled
    (isVariable : (base.nodes a).type = .variable_) (inside : a < base.size)
    (same : r = a) : base.Entangled a roots := by
  subst same
  have unbound : base.Unbound r := by
    cases first : (base.nodes r).first with
    | none => exact ⟨isVariable, first⟩
    | some q =>
        have kept := copies.allocates.same r inside
        exact absurd ⟨kept.1.trans isVariable, kept.2.1.trans first⟩
          (copies.pruned q)
  refine ⟨unbound, ?_⟩
  by_contra apart
  rcases copies.copies with ⟨t, image, denotes, renames, copy⟩
  cases denotes.unique (.of_unbound unbound)
  have kept : image r = r := by
    have unbound' := (copies.allocates.unbound_iff inside).mpr unbound
    have same := copy.unique (.of_unbound unbound')
    simp only [Ty.bind, Walk.rename, Ty.leaf.injEq] at same
    split at same
    · assumption
    · cases same
  have new := (renames.new r (List.mem_singleton_self _) apart).1
  rw [kept] at new
  exact Nat.not_lt_of_le new inside

/-- Any other instance does not lead back to the variable. -/
theorem rebinding_apart (wellFormed : base.WellFormed) (inside : a < base.size)
    (other : r ≠ a) : ¬middle.Reaches r a := by
  rcases copies.copies with ⟨t, image, denotes, renames, copy⟩
  exact copy.not_reaches copies.pruned other
    (copies.allocates.denotes wellFormed inside denotes)
    (Nat.le_of_eq (Ty.size_rename t _))

/-- What a variable that the non-generic types reach stands for is kept whole. -/
theorem rebinding_kept (reached : base.ReachedFrom roots a) :
    ∃ t, Denotes base a t ∧ Denotes middle r t := by
  rcases copies.copies with ⟨t, image, denotes, renames, copy⟩
  refine ⟨t, denotes, ?_⟩
  have whole : (t.bind fun leaf =>
      .leaf (Walk.generalize.rename image leaf)) = t := by
    apply Eq.trans (Ty.bind_congr ?_) t.bind_leaf
    intro leaf member
    cases leaf with
    | variable_ v =>
        rcases reached with ⟨n, isRoot, path⟩
        have keeps : base.ReachedFrom roots v :=
          ⟨n, isRoot, path.trans (denotes.mem_variables.mp member).1⟩
        rw [Walk.rename, if_pos (renames.kept v member keeps)]
    | generic v => rfl
    | error => rfl
  rwa [whole] at copy

/-- The rebound variable links to its instance only. -/
theorem rebinding_link (isVariable : (base.nodes a).type = .variable_)
    (inside : a < base.size) (q : TypePointer) :
    (middle.bind a r).Link a q ↔ q = r := by
  have kind : (middle.nodes a).type = .variable_ :=
    (copies.allocates.same a inside).1.trans isVariable
  rw [TypeGraph.Link, TypeGraph.bind_node]
  constructor
  · rintro (first | ⟨plain, -⟩)
    · cases first
      rfl
    · exact absurd (.inl kind) plain
  · rintro rfl
    exact .inl rfl

section

variable (wellFormed : base.WellFormed)
    (isVariable : (base.nodes a).type = .variable_) (inside : a < base.size)

include wellFormed isVariable inside

/-- Where a path from the rebound variable leads. -/
theorem rebinding_from {q : TypePointer}
    (path : (middle.bind a r).Reaches a q) :
    q = a ∨ r ≠ a ∧ middle.Reaches r q := by
  have links := rebinding_link copies isVariable inside
  by_cases loop : r = a
  · left
    have closed : ∀ s t, (middle.bind a r).Link s t → s = a → t = a := by
      rintro s t link rfl
      exact ((links t).mp link).trans loop
    exact Links.closed closed path rfl
  · rcases path.cases_head with same | ⟨s, first, rest⟩
    · exact .inl same.symm
    · rw [(links s).mp first] at rest
      rcases departs (middle.bind_link a r) rest with
        kept | ⟨w, rfl, back, -⟩
      · exact .inr ⟨loop, kept⟩
      · exact absurd back (rebinding_apart copies wellFormed inside loop)

/-- Where a path leads after the rebinding. -/
theorem rebinding_path {p q : TypePointer}
    (path : (middle.bind a r).Reaches p q) :
    middle.Reaches p q ∨
      middle.Reaches p a ∧ (q = a ∨ r ≠ a ∧ middle.Reaches r q) := by
  rcases departs (middle.bind_link a r) path with
    kept | ⟨v, same, upTo, onward⟩
  · exact .inl kept
  · subst same
    exact .inr ⟨upTo,
      rebinding_from copies wellFormed isVariable inside onward⟩

/-- The rebinding closes no cycle but an entangled variable's. -/
theorem rebinding_ranked (ranked : base.Ranked)
    (free : ¬base.Entangled a roots) : (middle.bind a r).Ranked := by
  have other : r ≠ a := mt (rebinding_entangled copies isVariable inside) free
  have later := ranked.allocates wellFormed copies.allocates copies.ordered
  exact later.bind ((copies.allocates.same a inside).1.trans isVariable)
    (rebinding_apart copies wellFormed inside other)

/-- The rebound variable stays covered. -/
theorem rebinding_covered (within : ∀ n ∈ roots, n < base.size) :
    Covered roots (middle.bind a r) a := by
  intro v unbound path
  have unchanged : v ≠ a ∧ middle.Unbound v := by
    by_cases here : v = a
    · rw [here, TypeGraph.Unbound, TypeGraph.bind_node] at unbound
      cases unbound.2
    · rw [TypeGraph.Unbound, TypeGraph.bind_old middle r here] at unbound
      exact ⟨here, unbound⟩
  rcases rebinding_from copies wellFormed isVariable inside path with
    same | ⟨other, fromR⟩
  · exact absurd same unchanged.1
  have links := rebinding_link copies isVariable inside
  have stays : ∀ s t, middle.Link s t → (middle.bind a r).Link s t ∨ s = a := by
    intro s t link
    by_cases here : s = a
    · exact .inr here
    · rw [TypeGraph.Link, TypeGraph.bind_old middle r here]
      exact .inl link
  have apart := rebinding_apart copies wellFormed inside other
  have onward : (middle.bind a r).Reaches a v := by
    rcases departs stays fromR with kept | ⟨w, rfl, upTo, -⟩
    · exact .head ((links r).mpr rfl) kept
    · rcases rebinding_path copies wellFormed isVariable inside upTo with
        back | ⟨back, -⟩
      · exact absurd back apart
      · exact absurd back apart
  rcases copies.covered wellFormed within v unchanged.2 fromR with
    ⟨n, isRoot, route⟩
  rcases departs stays route with kept | ⟨w, rfl, upTo, -⟩
  · exact ⟨n, isRoot, kept⟩
  · exact ⟨n, isRoot, upTo.trans onward⟩

/-- The rebound variable reaches no error that it did not reach. -/
theorem rebinding_failed {errors : List ErrorReport}
    (free : Free (Failed errors) base a) :
    Free (Failed errors) (middle.bind a r) a := by
  intro q path isBad
  rw [bind_type] at isBad
  rcases rebinding_from copies wellFormed isVariable inside path with
    rfl | ⟨-, fromR⟩
  · rw [(copies.allocates.same q inside).1, isVariable] at isBad
    cases isBad.2
  · exact copies.failed free q fromR isBad

/-- The rebinding is progress. -/
theorem Progress.rebinding {bad : TypeExpType → Prop}
    (leafy : ∀ type, bad type → type = .genericVariable ∨ type = .error)
    {before : TypeGraph} {live : List TypePointer}
    (progress : Progress bad roots before base live)
    (within : ∀ n ∈ roots, n < before.size) (isLive : a ∈ live)
    (new : before.size ≤ a) :
    Progress bad roots before (middle.bind a r) [] := by
  have allocates := copies.allocates
  have kind := (allocates.same a inside).1.trans isVariable
  have withinBase : ∀ n ∈ roots, n < base.size := fun n member =>
    Nat.lt_of_lt_of_le (within n member) progress.grows.size
  have node_eq : ∀ {v}, v < base.size → middle.nodes v = base.nodes v :=
    allocates.node_eq progress.clean copies.clean
  have old : ∀ {p q}, p < base.size → middle.Reaches p q → base.Reaches p q :=
    fun below => (allocates.reaches_iff wellFormed below).mp
  constructor
  · exact TypeGraph.bind_wellFormed copies.wellFormed kind copies.inside
  · intro v below isVar
    by_cases here : v = a
    · subst here
      rw [TypeGraph.bind_node]
      exact copies.clean v below (.inl kind)
    · rw [TypeGraph.bind_old middle r here] at isVar ⊢
      exact copies.clean v below isVar
  · refine ⟨Nat.le_trans progress.grows.size allocates.size, ?_⟩
    intro v below
    rw [TypeGraph.bind_old middle r
      (Nat.ne_of_lt (Nat.lt_of_lt_of_le below new)),
      node_eq (Nat.lt_of_lt_of_le below progress.grows.size)]
    exact progress.grows.nodes v below
  · exact nofun
  · rintro p (member | isRoot) v below unbound path
    · cases member
    rcases rebinding_path copies wellFormed isVariable inside path with
      kept | ⟨upTo, rfl | ⟨other, fromR⟩⟩
    · exact progress.confined p (.inr isRoot) v below unbound
        (old (withinBase p isRoot) kept)
    · exact absurd below (Nat.not_lt_of_le new)
    · by_cases still : base.Unbound v
      · rcases rebinding_kept copies
          ⟨p, isRoot, old (withinBase p isRoot) upTo⟩ with ⟨t, denotes, copy⟩
        have still' : middle.Unbound v := by
          rwa [TypeGraph.Unbound,
            node_eq (Nat.lt_of_lt_of_le below progress.grows.size)]
        have member := copy.mem_variables.mpr ⟨fromR, still'⟩
        exact progress.confined a (.inl isLive) v below unbound
          (denotes.mem_variables.mp member).1
      · exact progress.grows.reached_of_bound below unbound still
  · rintro p (member | isRoot) q path isBad
    · cases member
    rw [bind_type] at isBad
    rcases rebinding_path copies wellFormed isVariable inside path with
      kept | ⟨upTo, rfl | ⟨other, fromR⟩⟩
    · have kept' := old (withinBase p isRoot) kept
      rw [node_eq (wellFormed.reaches_lt (withinBase p isRoot) kept')] at isBad
      exact progress.free p (.inr isRoot) q kept' isBad
    · rw [kind] at isBad
      rcases leafy _ isBad with type | type <;> cases type
    · rcases rebinding_kept copies
        ⟨p, isRoot, old (withinBase p isRoot) upTo⟩ with ⟨t, denotes, copy⟩
      have free := (denotes.free_iff leafy).mp (progress.free a (.inl isLive))
      exact (copy.free_iff leafy).mpr free q fromR isBad

end

end

end Millie.Types
