import Millie.Types.Copy

/-!
# Progress

What a step of the type checker does to the graph.  A step has roots, the types
it may work on, and returns live types.  It instantiates only variables that its
roots reach, what the roots and the live types reach in the end was reached from
the roots or is new, and none of it is of an unwanted kind.  Steps compose, and
types that only other variables reach are left alone.
-/

namespace Millie.Types

open Relation Links Weakest

/-- A type reaches no node of a bad kind. -/
def Free (bad : TypeExpType → Prop) (graph : TypeGraph) (p : TypePointer) :
    Prop :=
  ∀ q, graph.Reaches p q → ¬bad (graph.nodes q).type

/-! ## Growing by instances -/

/-- A later graph, in which only variables reached from the roots got instances. -/
structure Grows (roots : List TypePointer) (before after : TypeGraph) :
    Prop where
  size : before.size ≤ after.size
  nodes : ∀ v < before.size, after.nodes v = before.nodes v ∨
    before.Unbound v ∧ before.ReachedFrom roots v ∧
      ∃ q, after.nodes v = { before.nodes v with first := some q }

namespace Grows

variable {roots : List TypePointer} {before after : TypeGraph}

theorem type_eq (grows : Grows roots before after) {v : TypePointer}
    (inside : v < before.size) :
    (after.nodes v).type = (before.nodes v).type := by
  rcases grows.nodes v inside with same | ⟨-, -, q, instance_⟩
  · rw [same]
  · rw [instance_]

/-- Old links stay: what has a link is no unbound variable. -/
theorem link (grows : Grows roots before after) {p q : TypePointer}
    (inside : p < before.size) (link : before.Link p q) : after.Link p q := by
  rcases grows.nodes p inside with same | ⟨unbound, -, -⟩
  · rw [TypeGraph.Link, same]
    exact link
  · rcases link with first | ⟨plain, -⟩
    · rw [unbound.2] at first
      cases first
    · exact absurd (.inl unbound.1) plain

theorem reaches (grows : Grows roots before after)
    (wellFormed : before.WellFormed) {p q : TypePointer}
    (inside : p < before.size) (path : before.Reaches p q) :
    after.Reaches p q := by
  induction path with
  | refl => exact .refl
  | tail path last ih =>
      exact ih.tail (grows.link (wellFormed.reaches_lt inside path) last)

/-- What is unbound in the end always was. -/
theorem unbound_before (grows : Grows roots before after) {v : TypePointer}
    (inside : v < before.size) (unbound : after.Unbound v) :
    before.Unbound v := by
  rcases grows.nodes v inside with same | ⟨unbound, -, -⟩
  · rwa [TypeGraph.Unbound, same] at unbound
  · exact unbound

/-- What got an instance was reached from the roots. -/
theorem reached_of_bound (grows : Grows roots before after) {v : TypePointer}
    (inside : v < before.size) (unbound : before.Unbound v)
    (bound : ¬after.Unbound v) : before.ReachedFrom roots v := by
  rcases grows.nodes v inside with same | ⟨-, reached, -⟩
  · rw [TypeGraph.Unbound, same] at bound
    exact absurd unbound bound
  · exact reached

/-- A new path leaves the old graph at a variable reached from the roots. -/
theorem departs (grows : Grows roots before after)
    (wellFormed : before.WellFormed) {p q : TypePointer}
    (inside : p < before.size) (path : after.Reaches p q) :
    before.Reaches p q ∨
      ∃ v, before.Reaches p v ∧ before.Unbound v ∧
        before.ReachedFrom roots v ∧ after.Reaches v q := by
  induction path using ReflTransGen.head_induction_on with
  | refl => exact .inl .refl
  | @head p middle first rest ih =>
      rcases grows.nodes p inside with same | ⟨unbound, reached, -⟩
      · have old : before.Link p middle := by rwa [TypeGraph.Link, same] at first
        rcases ih (wellFormed.link_lt inside old) with
          kept | ⟨v, upTo, unbound, reached, onward⟩
        · exact .inl (.head old kept)
        · exact .inr ⟨v, .head old upTo, unbound, reached, onward⟩
      · exact .inr ⟨p, .refl, unbound, reached, .head first rest⟩

theorem reachedFrom (grows : Grows roots before after)
    (wellFormed : before.WellFormed) {others : List TypePointer}
    (inside : ∀ n ∈ others, n < before.size) {q : TypePointer}
    (reached : before.ReachedFrom others q) : after.ReachedFrom others q := by
  rcases reached with ⟨n, member, path⟩
  exact ⟨n, member, grows.reaches wellFormed (inside n member) path⟩

theorem of_allocates (allocates : before.Allocates after)
    (cleanBefore : before.Clean) (cleanAfter : after.Clean) :
    Grows roots before after := by
  refine ⟨allocates.size, fun v inside => .inl ?_⟩
  have same := allocates.same v inside
  rcases same.2.2 with isVariable | second
  · have blank := cleanBefore v inside isVariable
    have blank' := cleanAfter v (Nat.lt_of_lt_of_le inside allocates.size)
      (same.isVariable.mpr isVariable)
    cases left : before.nodes v
    cases right : after.nodes v
    simp_all [TypeExp.Same]
  · cases left : before.nodes v
    cases right : after.nodes v
    simp_all [TypeExp.Same]

end Grows

/-- Every unbound variable that a type reaches is reached from the roots. -/
def Covered (roots : List TypePointer) (graph : TypeGraph)
    (p : TypePointer) : Prop :=
  ∀ v, graph.Unbound v → graph.Reaches p v → graph.ReachedFrom roots v

/-- A covered type stays covered. -/
theorem Covered.grows {roots : List TypePointer} {before after : TypeGraph}
    (wellFormed : before.WellFormed)
    (within : ∀ n ∈ roots, n < before.size) {p : TypePointer}
    (inside : p < before.size) (covered : Covered roots before p)
    (grows : Grows roots before after) : Covered roots after p := by
  intro v unbound path
  rcases grows.departs wellFormed inside path with
    old | ⟨u, -, -, reached, onward⟩
  · have below := wellFormed.reaches_lt inside old
    exact grows.reachedFrom wellFormed within
      (covered v (grows.unbound_before below unbound) old)
  · rcases grows.reachedFrom wellFormed within reached with ⟨n, member, path⟩
    exact ⟨n, member, path.trans onward⟩

/-! ## Progress -/

/-- What a step with some roots does, and the live types it leaves. -/
structure Progress (bad : TypeExpType → Prop) (roots : List TypePointer)
    (before after : TypeGraph) (live : List TypePointer) : Prop where
  wellFormed : after.WellFormed
  clean : after.Clean
  grows : Grows roots before after
  inside : ∀ p ∈ live, p < after.size
  confined : ∀ p, p ∈ live ∨ p ∈ roots → ∀ v < before.size,
    before.Unbound v → after.Reaches p v → before.ReachedFrom roots v
  free : ∀ p, p ∈ live ∨ p ∈ roots → Free bad after p

namespace Progress

variable {bad : TypeExpType → Prop} {roots live : List TypePointer}
    {before after : TypeGraph}

/-- A type that was free stays free. -/
theorem keeps_free (progress : Progress bad roots before after live)
    (wellFormed : before.WellFormed)
    (within : ∀ n ∈ roots, n < before.size) {p : TypePointer}
    (inside : p < before.size) (free : Free bad before p) :
    Free bad after p := by
  intro q path isBad
  rcases progress.grows.departs wellFormed inside path with
    old | ⟨v, -, -, ⟨n, member, upTo⟩, onward⟩
  · rw [progress.grows.type_eq (wellFormed.reaches_lt inside old)] at isBad
    exact free q old isBad
  · have around := progress.grows.reaches wellFormed (within n member) upTo
    exact progress.free n (.inr member) q (around.trans onward) isBad

/-- Nothing happens, and types that the roots reach are live. -/
theorem refl (wellFormed : before.WellFormed) (clean : before.Clean)
    (within : ∀ p ∈ live, p < before.size)
    (covered : ∀ p ∈ live, Covered roots before p)
    (free : ∀ p, p ∈ live ∨ p ∈ roots → Free bad before p) :
    Progress bad roots before before live where
  wellFormed := wellFormed
  clean := clean
  grows := ⟨Nat.le_refl _, fun _ _ => .inl rfl⟩
  inside := within
  confined p member v _ unbound path := by
    rcases member with isLive | isRoot
    · exact covered p isLive v unbound path
    · exact ⟨p, isRoot, path⟩
  free := free

/-- A step whose roots are live or roots of the steps before it. -/
theorem trans {middle : TypeGraph} {inner fresh : List TypePointer}
    (first : Progress bad roots before middle live)
    (within : ∀ n ∈ roots, n < before.size)
    (second : Progress bad inner middle after fresh)
    (known : ∀ n ∈ inner, n ∈ live ∨ n ∈ roots) :
    Progress bad roots before after (fresh ++ live) := by
  have withinMiddle : ∀ p, p ∈ live ∨ p ∈ roots → p < middle.size := by
    rintro p (isLive | isRoot)
    · exact first.inside p isLive
    · exact Nat.lt_of_lt_of_le (within p isRoot) first.grows.size
  have withinInner : ∀ n ∈ inner, n < middle.size := fun n member =>
    withinMiddle n (known n member)
  -- What the second step's roots reach was reached from the first one's.
  have outer : ∀ v < before.size, before.Unbound v →
      middle.ReachedFrom inner v → before.ReachedFrom roots v := by
    rintro v below unbound ⟨n, member, path⟩
    exact first.confined n (known n member) v below unbound path
  constructor
  · exact second.wellFormed
  · exact second.clean
  · refine ⟨Nat.le_trans first.grows.size second.grows.size, ?_⟩
    intro v below
    rcases first.grows.nodes v below with same | ⟨unbound, reached, q, bound⟩
    · rcases second.grows.nodes v
        (Nat.lt_of_lt_of_le below first.grows.size) with
        same' | ⟨unbound, reached, q, bound⟩
      · exact .inl (same'.trans same)
      · have before_ : before.Unbound v := by
          rwa [TypeGraph.Unbound, same] at unbound
        exact .inr ⟨before_, outer v below before_ reached, q, same ▸ bound⟩
    · rcases second.grows.nodes v
        (Nat.lt_of_lt_of_le below first.grows.size) with
        same' | ⟨unbound', -, -⟩
      · exact .inr ⟨unbound, reached, q, same'.trans bound⟩
      · rw [TypeGraph.Unbound, bound] at unbound'
        exact absurd unbound'.2 nofun
  · intro p member
    rcases List.mem_append.mp member with isFresh | isLive
    · exact second.inside p isFresh
    · exact Nat.lt_of_lt_of_le (first.inside p isLive) second.grows.size
  · intro p member v below unbound path
    have belowMiddle := Nat.lt_of_lt_of_le below first.grows.size
    by_cases still : middle.Unbound v
    · by_cases isInner : p ∈ fresh ∨ p ∈ inner
      · exact outer v below unbound
          (second.confined p isInner v belowMiddle still path)
      · have old : p ∈ live ∨ p ∈ roots := by
          rcases member with isLive | isRoot
          · rcases List.mem_append.mp isLive with isFresh | isLive
            · exact absurd (.inl isFresh) isInner
            · exact .inl isLive
          · exact .inr isRoot
        rcases second.grows.departs first.wellFormed (withinMiddle p old)
          path with kept | ⟨u, -, -, ⟨n, isRoot, upTo⟩, onward⟩
        · exact first.confined p old v below unbound kept
        · have around := second.grows.reaches first.wellFormed
            (withinInner n isRoot) upTo
          exact outer v below unbound
            (second.confined n (.inr isRoot) v belowMiddle still
              (around.trans onward))
    · exact first.grows.reached_of_bound below unbound still
  · intro p member
    by_cases isFresh : p ∈ fresh
    · exact second.free p (.inl isFresh)
    · have old : p ∈ live ∨ p ∈ roots := by
        rcases member with isLive | isRoot
        · exact .inl ((List.mem_append.mp isLive).resolve_left isFresh)
        · exact .inr isRoot
      exact second.keeps_free first.wellFormed withinInner
        (withinMiddle p old) (first.free p old)

/-- Nothing happens, and what the roots reach becomes live. -/
theorem reached (wellFormed : before.WellFormed) (clean : before.Clean)
    (within : ∀ n ∈ roots, n < before.size)
    (free : ∀ n ∈ roots, Free bad before n)
    (reached : ∀ p ∈ live, before.ReachedFrom roots p) :
    Progress bad roots before before live := by
  apply Progress.refl wellFormed clean
  · intro p member
    rcases reached p member with ⟨n, isRoot, path⟩
    exact wellFormed.reaches_lt (within n isRoot) path
  · intro p member v _ further
    rcases reached p member with ⟨n, isRoot, path⟩
    exact ⟨n, isRoot, path.trans further⟩
  · rintro p (isLive | isRoot) q further
    · rcases reached p isLive with ⟨n, isRoot, path⟩
      exact free n isRoot q (path.trans further)
    · exact free p isRoot q further

/-- Fewer live types. -/
theorem mono {fewer : List TypePointer}
    (progress : Progress bad roots before after live)
    (subset : ∀ p ∈ fewer, p ∈ live ∨ p ∈ roots)
    (within : ∀ n ∈ roots, n < before.size) :
    Progress bad roots before after fewer where
  wellFormed := progress.wellFormed
  clean := progress.clean
  grows := progress.grows
  inside p member := by
    rcases subset p member with isLive | isRoot
    · exact progress.inside p isLive
    · exact Nat.lt_of_lt_of_le (within p isRoot) progress.grows.size
  confined p member := progress.confined p
    (member.elim (subset p) .inr)
  free p member := progress.free p (member.elim (subset p) .inr)

/-- Tolerating fewer kinds as bad. -/
theorem weaken {better : TypeExpType → Prop}
    (progress : Progress bad roots before after live)
    (fewer : ∀ type, better type → bad type) :
    Progress better roots before after live where
  wellFormed := progress.wellFormed
  clean := progress.clean
  grows := progress.grows
  inside := progress.inside
  confined := progress.confined
  free p member q path isBad := progress.free p member q path (fewer _ isBad)

end Progress

/-! ## Ranks -/

/-- A number for every node of a graph that falls along every link. -/
def TypeGraph.Ranked (graph : TypeGraph) : Prop :=
  ∃ rank, Ranks (fun p q => p < graph.size ∧ graph.Link p q) rank

theorem exists_bound (rank : TypePointer → Nat) (size : Nat) :
    ∃ bound, ∀ p < size, rank p < bound := by
  induction size with
  | zero => exact ⟨0, nofun⟩
  | succ size ih =>
      rcases ih with ⟨bound, below⟩
      refine ⟨max bound (rank size + 1), fun p inside => ?_⟩
      rcases Nat.lt_succ_iff_lt_or_eq.mp inside with old | rfl
      · exact Nat.lt_of_lt_of_le (below p old) (Nat.le_max_left _ _)
      · exact Nat.lt_of_lt_of_le (Nat.lt_succ_self _) (Nat.le_max_right _ _)

namespace TypeGraph.Ranked

variable {before after : TypeGraph}

/-- New nodes that link to earlier nodes only keep a graph ranked. -/
theorem allocates (ranked : before.Ranked) (wellFormed : before.WellFormed)
    (allocates : before.Allocates after)
    (ordered : ∀ p q, before.size ≤ p → p < after.size → after.Link p q →
      q < p) : after.Ranked := by
  rcases ranked with ⟨rank, ranks⟩
  rcases exists_bound rank before.size with ⟨bound, below⟩
  refine ⟨fun p => if p < before.size then rank p else bound + p, ?_⟩
  rintro p q ⟨inside, link⟩
  by_cases old : p < before.size
  · have link' := (allocates.link_iff old).mp link
    have oldQ := wellFormed.link_lt old link'
    simp only [if_pos old, if_pos oldQ]
    exact ranks p q ⟨old, link'⟩
  · have earlier := ordered p q (Nat.le_of_not_lt old) inside link
    simp only [if_neg old]
    split
    · rename_i oldQ
      exact Nat.lt_of_lt_of_le (below q oldQ) (Nat.le_add_right _ _)
    · exact Nat.add_lt_add_left earlier bound

/-- An instance that does not lead back to its variable closes no cycle. -/
theorem bind (ranked : before.Ranked) {a b : TypePointer}
    (isVariable : (before.nodes a).type = .variable_)
    (apart : ¬before.Reaches b a) : (before.bind a b).Ranked := by
  rcases ranked with ⟨rank, ranks⟩
  apply ranks.connect (a := a) (b := b)
  · exact fun path => apart (ReflTransGen.mono (fun _ _ => And.right) _ _ path)
  · rintro p q ⟨inside, link⟩
    by_cases here : p = a
    · subst here
      rw [TypeGraph.Link, TypeGraph.bind_node] at link
      rcases link with first | ⟨plain, -⟩
      · cases first
        exact .inr ⟨rfl, rfl⟩
      · exact absurd (.inl isVariable) plain
    · rw [TypeGraph.Link, TypeGraph.bind_old before b here] at link
      exact .inl ⟨inside, link⟩

/-- Following links from a node never returns to it. -/
theorem acyclic (ranked : before.Ranked) (wellFormed : before.WellFormed)
    {p : TypePointer} (inside : p < before.size) :
    ¬TransGen before.Link p p := by
  rcases ranked with ⟨rank, ranks⟩
  intro cycle
  have falls : ∀ {q}, TransGen before.Link p q →
      q < before.size ∧ rank q < rank p := by
    intro q path
    induction path with
    | single link => exact ⟨wellFormed.link_lt inside link, ranks _ _ ⟨inside, link⟩⟩
    | tail _ link ih =>
        exact ⟨wellFormed.link_lt ih.1 link,
          Nat.lt_trans (ranks _ _ ⟨ih.1, link⟩) ih.2⟩
  exact Nat.lt_irrefl _ (falls cycle).2

theorem ranksFrom (ranked : before.Ranked) (wellFormed : before.WellFormed)
    {p : TypePointer} (inside : p < before.size) :
    ∃ rank, RanksFrom before p rank := by
  rcases ranked with ⟨rank, ranks⟩
  exact ⟨rank, fun r s path link =>
    ranks r s ⟨wellFormed.reaches_lt inside path, link⟩⟩

end TypeGraph.Ranked

theorem TypeGraph.ranked_static : staticGraph.Ranked := by
  refine ⟨fun _ => 0, ?_⟩
  rintro p q ⟨inside, link⟩
  match p, inside with
  | 0, _ => rcases link with first | ⟨-, second⟩ <;> contradiction
  | 1, _ => rcases link with first | ⟨-, second⟩ <;> contradiction
  | 2, _ => rcases link with first | ⟨-, second⟩ <;> contradiction

/-! ## The steps -/

section

variable {bad : TypeExpType → Prop} {graph : TypeGraph}
    (wellFormed : graph.WellFormed) (clean : graph.Clean)

include wellFormed clean

/-- Allocating a node over its arguments. -/
theorem progress_add {contents : TypeExp} {arguments : List TypePointer}
    (shaped : contents.Shaped graph.size) (noError : contents.type ≠ .error)
    (blank : contents.IsVariable → contents.second = .null)
    (good : ¬bad contents.type)
    (links : ∀ q, (graph.add contents).Link graph.size q → q ∈ arguments)
    (within : ∀ q ∈ arguments, q < graph.size)
    (free : ∀ q ∈ arguments, Free bad graph q) :
    Progress bad arguments graph (graph.add contents) [graph.size] := by
  have allocates := TypeGraph.add_allocates graph contents
  have larger := TypeGraph.add_wellFormed wellFormed shaped noError
  have cleanAfter : (graph.add contents).Clean := by
    intro v inside isVariable
    rcases Nat.lt_succ_iff_lt_or_eq.mp inside with old | rfl
    · rw [TypeGraph.add_old graph contents old] at isVariable ⊢
      exact clean v old isVariable
    · rw [TypeGraph.add_node] at isVariable ⊢
      exact blank isVariable
  have old : ∀ {p q}, p < graph.size →
      ((graph.add contents).Reaches p q ↔ graph.Reaches p q) := fun inside =>
    allocates.reaches_iff wellFormed inside
  have freeOld : ∀ q ∈ arguments, Free bad (graph.add contents) q := by
    intro q member r path isBad
    have path' := (old (within q member)).mp path
    rw [TypeGraph.add_old graph contents
      (wellFormed.reaches_lt (within q member) path')] at isBad
    exact free q member r path' isBad
  constructor
  · exact larger
  · exact cleanAfter
  · exact .of_allocates allocates clean cleanAfter
  · intro p member
    rw [List.mem_singleton.mp member]
    exact Nat.lt_succ_self _
  · rintro p (isNew | isArgument) v below - path
    · rw [List.mem_singleton.mp isNew] at path
      rcases path.cases_head with same | ⟨q, first, rest⟩
      · exact absurd same.symm (Nat.ne_of_lt below)
      · have member := links q first
        exact ⟨q, member, (old (within q member)).mp rest⟩
    · exact ⟨p, isArgument, (old (within p isArgument)).mp path⟩
  · rintro p (isNew | isArgument)
    · rw [List.mem_singleton.mp isNew]
      intro q path isBad
      rcases path.cases_head with rfl | ⟨r, first, rest⟩
      · rw [TypeGraph.add_node] at isBad
        exact good isBad
      · exact freeOld r (links r first) q rest isBad
    · exact freeOld p isArgument

/-- Giving an unbound variable an instance. -/
theorem progress_bind {roots : List TypePointer} {a b : TypePointer}
    (within : ∀ n ∈ roots, n < graph.size)
    (free : ∀ n ∈ roots, Free bad graph n) (unbound : graph.Unbound a)
    (reachedA : graph.ReachedFrom roots a)
    (reachedB : graph.ReachedFrom roots b) :
    Progress bad roots graph (graph.bind a b) [] := by
  have lt_of_reached : ∀ {q}, graph.ReachedFrom roots q → q < graph.size := by
    rintro q ⟨n, member, path⟩
    exact wellFormed.reaches_lt (within n member) path
  -- The nodes that the roots reached are closed under the new links.
  have closed : ∀ p q, (graph.bind a b).Link p q →
      graph.ReachedFrom roots p → graph.ReachedFrom roots q := by
    rintro p q link ⟨n, member, path⟩
    by_cases here : p = a
    · subst here
      rw [TypeGraph.Link, TypeGraph.bind_node] at link
      rcases link with first | ⟨plain, -⟩
      · cases first
        exact reachedB
      · exact absurd (.inl unbound.1) plain
    · rw [TypeGraph.Link, TypeGraph.bind_old graph b here] at link
      exact ⟨n, member, path.tail link⟩
  have stays : ∀ {n q}, n ∈ roots → (graph.bind a b).Reaches n q →
      graph.ReachedFrom roots q := fun member path =>
    Links.closed closed path ⟨_, member, .refl⟩
  have types : ∀ v, ((graph.bind a b).nodes v).type = (graph.nodes v).type := by
    intro v
    by_cases here : v = a
    · rw [here, TypeGraph.bind_node]
    · rw [TypeGraph.bind_old graph b here]
  constructor
  · exact TypeGraph.bind_wellFormed wellFormed unbound.1 (lt_of_reached reachedB)
  · intro v inside isVariable
    by_cases here : v = a
    · subst here
      rw [TypeGraph.bind_node]
      exact clean v inside (.inl unbound.1)
    · rw [TypeGraph.bind_old graph b here] at isVariable ⊢
      exact clean v inside isVariable
  · refine ⟨Nat.le_refl _, fun v inside => ?_⟩
    by_cases here : v = a
    · subst here
      exact .inr ⟨unbound, reachedA, b, TypeGraph.bind_node graph v b⟩
    · exact .inl (TypeGraph.bind_old graph b here)
  · simp
  · rintro p (isLive | isRoot) v - - path
    · cases isLive
    · exact stays isRoot path
  · rintro p (isLive | isRoot)
    · cases isLive
    · intro q path isBad
      rw [types] at isBad
      rcases stays isRoot path with ⟨n, member, old⟩
      exact free n member q old isBad

end

end Millie.Types
