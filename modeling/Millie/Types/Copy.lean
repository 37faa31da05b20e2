import Millie.Types.Follow

/-!
# Generic and fresh copies

`_MakeGenericTypeExpImpl` and `_MakeFreshTypeExpCopy` are one walk: it copies a
type and replaces the open nodes of one kind, marking each with its replacement
so that the next occurrence gets the same one.  The copy stands for the term
with those leaves renamed, and cleaning up removes every mark.
-/

namespace Millie.Types

open Relation Links Weakest

/-! ## The walk -/

/-- Copy a type, asking `replace` at the nodes of a kind. -/
def copyTypeExp (kind : TypeExpType)
    (replace : Nat → TypePointer → TypeExp → GraphM TypePointer) :
    Nat → TypePointer → GraphM TypePointer
  | 0, _ => stop .outOfFuel
  | fuel + 1, type => do
      let type ← pruneTypeExp fuel type
      let exp ← node type
      if exp.type = kind then
        replace fuel type exp
      else
        convertArguments (copyTypeExp kind replace fuel) type exp

/-- The variable case of `_MakeGenericTypeExpImpl`. -/
def genericReplacement (nonGenerics : List TypePointer) (fuel : Nat)
    (type : TypePointer) (exp : TypeExp) : GraphM TypePointer :=
  match exp.second with
  | .type other => return other
  | .name _ => stop .undefinedBehaviour
  | .null => do
      if ← isTypeNonGeneric fuel type nonGenerics then
        setVarTempOther type (.type type)
        return type
      else
        let result ← allocate ⟨.genericVariable, none, .null⟩
        setVarTempOther type (.type result)
        return result

/-- The generic variable case of `_MakeFreshTypeExpCopy`. -/
def freshReplacement (_ : Nat) (type : TypePointer) (exp : TypeExp) :
    GraphM TypePointer :=
  match exp.second with
  | .type other => return other
  | .name _ => stop .undefinedBehaviour
  | .null => do
      let result ← makeTypeVar
      setVarTempOther type (.type result)
      return result

theorem makeGenericTypeExpImpl_eq (nonGenerics : List TypePointer)
    (fuel : Nat) :
    makeGenericTypeExpImpl nonGenerics fuel =
      copyTypeExp .variable_ (genericReplacement nonGenerics) fuel := by
  induction fuel with
  | zero => rfl
  | succ fuel ih =>
      funext type
      rw [makeGenericTypeExpImpl, copyTypeExp, ih]
      refine congrArg (pruneTypeExp fuel type >>= ·) (funext fun type => ?_)
      refine congrArg (node type >>= ·) (funext fun exp => ?_)
      cases kind : exp.type <;> rfl

theorem makeFreshTypeExpCopy_eq (fuel : Nat) :
    makeFreshTypeExpCopy fuel =
      copyTypeExp .genericVariable freshReplacement fuel := by
  induction fuel with
  | zero => rfl
  | succ fuel ih =>
      funext type
      rw [makeFreshTypeExpCopy, copyTypeExp, ih]
      refine congrArg (pruneTypeExp fuel type >>= ·) (funext fun type => ?_)
      refine congrArg (node type >>= ·) (funext fun exp => ?_)
      cases kind : exp.type with
      | variable_ => simp [convertArguments, kind]
      | _ => rfl

/-! ## Marks -/

/-- The two walks. -/
inductive Walk where
  | generalize
  | freshen

namespace Walk

/-- The kind of node that a walk replaces. -/
def kind : Walk → TypeExpType
  | generalize => .variable_
  | freshen => .genericVariable

/-- The kind of node that a walk allocates in its place. -/
def image : Walk → TypeExpType
  | generalize => .genericVariable
  | freshen => .variable_

/-- The leaf that a marked leaf becomes. -/
def rename : Walk → (TypePointer → TypePointer) → Leaf → Leaf
  | generalize, mark, .variable_ v =>
      if mark v = v then .variable_ v else .generic (mark v)
  | freshen, mark, .generic v => .variable_ (mark v)
  | _, _, leaf => leaf

/-- The leaf of a node that the walk replaces. -/
def source : Walk → TypePointer → Leaf
  | generalize, v => .variable_ v
  | freshen, v => .generic v

end Walk

/-- The node that a variable is marked with. -/
def TypeGraph.markOf (graph : TypeGraph) (v : TypePointer) : TypePointer :=
  match (graph.nodes v).second with
  | .type q => q
  | _ => v

/-- A node that a walk over a graph replaces. -/
def Markable (walk : Walk) (base : TypeGraph) (v : TypePointer) : Prop :=
  v < base.size ∧ base.nodes v = ⟨walk.kind, none, .null⟩

theorem Markable.isVariable {walk : Walk} {base : TypeGraph} {v : TypePointer}
    (markable : Markable walk base v) : (base.nodes v).IsVariable := by
  rw [markable.2]
  cases walk with
  | generalize => exact .inl rfl
  | freshen => exact .inr rfl

/-- The mark of a node: none yet, itself if it is kept, or its replacement. -/
inductive Mark (walk : Walk) (keep : TypePointer → Prop)
    (base graph : TypeGraph) (v : TypePointer) : Prop where
  | blank (second : (graph.nodes v).second = .null)
  | kept (keeps : keep v) (second : (graph.nodes v).second = .type v)
  | replaced {q : TypePointer} (moves : ¬keep v)
      (second : (graph.nodes v).second = .type q) (new : base.size ≤ q)
      (inside : q < graph.size)
      (image : graph.nodes q = ⟨walk.image, none, .null⟩)

/-- The graph that a walk has reached from a clean one. -/
structure Marked (walk : Walk) (keep : TypePointer → Prop)
    (base graph : TypeGraph) : Prop where
  wellFormed : graph.WellFormed
  allocates : base.Allocates graph
  mark : ∀ v, Markable walk base v → Mark walk keep base graph v
  unmarked : ∀ v < base.size, (base.nodes v).IsVariable →
    ¬Markable walk base v → (graph.nodes v).second = .null
  new : ∀ q, base.size ≤ q → q < graph.size →
    (graph.nodes q).IsVariable → graph.nodes q = ⟨walk.image, none, .null⟩
  injective : ∀ v w q, Markable walk base v → Markable walk base w →
    base.size ≤ q → (graph.nodes v).second = .type q →
    (graph.nodes w).second = .type q → v = w
  ordered : ∀ p q, base.size ≤ p → p < graph.size → graph.Link p q → q < p

/-- What a walk over a set of nodes does to the marks: it adds some there. -/
structure MarkStep (base before after : TypeGraph) (set : Set TypePointer) :
    Prop where
  allocates : before.Allocates after
  grows : ∀ v < base.size, (before.nodes v).second = .null ∨
    (after.nodes v).second = (before.nodes v).second
  inside : ∀ v < base.size, v ∈ set ∨
    (after.nodes v).second = (before.nodes v).second

namespace MarkStep

variable {base before after : TypeGraph} {set : Set TypePointer}

theorem refl (base graph : TypeGraph) (set : Set TypePointer) :
    MarkStep base graph graph set :=
  ⟨.refl _, fun _ _ => .inr rfl, fun _ _ => .inr rfl⟩

theorem trans {first second third : TypeGraph}
    (left : MarkStep base first second set)
    (right : MarkStep base second third set) :
    MarkStep base first third set where
  allocates := left.allocates.trans right.allocates
  grows v inside := by
    rcases left.grows v inside with blank | kept
    · exact .inl blank
    · rcases right.grows v inside with blank | kept'
      · exact .inl (kept ▸ blank)
      · exact .inr (kept'.trans kept)
  inside v inside := by
    rcases left.inside v inside with member | kept
    · exact .inl member
    · rcases right.inside v inside with member | kept'
      · exact .inl member
      · exact .inr (kept'.trans kept)

theorem mono {large : Set TypePointer} (step : MarkStep base before after set)
    (subset : set ⊆ large) : MarkStep base before after large where
  allocates := step.allocates
  grows := step.grows
  inside v inside := (step.inside v inside).imp_left (subset ·)

/-- A mark that is there stays. -/
theorem second_eq (step : MarkStep base before after set) {v : TypePointer}
    (inside : v < base.size) (marked : (before.nodes v).second ≠ .null) :
    (after.nodes v).second = (before.nodes v).second :=
  (step.grows v inside).resolve_left marked

end MarkStep

/-- A clean graph is what a walk starts from. -/
theorem Marked.start {base : TypeGraph} (walk : Walk)
    (keep : TypePointer → Prop) (wellFormed : base.WellFormed)
    (clean : base.Clean) : Marked walk keep base base where
  wellFormed := wellFormed
  allocates := .refl _
  mark v markable := .blank (by rw [markable.2])
  unmarked v inside isVariable _ := clean v inside isVariable
  new q large small := absurd small (Nat.not_lt_of_le large)
  injective v w q left _ _ second _ := by
    rw [left.2] at second
    cases second
  ordered p q large small := absurd small (Nat.not_lt_of_le large)

/-- The number of nodes stays, and all but the marks of variables. -/
theorem Marked.isVariable {walk : Walk} {keep : TypePointer → Prop}
    {base graph : TypeGraph} (marked : Marked walk keep base graph)
    {v : TypePointer} (markable : Markable walk base v) :
    (graph.nodes v).IsVariable :=
  (marked.allocates.same v markable.1).isVariable.mpr markable.isVariable

/-- Allocating a node that is no variable, or a new image, keeps the marks. -/
theorem Marked.add {walk : Walk} {keep : TypePointer → Prop}
    {base graph : TypeGraph} (marked : Marked walk keep base graph)
    {contents : TypeExp} (shaped : contents.Shaped graph.size)
    (noError : contents.type ≠ .error)
    (image : contents.IsVariable → contents = ⟨walk.image, none, .null⟩) :
    Marked walk keep base (graph.add contents) := by
  have larger := marked.allocates.size
  have old : ∀ v < base.size, (graph.add contents).nodes v = graph.nodes v :=
    fun v inside =>
      TypeGraph.add_old graph contents (Nat.lt_of_lt_of_le inside larger)
  constructor
  · exact TypeGraph.add_wellFormed marked.wellFormed shaped noError
  · exact marked.allocates.trans (TypeGraph.add_allocates graph contents)
  · intro v markable
    cases marked.mark v markable with
    | blank second => exact .blank (by rw [old v markable.1, second])
    | kept keeps second => exact .kept keeps (by rw [old v markable.1, second])
    | @replaced q moves second new inside isImage =>
        refine .replaced moves (by rw [old v markable.1, second]) new
          (Nat.lt_succ_of_lt inside) ?_
        rw [TypeGraph.add_old graph contents inside, isImage]
  · intro v inside isVariable other
    rw [old v inside]
    exact marked.unmarked v inside isVariable other
  · intro q large small isVariable
    rcases Nat.lt_succ_iff_lt_or_eq.mp small with inside | rfl
    · rw [TypeGraph.add_old graph contents inside] at isVariable ⊢
      exact marked.new q large inside isVariable
    · rw [TypeGraph.add_node] at isVariable ⊢
      exact image isVariable
  · intro v w q left right new second second'
    rw [old v left.1] at second
    rw [old w right.1] at second'
    exact marked.injective v w q left right new second second'
  · intro p q large small link
    rcases Nat.lt_succ_iff_lt_or_eq.mp small with inside | rfl
    · exact marked.ordered p q large inside
        (((TypeGraph.add_allocates graph contents).link_iff inside).mp link)
    · rw [TypeGraph.Link, TypeGraph.add_node] at link
      exact shaped.link_lt link

/-- Marking a node as kept, or with an image that no other node has. -/
theorem Marked.set {walk : Walk} {keep : TypePointer → Prop}
    {base graph : TypeGraph} (marked : Marked walk keep base graph)
    {v q : TypePointer} (markable : Markable walk base v)
    (valid : keep v ∧ q = v ∨
      ¬keep v ∧ base.size ≤ q ∧ q < graph.size ∧
        graph.nodes q = ⟨walk.image, none, .null⟩ ∧
        ∀ w, Markable walk base w → (graph.nodes w).second ≠ .type q) :
    Marked walk keep base (graph.mark v (.type q)) := by
  have isVariable := marked.isVariable markable
  have same := TypeGraph.mark_same isVariable (.type q)
  constructor
  · exact TypeGraph.mark_wellFormed marked.wellFormed isVariable _
  · exact marked.allocates.trans (TypeGraph.mark_allocates isVariable _)
  · intro w other
    by_cases here : w = v
    · subst here
      rcases valid with ⟨keeps, rfl⟩ | ⟨moves, new, inside, image, -⟩
      · exact .kept keeps (by rw [TypeGraph.mark_node])
      · refine .replaced moves (by rw [TypeGraph.mark_node]) new inside ?_
        rw [TypeGraph.mark_old graph _ (Nat.ne_of_gt
          (Nat.lt_of_lt_of_le markable.1 new)), image]
    · have old := TypeGraph.mark_old graph (.type q) here
      cases marked.mark w other with
      | blank second => exact .blank (by rw [old, second])
      | kept keeps second => exact .kept keeps (by rw [old, second])
      | @replaced r moves second new inside image =>
          refine .replaced moves (by rw [old, second]) new inside ?_
          rw [TypeGraph.mark_old graph _ (Nat.ne_of_gt
            (Nat.lt_of_lt_of_le markable.1 new)), image]
  · intro w inside isVariable' other
    have here : w ≠ v := fun same => other (same ▸ markable)
    rw [TypeGraph.mark_old graph _ here]
    exact marked.unmarked w inside isVariable' other
  · intro r large small isVariable'
    have here : r ≠ v := Nat.ne_of_gt (Nat.lt_of_lt_of_le markable.1 large)
    rw [TypeGraph.mark_old graph _ here] at isVariable' ⊢
    exact marked.new r large small isVariable'
  · intro w x r left right new second second'
    -- Only the new mark can point at `q`.
    have unique : ∀ y, Markable walk base y → y ≠ v →
        ((graph.mark v (.type q)).nodes y).second = .type r →
        ((graph.mark v (.type q)).nodes v).second ≠ .type r := by
      intro y other here second points
      rw [TypeGraph.mark_old graph _ here] at second
      rw [TypeGraph.mark_node] at points
      cases points
      rcases valid with ⟨-, rfl⟩ | ⟨-, -, -, -, free⟩
      · exact absurd markable.1 (Nat.not_lt_of_le new)
      · exact free y other second
    by_cases hereW : w = v
    · by_cases hereX : x = v
      · rw [hereW, hereX]
      · exact absurd (hereW ▸ second) (unique x right hereX second')
    · by_cases hereX : x = v
      · exact absurd (hereX ▸ second') (unique w left hereW second)
      · rw [TypeGraph.mark_old graph _ hereW] at second
        rw [TypeGraph.mark_old graph _ hereX] at second'
        exact marked.injective w x r left right new second second'
  · intro p r large small link
    exact marked.ordered p r large small
      (((TypeGraph.mark_allocates isVariable _).link_iff small).mp link)

/-- Setting the mark of a blank node is a step there. -/
theorem MarkStep.set {base before graph : TypeGraph} {v : TypePointer}
    (allocates : before.Allocates graph)
    (isVariable : (graph.nodes v).IsVariable)
    (blank : (before.nodes v).second = .null)
    (old : ∀ w < base.size, graph.nodes w = before.nodes w) (other : Link) :
    MarkStep base before (graph.mark v other) {v} where
  allocates := allocates.trans (TypeGraph.mark_allocates isVariable other)
  grows w inside := by
    by_cases here : w = v
    · exact .inl (here ▸ blank)
    · exact .inr (by rw [TypeGraph.mark_old graph other here, old w inside])
  inside w inside := by
    by_cases here : w = v
    · exact .inl here
    · exact .inr (by rw [TypeGraph.mark_old graph other here, old w inside])

/-! ## Replacing a node -/

/-- What replacing a node establishes. -/
def Replaces (walk : Walk) (keep : TypePointer → Prop) (base before : TypeGraph)
    (v r : TypePointer) (after : TypeGraph) : Prop :=
  Marked walk keep base after ∧ MarkStep base before after {v} ∧
    (after.nodes v).second = .type r

/-- A new image for a node that has none yet. -/
theorem replaces_add {walk : Walk} {keep : TypePointer → Prop}
    {base graph : TypeGraph} (marked : Marked walk keep base graph)
    {v : TypePointer} (markable : Markable walk base v) (moves : ¬keep v)
    (blank : (graph.nodes v).second = .null) :
    Replaces walk keep base graph v graph.size
      ((graph.add ⟨walk.image, none, .null⟩).mark v (.type graph.size)) := by
  have inside : v < graph.size :=
    Nat.lt_of_lt_of_le markable.1 marked.allocates.size
  have isVariable : ((graph.add ⟨walk.image, none, .null⟩).nodes v).IsVariable := by
    rw [TypeGraph.add_old graph _ inside]
    exact marked.isVariable markable
  have added : Marked walk keep base (graph.add ⟨walk.image, none, .null⟩) := by
    apply marked.add
    · cases walk with
      | generalize => exact .generic .null
      | freshen => exact .unbound .null
    · cases walk <;> exact nofun
    · exact fun _ => rfl
  refine ⟨added.set markable (.inr ⟨moves, marked.allocates.size,
    Nat.lt_succ_self _, ?_, ?_⟩), ?_, ?_⟩
  · exact TypeGraph.add_node graph _
  · intro w other points
    have insideW : w < graph.size :=
      Nat.lt_of_lt_of_le other.1 marked.allocates.size
    rw [TypeGraph.add_old graph _ insideW] at points
    -- No old mark points at a node that is only now allocated.
    cases marked.mark w other with
    | blank second =>
        rw [second] at points
        cases points
    | kept keeps second =>
        rw [second] at points
        cases points
        exact Nat.lt_irrefl _ insideW
    | replaced _ second _ insideQ _ =>
        rw [second] at points
        cases points
        exact Nat.lt_irrefl _ insideQ
  · exact MarkStep.set (TypeGraph.add_allocates graph _) isVariable blank
      (fun w below => TypeGraph.add_old graph _
        (Nat.lt_of_lt_of_le below marked.allocates.size)) _
  · rw [TypeGraph.mark_node]

theorem freshReplacement_spec {base graph : TypeGraph}
    (marked : Marked .freshen (fun _ => False) base graph) (fuel : Nat)
    {v : TypePointer} (markable : Markable .freshen base v) :
    wpExcept (fun _ => False) (freshReplacement fuel v (graph.nodes v))
      (Replaces .freshen (fun _ => False) base graph v) graph := by
  cases marked.mark v markable with
  | blank blank =>
      simp only [freshReplacement, blank]
      exact replaces_add marked markable id blank
  | kept keeps second => exact keeps.elim
  | replaced moves second new inside image =>
      simp only [freshReplacement, second]
      exact ⟨marked, .refl _ _ _, second⟩

/-- The marks of a generalizing walk do not mislead the containment search. -/
theorem Marked.searchable {keep : TypePointer → Prop} {base graph : TypeGraph}
    (marked : Marked .generalize keep base graph) {v : TypePointer}
    (inside : v < base.size) : graph.Searchable v := by
  intro w below isVariable
  by_cases old : w < base.size
  · have same := marked.allocates.same w old
    by_cases markable : Markable .generalize base w
    · have open_ : (graph.nodes w).first = none := by rw [same.2.1, markable.2]
      cases marked.mark w markable with
      | blank second => exact .inl second
      | kept keeps second => exact .inr ⟨open_, .inl second⟩
      | @replaced q moves second new _ image =>
          refine .inr ⟨open_, .inr ⟨q, second, ?_, ?_, ?_⟩⟩
          · exact Nat.ne_of_gt (Nat.lt_of_lt_of_le inside new)
          · rw [image]
          · rw [image]
    · exact .inl
        (marked.unmarked w old (same.isVariable.mp isVariable) markable)
  · exact .inl (by rw [marked.new w (Nat.le_of_not_lt old) below isVariable])

theorem genericReplacement_spec {base graph : TypeGraph}
    (wellFormed : base.WellFormed) {nonGenerics : List TypePointer}
    (within : ∀ n ∈ nonGenerics, n < base.size)
    (marked : Marked .generalize (base.ReachedFrom nonGenerics) base graph)
    (fuel : Nat) {v : TypePointer} (markable : Markable .generalize base v) :
    wpExcept (fun _ => True)
      (genericReplacement nonGenerics fuel v (graph.nodes v))
      (Replaces .generalize (base.ReachedFrom nonGenerics) base graph v)
      graph := by
  cases marked.mark v markable with
  | kept keeps second =>
      simp only [genericReplacement, second]
      exact ⟨marked, .refl _ _ _, second⟩
  | replaced moves second new inside image =>
      simp only [genericReplacement, second]
      exact ⟨marked, .refl _ _ _, second⟩
  | blank blank =>
      simp only [genericReplacement, blank, wpExcept_bind]
      apply wpExcept_mono
        (isTypeNonGeneric_spec marked.wellFormed
          (marked.searchable markable.1) fuel nonGenerics
          fun n member => Nat.lt_of_lt_of_le (within n member)
            marked.allocates.size) ?_ fun _ _ => trivial
      rintro found after ⟨rfl, reached⟩
      have reachedBase : found = true ↔ base.ReachedFrom nonGenerics v := by
        rw [reached]
        exact exists_congr fun n => and_congr_right fun member =>
          marked.allocates.reaches_iff wellFormed (within n member)
      cases found with
      | true =>
          exact ⟨marked.set markable (.inl ⟨reachedBase.mp rfl, rfl⟩),
            .set (.refl _) (marked.isVariable markable) blank
              (fun _ _ => rfl) _,
            congrArg TypeExp.second (TypeGraph.mark_node after v _)⟩
      | false =>
          exact replaces_add marked markable
            (fun keeps => absurd (reachedBase.mpr keeps) Bool.false_ne_true)
            blank

/-! ## Copying a type -/

/-- What copying a type establishes. -/
structure Copied (walk : Walk) (keep : TypePointer → Prop)
    (base before : TypeGraph) (p r : TypePointer) (after : TypeGraph) :
    Prop where
  marked : Marked walk keep base after
  step : MarkStep base before after (base.openNodes p)
  inside : r < after.size
  pruned : ∀ q, ¬after.Bound r q
  copies : ∃ t, Denotes base p t ∧
    (∀ v, walk.source v ∈ t.leaves → (after.nodes v).second ≠ .null) ∧
    Denotes after r (t.bind fun leaf => .leaf (walk.rename after.markOf leaf))

theorem markOf_eq {graph : TypeGraph} {v q : TypePointer}
    (second : (graph.nodes v).second = .type q) : graph.markOf v = q := by
  simp [TypeGraph.markOf, second]

/-- Renaming depends on the marks of the leaves only. -/
theorem rename_congr {walk : Walk} {first second : TypePointer → TypePointer}
    {leaf : Leaf} (same : ∀ v, leaf = walk.source v → first v = second v) :
    walk.rename first leaf = walk.rename second leaf := by
  cases walk with
  | generalize =>
      cases leaf with
      | variable_ v => simp [Walk.rename, same v rfl]
      | _ => rfl
  | freshen =>
      cases leaf with
      | generic v => simp [Walk.rename, same v rfl]
      | _ => rfl

/-- A copy stays a copy while the walk goes on. -/
theorem copy_keeps {walk : Walk} {keep : TypePointer → Prop}
    {base before after : TypeGraph} {set : Set TypePointer}
    {r : TypePointer} {t : Ty Leaf} (marked : Marked walk keep base before)
    (step : MarkStep base before after set) (inside : r < before.size)
    (below : ∀ v, walk.source v ∈ t.leaves → v < base.size)
    (seconds : ∀ v, walk.source v ∈ t.leaves →
      (before.nodes v).second ≠ .null)
    (denotes : Denotes before r
      (t.bind fun leaf => .leaf (walk.rename before.markOf leaf))) :
    (∀ v, walk.source v ∈ t.leaves → (after.nodes v).second ≠ .null) ∧
      Denotes after r
        (t.bind fun leaf => .leaf (walk.rename after.markOf leaf)) := by
  have stays : ∀ v, walk.source v ∈ t.leaves →
      (after.nodes v).second = (before.nodes v).second := fun v member =>
    step.second_eq (below v member) (seconds v member)
  constructor
  · intro v member
    rw [stays v member]
    exact seconds v member
  · have same : (t.bind fun leaf => Ty.leaf (walk.rename after.markOf leaf)) =
        t.bind fun leaf => .leaf (walk.rename before.markOf leaf) := by
      refine Ty.bind_congr fun leaf member => congrArg Ty.leaf ?_
      apply rename_congr
      rintro v rfl
      simp only [TypeGraph.markOf, stays v member]
    rw [same]
    exact step.allocates.denotes marked.wellFormed inside denotes

/-- The replaced leaves of a type are nodes of the graph. -/
theorem source_lt {walk : Walk} {base : TypeGraph}
    (wellFormed : base.WellFormed) {p v : TypePointer}
    (inside : p < base.size) {t : Ty Leaf} (denotes : Denotes base p t)
    (member : walk.source v ∈ t.leaves) : v < base.size := by
  rcases denotes.leaf_reached member with ⟨q, path, here⟩
  have within := wellFormed.reaches_lt inside path
  cases walk with
  | generalize => exact wellFormed.reaches_lt within here.of_variable.1
  | freshen => exact wellFormed.reaches_lt within here.of_generic.1

/-- The copy of a node whose walk replaces it. -/
theorem copied_replaced {walk : Walk} {keep : TypePointer → Prop}
    {base before after : TypeGraph} {p q r : TypePointer}
    (freshens : walk = .freshen → ∀ v, ¬keep v)
    (prunes : Prunes base p q) (markable : Markable walk base q)
    (replaces : Replaces walk keep base before q r after) :
    Copied walk keep base before p r after := by
  rcases replaces with ⟨marked, step, second⟩
  have isOpen : base.Open q := by
    refine ⟨markable.isVariable, by rw [markable.2]⟩
  have same := marked.allocates.same q markable.1
  have mark := markOf_eq second
  have denotesBase : Denotes base p (.leaf (walk.source q)) := by
    rw [prunes.denotes_iff]
    cases walk with
    | generalize => exact .unbound markable.2
    | freshen => exact .generic markable.2
  have seconds : ∀ v, walk.source v ∈ (Ty.leaf (walk.source q)).leaves →
      (after.nodes v).second ≠ .null := by
    intro v member
    have here : v = q := by
      cases walk <;> simpa [Ty.leaves, Walk.source] using member
    rw [here, second]
    simp
  have stepOpen : MarkStep base before after (base.openNodes p) := by
    rw [prunes.openNodes, TypeGraph.openNodes_open isOpen]
    exact step
  rcases marked.mark q markable with
    blank | ⟨keeps, self⟩ | ⟨moves, self, new, inside, image⟩
  · rw [second] at blank
    cases blank
  · rw [second] at self
    cases self
    cases walk with
    | freshen => exact absurd keeps (freshens rfl q)
    | generalize =>
        have unbound : after.Unbound q := by
          rw [markable.2] at same
          exact ⟨same.1, same.2.1⟩
        refine ⟨marked, stepOpen,
          Nat.lt_of_lt_of_le markable.1 marked.allocates.size, ?_, _,
          denotesBase, seconds, ?_⟩
        · rintro s ⟨-, instance_⟩
          rw [unbound.2] at instance_
          cases instance_
        · simp only [Ty.bind, Walk.source, Walk.rename, mark, if_true]
          exact .of_unbound unbound
  · rw [second] at self
    cases self
    refine ⟨marked, stepOpen, inside, ?_, _, denotesBase, seconds, ?_⟩
    · rintro s ⟨-, instance_⟩
      rw [image] at instance_
      cases instance_
    · cases walk with
      | generalize =>
          have other : r ≠ q := Nat.ne_of_gt (Nat.lt_of_lt_of_le markable.1 new)
          simp only [Ty.bind, Walk.source, Walk.rename, mark, if_neg other]
          exact .generic image
      | freshen =>
          simp only [Ty.bind, Walk.source, Walk.rename, mark]
          exact .unbound image

/-- The copy of a node that has nothing to replace. -/
theorem copied_same {walk : Walk} {keep : TypePointer → Prop}
    {base graph : TypeGraph} {p q : TypePointer} {t : Ty Leaf}
    (marked : Marked walk keep base graph) (prunes : Prunes base p q)
    (wellFormed : base.WellFormed) (inside : q < base.size)
    (denotes : Denotes base q t)
    (plain : ∀ leaf ∈ t.leaves, ∀ v, leaf ≠ walk.source v) :
    Copied walk keep base graph p q graph := by
  have later : q < graph.size := Nat.lt_of_lt_of_le inside marked.allocates.size
  refine ⟨marked, .refl _ _ _, later, ?_, t, prunes.denotes_iff.mpr denotes,
    fun v member => absurd rfl (plain _ member v), ?_⟩
  · rintro r ⟨type, first⟩
    have same := marked.allocates.same q inside
    exact prunes.ended r
      ⟨same.1.symm.trans type, same.2.1.symm.trans first⟩
  · have renamed : (t.bind fun leaf =>
        Ty.leaf (walk.rename graph.markOf leaf)) = t := by
      refine (Ty.bind_congr fun leaf member => ?_).trans (Ty.bind_leaf t)
      refine congrArg Ty.leaf ?_
      have other := plain leaf member
      cases walk with
      | generalize =>
          cases leaf with
          | variable_ v => exact absurd rfl (other v)
          | _ => rfl
      | freshen =>
          cases leaf with
          | generic v => exact absurd rfl (other v)
          | _ => rfl
    rw [renamed]
    exact marked.allocates.denotes wellFormed inside denotes

theorem openNodes_subset {graph : TypeGraph} {p q r : TypePointer}
    (prunes : Prunes graph p q) (link : graph.Link q r) :
    graph.openNodes r ⊆ graph.openNodes p := by
  rintro v ⟨path, open_⟩
  exact ⟨prunes.reaches.trans (.head link path), open_⟩

/-- Why copying a type can stop. -/
def StarvedCopy (base : TypeGraph) (bad : Nat → Stop → Prop) (fuel : Nat)
    (p : TypePointer) : Stop → Prop := fun reason =>
  StarvedWalk base fuel p reason ∨ ∃ less < fuel, bad less reason

theorem StarvedCopy.link {base : TypeGraph} {bad : Nat → Stop → Prop}
    {fuel : Nat} {p q r : TypePointer} (prunes : Prunes base p q)
    (link : base.Link q r) {reason : Stop}
    (starved : StarvedCopy base bad fuel r reason) :
    StarvedCopy base bad (fuel + 1) p reason := by
  rcases starved with walk | ⟨less, below, stops⟩
  · exact .inl (.link prunes link walk)
  · exact .inr ⟨less, Nat.lt_succ_of_lt below, stops⟩

section

variable {walk : Walk} {keep : TypePointer → Prop} {base : TypeGraph}
    (wellFormed : base.WellFormed)

include wellFormed

/-- Copying the second of two arguments keeps the copy of the first. -/
theorem Copied.after {before middle after : TypeGraph} {a b ra rb : TypePointer}
    (inside : a < base.size) (first : Copied walk keep base before a ra middle)
    (second : Copied walk keep base middle b rb after) :
    ∃ s, Denotes base a s ∧
      (∀ v, walk.source v ∈ s.leaves → (after.nodes v).second ≠ .null) ∧
      Denotes after ra
        (s.bind fun leaf => .leaf (walk.rename after.markOf leaf)) := by
  rcases first.copies with ⟨s, denotes, seconds, copy⟩
  exact ⟨s, denotes, copy_keeps first.marked second.step first.inside
    (fun v => source_lt wellFormed inside denotes) seconds copy⟩

omit wellFormed in
/-- Allocating a node leaves every mark alone. -/
theorem MarkStep.add {graph : TypeGraph} (larger : base.size ≤ graph.size)
    (contents : TypeExp) (set : Set TypePointer) :
    MarkStep base graph (graph.add contents) set := by
  have old : ∀ v < base.size,
      ((graph.add contents).nodes v).second = (graph.nodes v).second := by
    intro v inside
    rw [TypeGraph.add_old graph contents (Nat.lt_of_lt_of_le inside larger)]
  exact ⟨TypeGraph.add_allocates graph contents,
    fun v inside => .inr (old v inside), fun v inside => .inr (old v inside)⟩

omit wellFormed in
/-- A node that is not copied because its arguments did not change. -/
theorem copied_unchanged {before after : TypeGraph} {p q : TypePointer}
    {t : Ty Leaf} (marked : Marked walk keep base after)
    (step : MarkStep base before after (base.openNodes p))
    (within : q < base.size) (plain : ¬(base.nodes q).IsVariable)
    (denotes : Denotes base p t)
    (seconds : ∀ v, walk.source v ∈ t.leaves →
      (after.nodes v).second ≠ .null)
    (copy : after.nodes q = base.nodes q → Denotes after q
      (t.bind fun leaf => .leaf (walk.rename after.markOf leaf))) :
    Copied walk keep base before p q after := by
  have same : after.nodes q = base.nodes q :=
    (marked.allocates.same q within).eq plain
  refine ⟨marked, step, Nat.lt_of_lt_of_le within marked.allocates.size, ?_,
    t, denotes, seconds, copy same⟩
  rintro r ⟨type, -⟩
  rw [same] at type
  exact plain (.inl type)

/-- A node that is copied because its arguments changed. -/
theorem copied_new {before after : TypeGraph} {p : TypePointer}
    {contents : TypeExp} {t : Ty Leaf}
    (marked : Marked walk keep base after)
    (step : MarkStep base before after (base.openNodes p))
    (inside : p < base.size) (shaped : contents.Shaped after.size)
    (plain : ¬contents.IsVariable) (noError : contents.type ≠ .error)
    (denotes : Denotes base p t)
    (seconds : ∀ v, walk.source v ∈ t.leaves →
      (after.nodes v).second ≠ .null)
    (copy : Denotes (after.add contents) after.size
      (t.bind fun leaf => .leaf (walk.rename after.markOf leaf))) :
    Copied walk keep base before p after.size (after.add contents) := by
  have larger := marked.allocates.size
  have addStep := MarkStep.add larger contents (base.openNodes p)
  have stays : ∀ v, walk.source v ∈ t.leaves →
      ((after.add contents).nodes v).second = (after.nodes v).second :=
    fun v member => addStep.second_eq
      (source_lt wellFormed inside denotes member) (seconds v member)
  refine ⟨marked.add shaped noError fun isVariable => absurd isVariable plain,
    step.trans addStep, Nat.lt_succ_self _, ?_, t, denotes, ?_, ?_⟩
  · rintro r ⟨type, -⟩
    rw [TypeGraph.add_node] at type
    exact plain (.inl type)
  · intro v member
    rw [stays v member]
    exact seconds v member
  · have same : (t.bind fun leaf => Ty.leaf
        (walk.rename (after.add contents).markOf leaf)) =
        t.bind fun leaf => .leaf (walk.rename after.markOf leaf) := by
      refine Ty.bind_congr fun leaf member => congrArg Ty.leaf ?_
      apply rename_congr
      rintro v rfl
      simp only [TypeGraph.markOf, stays v member]
    rw [same]
    exact copy

/-- The two kinds of node with two arguments. -/
inductive Joins : TypeExpType → (Ty Leaf → Ty Leaf → Ty Leaf) → Prop where
  | func : Joins .func .func
  | tuple : Joins .tuple .tuple

namespace Joins

variable {kind : TypeExpType} {join : Ty Leaf → Ty Leaf → Ty Leaf}

omit wellFormed

theorem plain (joins : Joins kind join) (a b : TypePointer) :
    ¬(TypeExp.mk kind (some a) (.type b)).IsVariable := by
  cases joins <;> simp [TypeExp.IsVariable]

theorem shaped (joins : Joins kind join) {size : Nat} {a b : TypePointer}
    (first : a < size) (second : b < size) :
    (TypeExp.mk kind (some a) (.type b)).Shaped size := by
  cases joins with
  | func => exact .func first second
  | tuple => exact .tuple first second

theorem links (joins : Joins kind join) {graph : TypeGraph}
    {p a b : TypePointer} (node : graph.nodes p = ⟨kind, some a, .type b⟩) :
    graph.Link p a ∧ graph.Link p b := by
  have plain : ¬(graph.nodes p).IsVariable := node ▸ joins.plain a b
  exact ⟨.inl (by rw [node]), .inr ⟨plain, by rw [node]⟩⟩

theorem noError (joins : Joins kind join) : kind ≠ .error := by
  cases joins <;> exact nofun

theorem leaves (joins : Joins kind join) (s t : Ty Leaf) :
    (join s t).leaves = s.leaves ++ t.leaves := by
  cases joins <;> rfl

theorem bind (joins : Joins kind join) (s t : Ty Leaf)
    (image : Leaf → Ty Leaf) :
    (join s t).bind image = join (s.bind image) (t.bind image) := by
  cases joins <;> rfl

theorem denotes (joins : Joins kind join) {graph : TypeGraph}
    {p a b : TypePointer} {s t : Ty Leaf}
    (node : graph.nodes p = ⟨kind, some a, .type b⟩)
    (first : Denotes graph a s) (second : Denotes graph b t) :
    Denotes graph p (join s t) := by
  cases joins with
  | func => exact .func node first second
  | tuple => exact .tuple node first second

end Joins

omit wellFormed in
theorem convertArguments_both {kind : TypeExpType}
    {join : Ty Leaf → Ty Leaf → Ty Leaf} (joins : Joins kind join)
    (convert : TypePointer → GraphM TypePointer) (q a b : TypePointer) :
    convertArguments convert q ⟨kind, some a, .type b⟩ =
      (convert a >>= fun ra => convert b >>= fun rb =>
        if ra = a ∧ rb = b then pure q
        else allocate ⟨kind, some ra, .type rb⟩) := by
  cases joins <;> rfl

/-- The copy of a function or a tuple from the copies of its arguments. -/
theorem copied_both {kind : TypeExpType} {join : Ty Leaf → Ty Leaf → Ty Leaf}
    (joins : Joins kind join) {before middle after : TypeGraph}
    {p q a b ra rb : TypePointer} (inside : p < base.size)
    (prunes : Prunes base p q)
    (node : base.nodes q = ⟨kind, some a, .type b⟩)
    (first : Copied walk keep base before a ra middle)
    (second : Copied walk keep base middle b rb after) :
    wpExcept (fun _ => False)
      (if ra = a ∧ rb = b then pure q
        else allocate ⟨kind, some ra, .type rb⟩)
      (Copied walk keep base before p) after := by
  have within := wellFormed.reaches_lt inside prunes.reaches
  have plain : ¬(base.nodes q).IsVariable := node ▸ joins.plain a b
  have linkA : base.Link q a := .inl (by rw [node])
  have linkB : base.Link q b := .inr ⟨plain, by rw [node]⟩
  rcases first.after wellFormed (wellFormed.link_lt within linkA) second with
    ⟨s, denotesA, secondsA, copyA⟩
  rcases second.copies with ⟨t, denotesB, secondsB, copyB⟩
  have step : MarkStep base before after (base.openNodes p) :=
    (first.step.mono (openNodes_subset prunes linkA)).trans
      (second.step.mono (openNodes_subset prunes linkB))
  have denotes : Denotes base p (join s t) :=
    prunes.denotes_iff.mpr (joins.denotes node denotesA denotesB)
  have seconds : ∀ v, walk.source v ∈ (join s t).leaves →
      (after.nodes v).second ≠ .null := by
    intro v member
    rw [joins.leaves] at member
    rcases List.mem_append.mp member with inA | inB
    · exact secondsA v inA
    · exact secondsB v inB
  by_cases unchanged : ra = a ∧ rb = b
  · rw [if_pos unchanged]
    rcases unchanged with ⟨rfl, rfl⟩
    apply copied_unchanged second.marked step within plain denotes seconds
    intro same
    rw [joins.bind]
    exact joins.denotes (same.trans node) copyA copyB
  · rw [if_neg unchanged, wp_allocate]
    have insideRa : ra < after.size :=
      Nat.lt_of_lt_of_le first.inside second.step.allocates.size
    have later := TypeGraph.add_allocates after ⟨kind, some ra, .type rb⟩
    apply copied_new wellFormed second.marked step inside
      (joins.shaped insideRa second.inside) (joins.plain ra rb) joins.noError
      denotes seconds
    rw [joins.bind]
    exact joins.denotes (TypeGraph.add_node after _)
      (later.denotes second.marked.wellFormed insideRa copyA)
      (later.denotes second.marked.wellFormed second.inside copyB)

/-- The copy of a last tuple component from the copy of its argument. -/
theorem copied_final {before after : TypeGraph} {p q a ra : TypePointer}
    (inside : p < base.size) (prunes : Prunes base p q)
    (node : base.nodes q = ⟨.tupleFinal, some a, .null⟩)
    (first : Copied walk keep base before a ra after) :
    wpExcept (fun _ => False)
      (if ra = a then pure q else allocate ⟨.tupleFinal, some ra, .null⟩)
      (Copied walk keep base before p) after := by
  have plain : ¬(base.nodes q).IsVariable := by
    simp [TypeExp.IsVariable, node]
  have linkA : base.Link q a := .inl (by rw [node])
  rcases first.copies with ⟨s, denotesA, secondsA, copyA⟩
  have step : MarkStep base before after (base.openNodes p) :=
    first.step.mono (openNodes_subset prunes linkA)
  have denotes : Denotes base p (.tupleFinal s) :=
    prunes.denotes_iff.mpr (.tupleFinal node denotesA)
  by_cases unchanged : ra = a
  · rw [if_pos unchanged]
    subst unchanged
    apply copied_unchanged first.marked step
      (wellFormed.reaches_lt inside prunes.reaches) plain denotes secondsA
    intro same
    exact .tupleFinal (same.trans node) copyA
  · rw [if_neg unchanged, wp_allocate]
    have later := TypeGraph.add_allocates after ⟨.tupleFinal, some ra, .null⟩
    apply copied_new wellFormed first.marked step inside
      (.tupleFinal first.inside) (by simp [TypeExp.IsVariable]) (by simp) denotes
      secondsA
    exact .tupleFinal (TypeGraph.add_node after _)
      (later.denotes first.marked.wellFormed first.inside copyA)

theorem copyTypeExp_spec (clean : base.Clean)
    (freshens : walk = .freshen → ∀ v, ¬keep v)
    {replace : Nat → TypePointer → TypeExp → GraphM TypePointer}
    {bad : Nat → Stop → Prop}
    (replaces : ∀ {graph}, Marked walk keep base graph → ∀ fuel v,
      Markable walk base v →
      wpExcept (bad fuel) (replace fuel v (graph.nodes v))
        (Replaces walk keep base graph v) graph)
    (fuel : Nat) (p : TypePointer) {graph : TypeGraph}
    (marked : Marked walk keep base graph) (inside : p < base.size) :
    wpExcept (StarvedCopy base bad fuel p)
      (copyTypeExp walk.kind replace fuel p)
      (Copied walk keep base graph p) graph := by
  induction fuel generalizing p graph with
  | zero => exact .inl ⟨rfl, fun _ _ => Nat.zero_le _⟩
  | succ fuel ih =>
      have later : p < graph.size :=
        Nat.lt_of_lt_of_le inside marked.allocates.size
      rw [copyTypeExp, wpExcept_bind]
      apply wpExcept_mono (pruneTypeExp_spec fuel p graph)
      · rintro q after ⟨rfl, prunesAfter⟩
        rename TypeGraph => graph
        have prunes := marked.allocates.prunes wellFormed inside prunesAfter
        have within := wellFormed.reaches_lt inside prunes.reaches
        have same := marked.allocates.same q within
        have shaped := wellFormed.shaped q within
        rw [wpExcept_bind, wp_node]
        have next : ∀ r, base.Link q r → ∀ {graph : TypeGraph},
            Marked walk keep base graph →
            wpExcept (StarvedCopy base bad (fuel + 1) p)
              (copyTypeExp walk.kind replace fuel r)
              (Copied walk keep base graph r) graph := by
          intro r link graph marked
          exact wpExcept_mono
            (ih r marked (wellFormed.link_lt within link)) (fun _ _ => id)
            fun _ => StarvedCopy.link prunes link
        have leaf : ∀ t, Denotes base q t →
            (∀ leaf ∈ t.leaves, ∀ v, leaf ≠ walk.source v) →
            Copied walk keep base graph p q graph := fun t =>
          copied_same marked prunes wellFormed within
        have replaced : Markable walk base q →
            wpExcept (StarvedCopy base bad (fuel + 1) p)
              (replace fuel q (graph.nodes q))
              (Copied walk keep base graph p) graph := by
          intro markable
          apply wpExcept_mono (replaces marked fuel q markable)
          · intro r after
            exact copied_replaced freshens prunes markable
          · exact fun stop stops => .inr ⟨fuel, Nat.lt_succ_self _, stops⟩
        have both : ∀ {kind join a b}, Joins kind join →
            base.nodes q = ⟨kind, some a, .type b⟩ →
            wpExcept (StarvedCopy base bad (fuel + 1) p)
              (convertArguments (copyTypeExp walk.kind replace fuel) q
                ⟨kind, some a, .type b⟩)
              (Copied walk keep base graph p) graph := by
          intro kind join a b joins node
          have plain : ¬(base.nodes q).IsVariable := node ▸ joins.plain a b
          rw [convertArguments_both joins, wpExcept_bind]
          apply wpExcept_mono (next a (.inl (by rw [node])) marked) ?_
            fun _ => id
          intro ra middle first
          rw [wpExcept_bind]
          apply wpExcept_mono
            (next b (.inr ⟨plain, by rw [node]⟩) first.marked) ?_ fun _ => id
          intro rb after second
          exact wpExcept_mono
            (copied_both wellFormed joins inside prunes node first second)
            (fun _ _ => id) fun _ => False.elim
        have plainNode : ¬(base.nodes q).IsVariable →
            graph.nodes q = base.nodes q := same.eq
        generalize node : base.nodes q = exp at shaped same plainNode
        cases shaped with
        | bound scratch inside =>
            exact absurd ⟨by rw [node], by rw [node]⟩ (prunes.ended _)
        | unbound scratch =>
            have blank : scratch = .null := by
              simpa [node] using clean q within (.inl (by rw [node]))
            subst blank
            cases walk with
            | generalize =>
                rw [if_pos (show (graph.nodes q).type = Walk.generalize.kind
                  from same.1)]
                exact replaced ⟨within, node⟩
            | freshen =>
                rw [if_neg (by simp [same.1, Walk.kind])]
                simp only [convertArguments, same.1]
                exact leaf _ (.unbound node)
                  (by simp [Ty.leaves, Walk.source])
        | generic scratch =>
            have blank : scratch = .null := by
              simpa [node] using clean q within (.inr (by rw [node]))
            subst blank
            cases walk with
            | generalize =>
                rw [if_neg (by simp [same.1, Walk.kind])]
                simp only [convertArguments, same.1]
                exact leaf _ (.generic node)
                  (by simp [Ty.leaves, Walk.source])
            | freshen =>
                rw [if_pos (show (graph.nodes q).type = Walk.freshen.kind
                  from same.1)]
                exact replaced ⟨within, node⟩
        | error =>
            rw [plainNode (by simp [TypeExp.IsVariable]),
              if_neg (by cases walk <;> simp [Walk.kind])]
            exact leaf _ (.error node)
              (by cases walk <;> simp [Ty.leaves, Walk.source])
        | int =>
            rw [plainNode (by simp [TypeExp.IsVariable]),
              if_neg (by cases walk <;> simp [Walk.kind])]
            exact leaf _ (.int node) (by simp [Ty.leaves])
        | bool =>
            rw [plainNode (by simp [TypeExp.IsVariable]),
              if_neg (by cases walk <;> simp [Walk.kind])]
            exact leaf _ (.bool node) (by simp [Ty.leaves])
        | @func a b _ _ =>
            rw [plainNode (by simp [TypeExp.IsVariable]),
              if_neg (by cases walk <;> simp [Walk.kind])]
            exact both .func node
        | @tuple a b _ _ =>
            rw [plainNode (by simp [TypeExp.IsVariable]),
              if_neg (by cases walk <;> simp [Walk.kind])]
            exact both .tuple node
        | @tupleFinal a _ =>
            rw [plainNode (by simp [TypeExp.IsVariable]),
              if_neg (by cases walk <;> simp [Walk.kind])]
            simp only [convertArguments, wpExcept_bind]
            apply wpExcept_mono (next a (.inl (by rw [node])) marked) ?_
              fun _ => id
            intro ra after first
            exact wpExcept_mono (copied_final wellFormed inside prunes node first)
              (fun _ _ => id) fun _ => False.elim
      · rintro stop ⟨isFuel, least⟩
        refine .inl ⟨isFuel, fun rank ranks => Nat.succ_le_succ ?_⟩
        exact least rank (marked.allocates.ranksFrom wellFormed inside ranks)

end

/-! ## Generic and fresh types -/

/-- What the clean-up after a walk leaves of its marks: a renaming of leaves. -/
structure Renames (walk : Walk) (keep : TypePointer → Prop)
    (base after : TypeGraph) (t : Ty Leaf)
    (image : TypePointer → TypePointer) : Prop where
  kept : ∀ v, walk.source v ∈ t.leaves → keep v → image v = v
  new : ∀ v, walk.source v ∈ t.leaves → ¬keep v →
    base.size ≤ image v ∧ image v < after.size ∧
      after.nodes (image v) = ⟨walk.image, none, .null⟩
  injective : ∀ v w, walk.source v ∈ t.leaves → walk.source w ∈ t.leaves →
    ¬keep v → ¬keep w → image v = image w → v = w

/-- What a walk and the clean-up after it establish. -/
structure Copies (walk : Walk) (keep : TypePointer → Prop)
    (base : TypeGraph) (p r : TypePointer) (after : TypeGraph) : Prop where
  wellFormed : after.WellFormed
  clean : after.Clean
  allocates : base.Allocates after
  inside : r < after.size
  pruned : ∀ q, ¬after.Bound r q
  new : ∀ q, base.size ≤ q → q < after.size →
    (after.nodes q).IsVariable → after.nodes q = ⟨walk.image, none, .null⟩
  ordered : ∀ p q, base.size ≤ p → p < after.size → after.Link p q → q < p
  copies : ∃ t image, Denotes base p t ∧ Renames walk keep base after t image ∧
    Denotes after r (t.bind fun leaf => .leaf (walk.rename image leaf))

/-- The marks of a finished walk rename the leaves of its type. -/
theorem Marked.renames {walk : Walk} {keep : TypePointer → Prop}
    {base after : TypeGraph} (wellFormed : base.WellFormed)
    (clean : base.Clean) (marked : Marked walk keep base after)
    {p : TypePointer} {t : Ty Leaf} (inside : p < base.size)
    (denotes : Denotes base p t)
    (seconds : ∀ v, walk.source v ∈ t.leaves →
      (after.nodes v).second ≠ .null) :
    Renames walk keep base after t after.markOf := by
  have markable : ∀ v, walk.source v ∈ t.leaves → Markable walk base v := by
    intro v member
    have below := source_lt wellFormed inside denotes member
    rcases denotes.leaf_reached member with ⟨q, -, here⟩
    refine ⟨below, ?_⟩
    cases walk with
    | generalize =>
        rcases here.of_variable.2 with ⟨type, first⟩
        have blank := clean v below (.inl type)
        cases node : base.nodes v
        simp_all [Walk.kind]
    | freshen =>
        have type := here.of_generic.2
        have blank := clean v below (.inr type)
        have shaped := wellFormed.shaped v below
        cases node : base.nodes v
        rw [node] at shaped type blank
        cases shaped <;> simp_all [Walk.kind]
  have replaced : ∀ v, walk.source v ∈ t.leaves → ¬keep v →
      ∃ q, (after.nodes v).second = .type q ∧ base.size ≤ q ∧
        q < after.size ∧ after.nodes q = ⟨walk.image, none, .null⟩ := by
    intro v member moves
    cases marked.mark v (markable v member) with
    | blank second => exact absurd second (seconds v member)
    | kept keeps _ => exact absurd keeps moves
    | @replaced q _ second new inside image =>
        exact ⟨q, second, new, inside, image⟩
  constructor
  · intro v member keeps
    cases marked.mark v (markable v member) with
    | blank second => exact absurd second (seconds v member)
    | kept _ second => exact markOf_eq second
    | replaced moves _ _ _ _ => exact absurd keeps moves
  · intro v member moves
    rcases replaced v member moves with ⟨q, second, new, inside, image⟩
    rw [markOf_eq second]
    exact ⟨new, inside, image⟩
  · intro v w left right movesV movesW same
    rcases replaced v left movesV with ⟨q, second, new, -⟩
    rcases replaced w right movesW with ⟨q', second', -⟩
    rw [markOf_eq second, markOf_eq second'] at same
    subst same
    exact marked.injective v w q (markable v left) (markable w right) new
      second second'

/-- A walk, then cleaning up. -/
theorem Copied.cleanup {walk : Walk} {keep : TypePointer → Prop}
    {base after : TypeGraph} (wellFormed : base.WellFormed)
    (clean : base.Clean) {p r : TypePointer} (inside : p < base.size)
    (copied : Copied walk keep base base p r after) :
    Copies walk keep base p r (after.unmark (after.openNodes p)) := by
  have marked := copied.marked
  have isVariable := after.openNodes_isVariable p
  have unmarks := TypeGraph.unmark_allocates isVariable
  have opens := marked.allocates.openNodes wellFormed inside
  have unmarked : ∀ v < after.size, v ∉ after.openNodes p →
      (after.nodes v).IsVariable → (after.nodes v).second = .null := by
    intro v below outside variable_
    by_cases old : v < base.size
    · have same := marked.allocates.same v old
      rcases copied.step.inside v old with member | kept
      · exact absurd (opens ▸ member) outside
      · rw [kept]
        exact clean v old (same.isVariable.mp variable_)
    · rw [marked.new v (Nat.le_of_not_lt old) below variable_]
  have new : ∀ q, base.size ≤ q → q ∉ after.openNodes p := by
    intro q large member
    rw [opens] at member
    exact absurd (wellFormed.reaches_lt inside member.1)
      (Nat.not_lt_of_le large)
  have nodeOf : ∀ q, q ∉ after.openNodes p →
      (after.unmark (after.openNodes p)).nodes q = after.nodes q := by
    intro q outside
    simp [TypeGraph.unmark, outside]
  rcases copied.copies with ⟨t, denotes, seconds, copy⟩
  constructor
  · exact TypeGraph.unmark_wellFormed marked.wellFormed isVariable
  · intro v below variable_
    by_cases member : v ∈ after.openNodes p
    · simp [TypeGraph.unmark, member]
    · rw [nodeOf v member] at variable_ ⊢
      exact unmarked v below member variable_
  · exact marked.allocates.trans unmarks
  · exact copied.inside
  · rintro q ⟨type, first⟩
    have same := TypeGraph.unmark_same isVariable r
    exact copied.pruned q ⟨same.1.symm.trans type, same.2.1.symm.trans first⟩
  · intro q large small variable_
    rw [nodeOf q (new q large)] at variable_ ⊢
    exact marked.new q large small variable_
  · intro q s large small link
    rw [TypeGraph.unmark_link isVariable] at link
    exact marked.ordered q s large small link
  · have renames := marked.renames wellFormed clean inside denotes seconds
    refine ⟨t, after.markOf, denotes, ⟨renames.kept, ?_, renames.injective⟩,
      unmarks.denotes marked.wellFormed copied.inside copy⟩
    intro v member moves
    rcases renames.new v member moves with ⟨large, small, image⟩
    refine ⟨large, small, ?_⟩
    rw [nodeOf _ (new _ large), image]

theorem makeGenericTypeExp_spec {base : TypeGraph}
    (wellFormed : base.WellFormed) (clean : base.Clean)
    {nonGenerics : List TypePointer}
    (within : ∀ n ∈ nonGenerics, n < base.size) (fuel : Nat)
    {p : TypePointer} (inside : p < base.size) :
    wpExcept (fun _ => True) (makeGenericTypeExp fuel p nonGenerics)
      (Copies .generalize (base.ReachedFrom nonGenerics) base p) base := by
  rw [makeGenericTypeExp, makeGenericTypeExpImpl_eq, wpExcept_bind]
  apply wpExcept_mono
    (copyTypeExp_spec wellFormed clean nofun
      (genericReplacement_spec wellFormed within) fuel p
      (.start .generalize _ wellFormed clean) inside) ?_ fun _ _ => trivial
  intro r after copied
  have later := Nat.lt_of_lt_of_le inside copied.marked.allocates.size
  rw [wpExcept_bind]
  apply wpExcept_mono
    (cleanupTypeVariables_spec copied.marked.wellFormed fuel p later) ?_
    fun _ _ => trivial
  rintro - cleaned rfl
  exact copied.cleanup wellFormed clean inside

theorem makeFreshTypeExp_spec {base : TypeGraph}
    (wellFormed : base.WellFormed) (clean : base.Clean) (fuel : Nat)
    {p : TypePointer} (inside : p < base.size) :
    wpExcept (StarvedWalk base fuel p) (makeFreshTypeExp fuel p)
      (Copies .freshen (fun _ => False) base p) base := by
  rw [makeFreshTypeExp, makeFreshTypeExpCopy_eq, wpExcept_bind]
  apply wpExcept_mono
    (copyTypeExp_spec wellFormed clean (fun _ _ => id)
      (fun marked fuel _ => freshReplacement_spec marked fuel) fuel p
      (.start .freshen _ wellFormed clean) inside)
  · intro r after copied
    have later := Nat.lt_of_lt_of_le inside copied.marked.allocates.size
    rw [wpExcept_bind]
    apply wpExcept_mono
      (cleanupTypeVariables_spec copied.marked.wellFormed fuel p later)
    · rintro - cleaned rfl
      exact copied.cleanup wellFormed clean inside
    · rintro stop ⟨isFuel, least⟩
      exact ⟨isFuel, fun rank ranks =>
        least rank (copied.marked.allocates.ranksFrom wellFormed inside ranks)⟩
  · rintro stop (starved | ⟨-, -, never⟩)
    · exact starved
    · exact never.elim

end Millie.Types
