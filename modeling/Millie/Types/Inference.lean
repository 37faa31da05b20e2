import Millie.Types.Typing

/-!
# Derivations in a graph

The environment of the checker stands for assumptions and its types for terms.
Whatever is unified later substitutes in the assumptions, in the terms and so in
the derivations.
-/

namespace Millie.Types

open Relation Links Weakest
open Millie.Symbols Millie.Syntax

/-! ## Terms in later graphs -/

open Classical in
/-- The plain term that a type stands for, if there is one. -/
noncomputable def TypeGraph.term (graph : TypeGraph) (p : TypePointer) :
    Ty Leaf :=
  if known : ∃ t, Denotes graph p t ∧ t.Plain then known.choose
  else .leaf (.variable_ p)

/-- The variables of a term stand for plain terms. -/
def Settled (graph : TypeGraph) (t : Ty Leaf) : Prop :=
  ∀ v, Leaf.variable_ v ∈ t.leaves → ∃ u, Denotes graph v u ∧ u.Plain

section

variable {graph before after : TypeGraph} {p : TypePointer} {t : Ty Leaf}

theorem plainFor_term (graph : TypeGraph) :
    PlainFor (Leaf.under graph.term) := by
  intro v
  rw [Leaf.under, TypeGraph.term]
  split
  · rename_i known
    exact known.choose_spec.2
  · exact .variable_ v

theorem Settled.denotes_term (settled : Settled graph t) {v : TypePointer}
    (member : Leaf.variable_ v ∈ t.leaves) :
    Denotes graph v (graph.term v) := by
  have known := settled v member
  rw [TypeGraph.term, dif_pos known]
  exact known.choose_spec.1

/-- What is no unbound variable stays as it is. -/
theorem Extends.node_eq (later : Extends before after)
    (inside : p < before.size) (closed : ¬before.Unbound p) :
    after.nodes p = before.nodes p := by
  rcases later.nodes p inside with same | ⟨unbound, -⟩
  · exact same
  · exact absurd unbound closed

theorem Extends.added {contents : TypeExp}
    (later : Extends (graph.add contents) after)
    (noVariable : contents.type ≠ .variable_) :
    after.nodes graph.size = contents := by
  have node := TypeGraph.add_node graph contents
  rw [← node]
  apply later.node_eq (by simp)
  intro unbound
  rw [TypeGraph.Unbound, node] at unbound
  exact noVariable unbound.1

/-- A settled term is substituted in a later graph. -/
theorem Extends.settled (later : Extends before after)
    (wellFormed : before.WellFormed) (inside : p < before.size)
    (denotes : Denotes before p t) (settled : Settled after t) :
    Denotes after p (t.bind (Leaf.under after.term)) :=
  later.denotes wellFormed inside denotes fun _ member =>
    settled.denotes_term member

/-- A type that reaches nothing unwanted stands for a plain term. -/
theorem Denotes.plain_of_free (denotes : Denotes graph p t)
    (free : Free (Unwanted ([] : List ErrorReport)) graph p) : t.Plain := by
  intro a member
  have good := (denotes.free_iff Unwanted.leafy).mp free a member
  cases a with
  | variable_ v => exact ⟨v, rfl⟩
  | generic g => exact absurd (.inl rfl) good
  | error => exact absurd (.inr ⟨rfl, rfl⟩) good

/-- What a type that is free later reaches is settled then. -/
theorem Extends.settled_of_free (later : Extends before after)
    (wellFormed : before.WellFormed) (ranked : after.Ranked)
    (inside : p < before.size)
    (free : Free (Unwanted ([] : List ErrorReport)) after p)
    {v : TypePointer} (path : before.Reaches p v) :
    ∃ u, Denotes after v u ∧ u.Plain := by
  have path' := later.grows.reaches wellFormed inside path
  have below := later.wellFormed.reaches_lt
    (Nat.lt_of_lt_of_le inside later.size) path'
  rcases ranked.denotes later.wellFormed below with ⟨u, denotes⟩
  exact ⟨u, denotes, denotes.plain_of_free fun q further =>
    free q (path'.trans further)⟩

end

/-! ## Environments -/

/-- The assumptions that an environment stands for. -/
def Scopes (graph : TypeGraph) (env : TypeEnvironment)
    (assumptions : Assumptions) : Prop :=
  List.Forall₂ (fun entry assumption => entry.1 = assumption.1 ∧
    Denotes graph entry.2 assumption.2) env assumptions

namespace Scopes

variable {graph before after : TypeGraph} {env : TypeEnvironment}
  {assumptions others : Assumptions}

theorem unique (scopes : Scopes graph env assumptions)
    (scopes' : Scopes graph env others) : assumptions = others := by
  induction scopes generalizing others with
  | nil =>
      cases scopes'
      rfl
  | @cons entry assumption _ _ here _ ih =>
      cases scopes' with
      | @cons _ other _ _ here' rest' =>
          have same : assumption = other :=
            Prod.ext (here.1.symm.trans here'.1) (here.2.unique here'.2)
          rw [same, ih rest']

/-- The environment of a ranked graph stands for assumptions. -/
theorem exists_of_ranked (ranked : graph.Ranked)
    (wellFormed : graph.WellFormed)
    (inside : ∀ entry ∈ env, entry.2 < graph.size) :
    ∃ assumptions, Scopes graph env assumptions := by
  induction env with
  | nil => exact ⟨[], .nil⟩
  | cons entry env ih =>
      rcases ih fun entry member => inside entry (List.mem_cons_of_mem _ member)
        with ⟨assumptions, rest⟩
      rcases ranked.denotes wellFormed (inside entry List.mem_cons_self) with
        ⟨t, denotes⟩
      exact ⟨(entry.1, t) :: assumptions, .cons ⟨rfl, denotes⟩ rest⟩

theorem lookup (scopes : Scopes graph env assumptions) {id : Symbol}
    {p : TypePointer} (found : env.lookup id = some p) :
    ∃ scheme, assumptions.lookup id = some scheme ∧
      Denotes graph p scheme := by
  induction scopes with
  | nil => cases found
  | @cons entry assumption env assumptions here rest ih =>
      rw [List.lookup_cons] at found ⊢
      rw [← here.1]
      split at found
      · cases found
        exact ⟨_, rfl, here.2⟩
      · exact ih found

/-- The free variables of the assumptions are those the environment reaches. -/
theorem mentions_iff (scopes : Scopes graph env assumptions)
    {v : TypePointer} :
    assumptions.Mentions v ↔
      ∃ entry ∈ env, graph.Reaches entry.2 v ∧ graph.Unbound v := by
  unfold Assumptions.Mentions
  induction scopes with
  | nil => simp
  | cons here rest ih =>
      rw [List.exists_mem_cons_iff, List.exists_mem_cons_iff, ih,
        here.2.mem_variables]

/-- The entries of the environment keep their terms. -/
theorem mono (scopes : Scopes before env assumptions)
    (kept : ∀ entry ∈ env, ∀ t, Denotes before entry.2 t →
      Denotes after entry.2 t) : Scopes after env assumptions := by
  induction scopes with
  | nil => exact .nil
  | cons here rest ih =>
      exact .cons ⟨here.1, kept _ List.mem_cons_self _ here.2⟩
        (ih fun entry member => kept entry (List.mem_cons_of_mem _ member))

theorem allocates (scopes : Scopes before env assumptions)
    (allocates : before.Allocates after) (wellFormed : before.WellFormed)
    (inside : ∀ entry ∈ env, entry.2 < before.size) :
    Scopes after env assumptions :=
  scopes.mono fun entry member _ denotes =>
    allocates.denotes wellFormed (inside entry member) denotes

/-- Later graphs substitute in the assumptions. -/
theorem later (scopes : Scopes before env assumptions)
    (later : Extends before after) (wellFormed : before.WellFormed)
    (inside : ∀ entry ∈ env, entry.2 < before.size)
    (settled : ∀ entry ∈ env, ∀ v, before.Unbound v →
      before.Reaches entry.2 v → ∃ u, Denotes after v u ∧ u.Plain) :
    Scopes after env (assumptions.subst after.term) := by
  induction scopes with
  | nil => exact .nil
  | @cons entry assumption env assumptions here rest ih =>
      refine .cons ⟨here.1, ?_⟩ (ih
        (fun entry member => inside entry (List.mem_cons_of_mem _ member))
        fun entry member => settled entry (List.mem_cons_of_mem _ member))
      apply later.settled wellFormed (inside _ List.mem_cons_self) here.2
      intro v member
      rcases here.2.mem_variables.mp member with ⟨path, unbound⟩
      exact settled _ List.mem_cons_self v unbound path

end Scopes

/-! ## Derivations in a graph -/

/-- A type of the graph is the type of a derivation in the environment. -/
def Infers (graph : TypeGraph) (env : TypeEnvironment)
    (expression : Expression) (type : TypePointer) : Prop :=
  ∃ assumptions t, Scopes graph env assumptions ∧ Denotes graph type t ∧
    Typing assumptions expression t

/-- No entangled variable was rebound. -/
def CheckState.Untangled (state : CheckState) : Prop :=
  ∀ event ∈ state.log, event.Untangled

/-- The analysis may start here and infer types. -/
structure Prepared (state : CheckState) (env : TypeEnvironment)
    (nonGenerics : NonGenericTypeList) : Prop where
  ready : Ready state env nonGenerics
  rooted : ∀ n ∈ nonGenerics, ∃ entry ∈ env, entry.2 = n
  untangled : state.errors = [] → state.Untangled

/-- What the analysis of an expression has established. -/
structure Concluded (env : TypeEnvironment) (nonGenerics : NonGenericTypeList)
    (expression : Expression) (before : CheckState) (type : TypePointer)
    (after : CheckState) : Prop where
  advances : Advances nonGenerics before after [type]
  untangled : after.errors = [] → after.Untangled
  infers : after.errors = [] → Infers after.graph env expression type

section

variable {roots live nonGenerics : List TypePointer}
  {before state middle after : CheckState} {env : TypeEnvironment}
  {expression : Expression} {p q : TypePointer}

theorem Advances.quiet (advances : Advances roots before after live)
    (quiet : after.errors = []) : before.errors = [] :=
  List.prefix_nil.mp (quiet ▸ advances.errors)

theorem Advances.extends (advances : Advances roots before after live) :
    Extends before.graph after.graph :=
  .of_progress advances.progress

theorem Advances.freely (advances : Advances roots before after live)
    (quiet : after.errors = []) (known : p ∈ live ∨ p ∈ roots) :
    Free (Unwanted ([] : List ErrorReport)) after.graph p := by
  have free := advances.progress.free p known
  rwa [quiet] at free

theorem Prepared.advance (prepared : Prepared state env nonGenerics)
    {live : List TypePointer}
    (advances : Advances nonGenerics state after live)
    (untangled : after.errors = [] → after.Untangled) :
    Prepared after env nonGenerics :=
  ⟨prepared.ready.advance advances, prepared.rooted, untangled⟩

theorem Prepared.rooted_cons (prepared : Prepared state env nonGenerics)
    (binding : Symbol × TypePointer) :
    ∀ n ∈ nonGenerics, ∃ entry ∈ binding :: env, entry.2 = n := by
  intro n isRoot
  rcases prepared.rooted n isRoot with ⟨entry, member, same⟩
  exact ⟨entry, List.mem_cons_of_mem _ member, same⟩

theorem Prepared.ranked (prepared : Prepared state env nonGenerics)
    (quiet : state.errors = []) : state.graph.Ranked :=
  prepared.ready.holds.ranked (prepared.untangled quiet)

/-- What the environment reaches is settled in a later graph. -/
theorem Ready.settled (ready : Ready middle env nonGenerics)
    (extends_ : Extends middle.graph after.graph) (ranked : after.graph.Ranked)
    (free : ∀ n ∈ nonGenerics,
      Free (Unwanted ([] : List ErrorReport)) after.graph n) :
    ∀ entry ∈ env, ∀ v, middle.graph.Unbound v →
      middle.graph.Reaches entry.2 v →
        ∃ u, Denotes after.graph v u ∧ u.Plain := by
  intro entry member v unbound path
  rcases ready.covered entry member v unbound path with ⟨n, isRoot, route⟩
  exact extends_.settled_of_free ready.wellFormed ranked
    (ready.within n isRoot) (free n isRoot) route

theorem Advances.extends_add (sofar : Advances roots before state live)
    {contents : TypeExp} {fresh : List TypePointer}
    (added : Advances roots before
      { state with graph := state.graph.add contents } fresh) :
    Extends state.graph (state.graph.add contents) :=
  .of_allocates (TypeGraph.add_allocates _ _) sofar.progress.clean
    added.progress.wellFormed added.progress.clean

/-- The derivation is one for the assumptions and the term of the type. -/
theorem Infers.typing {graph : TypeGraph}
    (infers : Infers graph env expression p) {assumptions : Assumptions}
    (scopes : Scopes graph env assumptions) {t : Ty Leaf}
    (denotes : Denotes graph p t) : Typing assumptions expression t := by
  rcases infers with ⟨assumptions', t', scopes', denotes', typing⟩
  rw [scopes.unique scopes', denotes.unique denotes']
  exact typing

/-- The assumptions carry over to a later graph. -/
theorem Ready.carry (ready : Ready middle env nonGenerics)
    {live : List TypePointer}
    (advances : Advances nonGenerics middle after live)
    (quiet : after.errors = []) (untangled : after.Untangled)
    {assumptions : Assumptions}
    (scopes : Scopes middle.graph env assumptions) :
    Scopes after.graph env (assumptions.subst after.graph.term) :=
  scopes.later advances.extends ready.wellFormed ready.inside
    (ready.settled advances.extends (advances.holds.ranked untangled)
      fun _ isRoot => advances.freely quiet (.inr isRoot))

/-- A derivation carries over to a later graph. -/
theorem Infers.later (infers : Infers middle.graph env expression p)
    (ready : Ready middle env nonGenerics) (inside : p < middle.graph.size)
    (whole : Advances nonGenerics state after live) (isLive : p ∈ live)
    (extends_ : Extends middle.graph after.graph) (quiet : after.errors = [])
    (ranked : after.graph.Ranked) : Infers after.graph env expression p := by
  rcases infers with ⟨assumptions, t, scopes, denotes, typing⟩
  refine ⟨assumptions.subst after.graph.term,
    t.bind (Leaf.under after.graph.term), ?_, ?_,
    typing.subst (plainFor_term _)⟩
  · exact scopes.later extends_ ready.wellFormed ready.inside
      (ready.settled extends_ ranked fun n isRoot =>
        whole.freely quiet (.inr isRoot))
  · apply extends_.settled ready.wellFormed inside denotes
    intro v member
    exact extends_.settled_of_free ready.wellFormed ranked inside
      (whole.freely quiet (.inl isLive)) (denotes.mem_variables.mp member).1

/-- A unification that reports nothing makes its types the same. -/
theorem unify_concludes {tokens : Tokens} (fuel : Nat) {range : TokenRange}
    {errorCode : UnificationError} (sofar : Advances roots before state live)
    (untangled : state.errors = [] → state.Untangled)
    (knownP : p ∈ live ∨ p ∈ roots) (knownQ : q ∈ live ∨ q ∈ roots) :
    wp (fun _ => True) (unify tokens fuel range errorCode p q)
      (fun _ after => Advances roots before after live ∧
        Extends state.graph after.graph ∧
        state.errors <+: after.errors ∧
        (after.errors = [] → after.Untangled ∧
          ∃ t, Denotes after.graph p t ∧ Denotes after.graph q t)) state := by
  have wellFormed := sofar.progress.wellFormed
  have clean := sofar.progress.clean
  have insideP := sofar.inside knownP
  have insideQ := sofar.inside knownQ
  apply wp_mono (wp_and (unify_advances fuel sofar knownP knownQ)
    (unify_spec fuel wellFormed clean insideP insideQ)) ?_ fun _ _ => trivial
  rintro - after ⟨advances, moments, reports, unifies, errors, lengths, log⟩
  have within : ∀ n ∈ [p, q], n < state.graph.size := by
    intro n member
    rcases Unifies.mem_pair member with rfl | rfl <;> assumption
  have progress : Progress (fun _ => False) [p, q] state.graph after.graph [] :=
    unifies.progress wellFormed clean within fun _ _ _ _ => id
  refine ⟨advances, .of_progress progress, errors ▸ List.prefix_append _ _,
    fun quiet => ?_⟩
  rw [errors] at quiet
  rcases List.append_eq_nil_iff.mp quiet with ⟨noErrors, noReports⟩
  rw [noReports, List.length_nil] at lengths
  rw [List.eq_nil_of_length_eq_zero lengths.symm] at unifies
  have untangled' := untangled noErrors
  constructor
  · intro event member
    rw [log] at member
    rcases List.mem_append.mp member with old | new
    · exact untangled' event old
    · simp only [List.mem_cons, List.not_mem_nil, or_false] at new
      rcases new with rfl | rfl
      · exact trivial
      · exact trivial
  · have ranked := sofar.holds.ranked untangled'
    rcases ranked.denotes wellFormed insideP with ⟨s, left⟩
    rcases ranked.denotes wellFormed insideQ with ⟨t, right⟩
    have plainS := left.plain_of_free (sofar.freely noErrors knownP)
    have plainT := right.plain_of_free (sofar.freely noErrors knownQ)
    cases unifies.solved left right plainS plainT with
    | unifier σ mostGeneral resolves plainFor =>
        refine ⟨s.bind σ, resolves _ _ left, ?_⟩
        have same : s.bind σ = t.bind σ := mostGeneral.solves
        rw [same]
        exact resolves _ _ right
    | none failed => exact absurd rfl failed

end

/-! ## Generalisation -/

section

variable {state : CheckState} {env : TypeEnvironment}
  {nonGenerics : NonGenericTypeList} {assumptions : Assumptions}

/-- The non-generic types reach the free variables of the environment. -/
theorem Prepared.mentions_iff (prepared : Prepared state env nonGenerics)
    (scopes : Scopes state.graph env assumptions) {v : TypePointer} :
    assumptions.Mentions v ↔
      state.graph.Unbound v ∧ state.graph.ReachedFrom nonGenerics v := by
  rw [scopes.mentions_iff]
  constructor
  · rintro ⟨entry, member, path, unbound⟩
    exact ⟨unbound, prepared.ready.covered entry member v unbound path⟩
  · rintro ⟨unbound, n, isRoot, path⟩
    rcases prepared.rooted n isRoot with ⟨entry, member, rfl⟩
    exact ⟨entry, member, path, unbound⟩

/-- Making a type generic binds the variables that are not free. -/
theorem Prepared.generalises (prepared : Prepared state env nonGenerics)
    (scopes : Scopes state.graph env assumptions) {p r : TypePointer}
    (inside : p < state.graph.size) {graph : TypeGraph}
    (copies : Copies .generalize (state.graph.ReachedFrom nonGenerics)
      state.graph p r graph) {t : Ty Leaf} (denotes : Denotes state.graph p t)
    (plain : t.Plain) :
    ∃ scheme, Denotes graph r scheme ∧ Generalises assumptions t scheme := by
  rcases copies.copies with ⟨t', image, denotes', renames, copy⟩
  cases denotes'.unique denotes
  have kept_iff : ∀ v, Leaf.variable_ v ∈ t.leaves →
      (image v = v ↔ assumptions.Mentions v) := by
    intro v member
    rw [prepared.mentions_iff scopes]
    rcases denotes.mem_variables.mp member with ⟨path, unbound⟩
    by_cases keeps : state.graph.ReachedFrom nonGenerics v
    · exact iff_of_true (renames.kept v member keeps) ⟨unbound, keeps⟩
    · refine iff_of_false (fun same => ?_) fun mentions => keeps mentions.2
      have new := (renames.new v member keeps).1
      rw [same] at new
      exact Nat.not_lt_of_le new
        (prepared.ready.wellFormed.reaches_lt inside path)
  have moves : ∀ v, Leaf.variable_ v ∈ t.leaves → ¬assumptions.Mentions v →
      ¬state.graph.ReachedFrom nonGenerics v := fun v member free keeps =>
    free ((kept_iff v member).mp (renames.kept v member keeps))
  refine ⟨_, copy, image, ?_, ?_⟩
  · intro v w inV inW freeV freeW same
    exact renames.injective v w inV inW (moves v inV freeV) (moves w inW freeW)
      same
  · apply Ty.bind_congr
    intro a member
    rcases plain a member with ⟨v, rfl⟩
    rw [Assumptions.close, Walk.rename]
    by_cases mentions : assumptions.Mentions v
    · rw [if_pos mentions, if_pos ((kept_iff v member).mpr mentions)]
    · rw [if_neg mentions, if_neg (mt (kept_iff v member).mp mentions)]

end

end Millie.Types
