import Millie.Types.Completion
import Millie.Types.Invariants
import Millie.Types.Solving

/-!
# Most general unifiers

With enough fuel `_Unify` returns exactly if there are names for the variables
of its two types wherever they fail to unify.  Then it reports an error exactly
if the types have no unifier, and else it has applied a most general one.
-/

namespace Millie.Types

open Relation Links Unification Weakest
open Millie.Syntax

/-! ## Acyclic graphs -/

section

variable {graph middle after : TypeGraph} {p q : TypePointer} {t : Ty Leaf}
  {moments : List TypeGraph}

theorem TypeGraph.Acyclic.ranked (acyclic : graph.Acyclic)
    (wellFormed : graph.WellFormed) : graph.Ranked := by
  have path : ∀ {p q}, TransGen
      (fun p q => p < graph.size ∧ graph.Link p q) p q →
      p < graph.size ∧ q < graph.size ∧ TransGen graph.Link p q := by
    intro p q path
    induction path with
    | single link =>
        exact ⟨link.1, wellFormed.link_lt link.1 link.2, .single link.2⟩
    | tail _ link ih =>
        exact ⟨ih.1, wellFormed.link_lt link.1 link.2, ih.2.2.tail link.2⟩
  refine ⟨_, Ranks.of_acyclic (fun p cycle => ?_) fun p => ?_⟩
  · exact acyclic p (path cycle).1 (path cycle).2.2
  · exact (Set.finite_lt_nat graph.size).subset fun q reached =>
      (path reached).2.1

theorem TypeGraph.Regular.acyclic (regular : graph.Regular) : graph.Acyclic :=
  fun _ inside => regular.ranked.acyclic regular.wellFormed inside

/-! ## Instances -/

/-- Nothing but the instances of unbound variables has changed. -/
def TypeGraph.Instantiates (graph after : TypeGraph) : Prop :=
  ∀ v, after.nodes v = graph.nodes v ∨
    graph.Unbound v ∧ ∃ b, after.nodes v = { graph.nodes v with first := some b }

theorem TypeGraph.Instantiates.trans (first : graph.Instantiates middle)
    (second : middle.Instantiates after) : graph.Instantiates after := by
  intro v
  rcases first v with same | ⟨unbound, b, instance_⟩
  · have later := second v
    rwa [TypeGraph.Unbound, same] at later
  · rcases second v with same | ⟨unbound', -⟩
    · rw [same]
      exact .inr ⟨unbound, b, instance_⟩
    · rw [TypeGraph.Unbound, instance_] at unbound'
      exact absurd unbound'.2 (Option.some_ne_none b)

theorem Unifies.instantiates (unifies : Unifies graph p q moments after) :
    graph.Instantiates after := by
  induction unifies with
  | prunes _ _ _ ih => exact ih
  | @binds graph p q a b oriented unbound noError pruned apart =>
      intro v
      by_cases same : v = a
      · subst same
        exact .inr ⟨unbound, b, TypeGraph.bind_node graph v b⟩
      · exact .inl (TypeGraph.bind_old graph b same)
  | both _ _ _ _ _ firstIh secondIh => exact firstIh.trans secondIh
  | final _ _ _ ih => exact ih
  | _ => exact fun _ => .inl rfl

/-! ## Plain types -/

/-- Kinds of nodes that no type of the claimed kind is built from. -/
def TypeExpType.Impure (kind : TypeExpType) : Prop :=
  kind = .error ∨ kind = .invalid ∨ kind = .genericVariable

theorem Denotes.plain (denotes : Denotes graph p t)
    (pure : Free TypeExpType.Impure graph p) : t.Plain := by
  intro a member
  rcases denotes.leaf_reached member with ⟨q, path, here⟩
  rcases here.leaf_type with ⟨r, onward, type⟩
  have pureHere := pure r (path.trans onward)
  rw [type] at pureHere
  cases a with
  | variable_ v => exact ⟨v, rfl⟩
  | generic v => exact absurd (.inr (.inr rfl)) pureHere
  | error => exact absurd (.inl rfl) pureHere

/-! ## What a unification computes -/

/-- A substitution for the unbound variables makes two types equal. -/
def TypeGraph.UnifiedBy (graph : TypeGraph) (p q : TypePointer)
    (θ : Leaf → Ty Leaf) : Prop :=
  ∃ s t, Denotes graph p s ∧ Denotes graph q t ∧ Unifier θ s t

/-- What a unification that reports nothing has done to the graph. -/
structure TypeGraph.MostGenerallyUnified (graph : TypeGraph)
    (p q : TypePointer) (after : TypeGraph) : Prop where
  same : ∃ t, Denotes after p t ∧ Denotes after q t
  mostGeneral : ∃ σ, MostGeneral σ (graph.UnifiedBy p q) ∧
    Resolves graph after σ
  instantiates : graph.Instantiates after
  acyclic : after.Acyclic

/--
With enough fuel `_Unify` returns.  It reports an error exactly if the types
have no unifier, and else it has unified them most generally.
-/
def ComputesUnifier (tokens : Tokens) (range : TokenRange)
    (errorCode : UnificationError) (p q : TypePointer) (state : CheckState) :
    Prop :=
  ∃ bound, ∀ fuel ≥ bound, ∃ after,
    unify tokens fuel range errorCode p q state = (.ok (), after) ∧
      (after.errors ≠ state.errors ↔ ¬∃ θ, state.graph.UnifiedBy p q θ) ∧
      (after.errors = state.errors →
        state.graph.MostGenerallyUnified p q after.graph)

/-- There are names for the variables of two types wherever they fail to unify. -/
def TypeGraph.FailuresNamed (graph : TypeGraph) (p q : TypePointer) : Prop :=
  ∀ moments after, Unifies graph p q moments after → NamesSuffice p q moments

theorem TypeGraph.unifiedBy_iff {s t : Ty Leaf} {θ : Leaf → Ty Leaf}
    (left : Denotes graph p s) (right : Denotes graph q t) :
    graph.UnifiedBy p q θ ↔ Unifier θ s t := by
  constructor
  · rintro ⟨s', t', left', right', unifier⟩
    rwa [left.unique left', right.unique right']
  · exact fun unifier => ⟨s, t, left, right, unifier⟩

/-- What a unification has done to a graph when it has reported nothing. -/
theorem Unifies.mostGenerallyUnified (unifies : Unifies graph p q [] after)
    (regular : graph.Regular) (insideP : p < graph.size)
    (insideQ : q < graph.size) (pureP : Free TypeExpType.Impure graph p)
    (pureQ : Free TypeExpType.Impure graph q) :
    graph.MostGenerallyUnified p q after := by
  rcases regular.ranked.denotes regular.wellFormed insideP with ⟨s, left⟩
  rcases regular.ranked.denotes regular.wellFormed insideQ with ⟨t, right⟩
  cases unifies.solved left right (left.plain pureP) (right.plain pureQ) with
  | none failed => exact absurd rfl failed
  | unifier σ mostGeneral resolves plainFor =>
      refine ⟨⟨s.bind σ, resolves p s left, ?_⟩,
        ⟨σ, mostGeneral.congr fun _ => TypeGraph.unifiedBy_iff left right,
          resolves⟩, unifies.instantiates,
        (unifies.regular regular insideP insideQ).acyclic⟩
      have solves : s.bind σ = t.bind σ := mostGeneral.solves
      rw [solves]
      exact resolves q t right

/-- A unification fails somewhere exactly if the types have no unifier. -/
theorem Unifies.failed_iff (unifies : Unifies graph p q moments after)
    (regular : graph.Regular) (insideP : p < graph.size)
    (insideQ : q < graph.size) (pureP : Free TypeExpType.Impure graph p)
    (pureQ : Free TypeExpType.Impure graph q) :
    moments ≠ [] ↔ ¬∃ θ, graph.UnifiedBy p q θ := by
  rcases regular.ranked.denotes regular.wellFormed insideP with ⟨s, left⟩
  rcases regular.ranked.denotes regular.wellFormed insideQ with ⟨t, right⟩
  cases unifies.solved left right (left.plain pureP) (right.plain pureQ) with
  | none failed noUnifier =>
      refine iff_of_true failed ?_
      rintro ⟨θ, unified⟩
      exact noUnifier θ ((TypeGraph.unifiedBy_iff left right).mp unified)
  | unifier σ mostGeneral resolves plainFor =>
      refine iff_of_false (fun failed => failed rfl) fun none => none ⟨σ, ?_⟩
      exact (TypeGraph.unifiedBy_iff left right).mpr mostGeneral.solves

/-- With enough fuel `_Unify` carries out a unification of its two types. -/
theorem Unifies.runs (tokens : Tokens) (range : TokenRange)
    {errorCode : UnificationError} {state : CheckState}
    (unifies : Unifies state.graph p q moments after)
    (regular : state.graph.Regular) (insideP : p < state.graph.size)
    (insideQ : q < state.graph.size)
    (condition : errorCode = .ifConditionBoolean → q = booleanTypeExp) :
    ∃ bound, ∀ fuel ≥ bound, wp (fun _ => ¬NamesSuffice p q moments)
      (unify tokens fuel range errorCode p q)
      (fun _ _ => NamesSuffice p q moments) state := by
  rcases unifies.carriesOut tokens regular insideP insideQ insideP insideQ with
    ⟨bound, carries⟩
  refine ⟨bound, fun fuel enough => ?_⟩
  have reporting : Reporting p q ⟨range, errorCode, p, q⟩ := ⟨rfl, rfl, condition⟩
  rw [unify, wp_bind, wp_record, wp_bind]
  refine wp_mono (carries fuel enough ?_ reporting) ?_ fun _ => id
  · rfl
  · rintro other final ⟨nameable, -⟩
    exact nameable

/-- A unification that returns had names for its failures. -/
theorem ComputesUnifier.failuresNamed {tokens : Tokens} {range : TokenRange}
    {errorCode : UnificationError} {state : CheckState}
    (computes : ComputesUnifier tokens range errorCode p q state)
    (regular : state.graph.Regular) (insideP : p < state.graph.size)
    (insideQ : q < state.graph.size)
    (condition : errorCode = .ifConditionBoolean → q = booleanTypeExp) :
    state.graph.FailuresNamed p q := by
  intro moments after unifies
  rcases computes with ⟨bound, computes⟩
  rcases unifies.runs tokens range regular insideP insideQ condition with
    ⟨bound', runs⟩
  rcases computes (max bound bound') (Nat.le_max_left _ _) with
    ⟨final, returns, -⟩
  have nameable := of_wp (runs _ (Nat.le_max_right _ _)) returns
  exact nameable

/-- Names for the variables of both types suffice for every failure. -/
theorem TypeGraph.Regular.failuresNamed (regular : graph.Regular)
    (insideP : p < graph.size) (insideQ : q < graph.size)
    (pureP : Free TypeExpType.Impure graph p)
    (pureQ : Free TypeExpType.Impure graph q)
    (few : (graph.openNodes p ∪ graph.openNodes q).ncard ≤
      typeNames.length) : graph.FailuresNamed p q := by
  intro moments after unifies moment member
  have within : ∀ n ∈ [p, q], n < graph.size := by
    intro n root
    rcases Unifies.mem_pair root with rfl | rfl <;> assumption
  have free : ∀ n ∈ [p, q], Free TypeExpType.Impure graph n := by
    intro n root
    rcases Unifies.mem_pair root with rfl | rfl <;> assumption
  have progress := unifies.progress_throughout regular.wellFormed regular.clean
    within free moment (List.mem_cons_of_mem _ member)
  have size := unifies.moment_size moment member
  have known : ∀ n ∈ [p, q],
      moment.openNodes n ⊆ graph.openNodes p ∪ graph.openNodes q := by
    rintro n root v ⟨path, isVariable, first⟩
    have type : (moment.nodes v).type = .variable_ :=
      isVariable.resolve_right fun generic =>
        progress.free n (.inr root) v path (.inr (.inr generic))
    have insideV : v < graph.size := size ▸ progress.wellFormed.reaches_lt
      (size.symm ▸ within n root) path
    have unbound := progress.grows.unbound_before insideV ⟨type, first⟩
    rcases progress.confined n (.inr root) v insideV unbound path with
      ⟨m, fromRoot, path'⟩
    have open_ : graph.Open v := ⟨.inl unbound.1, unbound.2⟩
    rcases Unifies.mem_pair fromRoot with rfl | rfl
    · exact .inl ⟨path', open_⟩
    · exact .inr ⟨path', open_⟩
  have finite := (regular.wellFormed.finite_openNodes insideP).union
    (regular.wellFormed.finite_openNodes insideQ)
  exact ⟨Nat.le_trans (Set.ncard_le_ncard (known p (by simp)) finite) few,
    Nat.le_trans (Set.ncard_le_ncard (known q (by simp)) finite) few⟩

end

/--
`_Unify` computes a most general unifier of two types, or reports that there is
none, exactly if it has names for their variables wherever they fail to unify.
-/
theorem unify_computesUnifier (tokens : Tokens) (range : TokenRange)
    (errorCode : UnificationError) {p q : TypePointer} {state : CheckState}
    (wellFormed : state.graph.WellFormed) (clean : state.graph.Clean)
    (acyclic : state.graph.Acyclic) (insideP : p < state.graph.size)
    (insideQ : q < state.graph.size)
    (pureP : Free TypeExpType.Impure state.graph p)
    (pureQ : Free TypeExpType.Impure state.graph q)
    (condition : errorCode = .ifConditionBoolean → q = booleanTypeExp) :
    ComputesUnifier tokens range errorCode p q state ↔
      state.graph.FailuresNamed p q := by
  have regular : state.graph.Regular :=
    ⟨wellFormed, clean, acyclic.ranked wellFormed⟩
  constructor
  · exact fun computes => computes.failuresNamed regular insideP insideQ condition
  · intro named
    rcases unifies_total regular insideP insideQ with ⟨moments, after, unifies⟩
    have suffices_ := named moments after unifies
    rcases unifies.runs tokens range regular insideP insideQ condition with
      ⟨bound, runs⟩
    refine ⟨bound, fun fuel enough => ?_⟩
    rcases returns_of_wp (runs fuel enough) fun _ none => none suffices_ with
      ⟨⟨⟩, final, returns, -⟩
    rcases of_wp (unify_spec fuel wellFormed clean insideP insideQ) returns with
      ⟨shown, reports, unifies', errors, lengths, -⟩
    have quiet : final.errors = state.errors ↔ shown = [] := by
      rw [errors, List.append_right_eq_self, ← List.length_eq_zero_iff, lengths,
        List.length_eq_zero_iff]
    refine ⟨final, returns, ?_, fun same => ?_⟩
    · rw [← unifies'.failed_iff regular insideP insideQ pureP pureQ]
      exact not_congr quiet
    · rw [quiet.mp same] at unifies'
      exact unifies'.mostGenerallyUnified regular insideP insideQ pureP pureQ

/-! ## Types of expressions -/

/-- The type of an expression may be unified. -/
theorem getExpressionType_pure {tokens : Tokens} {fuel : Nat}
    {expression : Expression} {type : TypePointer} {after : CheckState}
    (returns : getExpressionType tokens fuel expression = (.ok type, after))
    (quiet : after.errors = []) (untangled : ∀ e ∈ after.log, e.Untangled) :
    after.graph.Regular ∧ type < after.graph.size ∧
      Free TypeExpType.Impure after.graph type := by
  have advances :=
    of_wp (analyze_advances tokens fuel expression ready_static) returns
  have wellFormed := advances.progress.wellFormed
  have inside : type < after.graph.size := advances.inside (.inl List.mem_cons_self)
  refine ⟨⟨wellFormed, advances.progress.clean,
    advances.holds.ranked untangled⟩, inside, ?_⟩
  intro q path impure
  have unwanted := advances.progress.free type (.inl List.mem_cons_self) q path
  rcases impure with isError | isInvalid | isGeneric
  · exact unwanted (.inr ⟨quiet, isError⟩)
  · have shaped := wellFormed.shaped q (wellFormed.reaches_lt inside path)
    generalize after.graph.nodes q = exp at shaped isInvalid
    cases shaped <;> cases isInvalid
  · exact unwanted (.inl isGeneric)

/-- The Boolean type has no links. -/
theorem TypeGraph.WellFormed.pure_boolean {graph : TypeGraph}
    (wellFormed : graph.WellFormed) :
    Free TypeExpType.Impure graph booleanTypeExp := by
  intro q path
  have terminal : ∀ r, ¬graph.Link booleanTypeExp r := by
    simp [TypeGraph.Link, wellFormed.boolean]
  rw [reaches_of_terminal terminal path, wellFormed.boolean]
  simp [TypeExpType.Impure]

/-- `fn a => … fn a => 1` with some parameters. -/
def constantFunction : Nat → Expression
  | 0 => .integerConstant ⟨0, 0⟩ 1
  | parameters + 1 => .lambda ⟨0, 0⟩ 1 (constantFunction parameters)

/-- After type checking a function with some parameters. -/
def checkedFunction (parameters : Nat) : CheckState :=
  (getExpressionType noTokens 60 (constantFunction parameters)).2

theorem checkedFunction_pure (parameters : Nat) (type : TypePointer)
    (returns : (getExpressionType noTokens 60
      (constantFunction parameters)).1.toOption = some type)
    (quiet : (checkedFunction parameters).errors.isEmpty = true)
    (bound : (checkedFunction parameters).log.all CheckEvent.bound = true) :
    (checkedFunction parameters).graph.Regular ∧
      type < (checkedFunction parameters).graph.size ∧
      Free TypeExpType.Impure (checkedFunction parameters).graph type := by
  rw [checkedFunction] at quiet bound ⊢
  rcases run : getExpressionType noTokens 60 (constantFunction parameters) with
    ⟨result, after⟩
  rw [run] at returns quiet bound
  cases result with
  | error stop => cases returns
  | ok value =>
      cases returns
      rw [List.all_eq_true] at bound
      exact getExpressionType_pure run (List.isEmpty_iff.mp quiet)
        fun e member => CheckEvent.untangled_of_bound (bound e member)

/-- A function with two parameters as the condition of an if. -/
theorem unify_computesUnifier_condition :
    ComputesUnifier noTokens ⟨0, 0⟩ .ifConditionBoolean 6 booleanTypeExp
      (checkedFunction 2) := by
  rcases checkedFunction_pure 2 6 (by decide +kernel) (by decide +kernel)
    (by decide +kernel) with ⟨regular, inside, pure⟩
  have size : (checkedFunction 2).graph.size = 7 := by decide +kernel
  have insideBoolean : booleanTypeExp < (checkedFunction 2).graph.size := by
    rw [size]
    decide
  have pureBoolean := regular.wellFormed.pure_boolean
  apply (unify_computesUnifier noTokens ⟨0, 0⟩ .ifConditionBoolean
    regular.wellFormed regular.clean regular.acyclic inside insideBoolean pure
    pureBoolean fun _ => rfl).mpr
  apply regular.failuresNamed inside insideBoolean pure pureBoolean
  have nodes : (checkedFunction 2).graph.openNodes 6 ∪
      (checkedFunction 2).graph.openNodes booleanTypeExp ⊆
        Finset.range 7 := by
    rintro v (⟨path, -⟩ | ⟨path, -⟩)
    · exact Finset.mem_coe.mpr (Finset.mem_range.mpr
        (size ▸ regular.wellFormed.reaches_lt inside path))
    · exact Finset.mem_coe.mpr (Finset.mem_range.mpr
        (size ▸ regular.wellFormed.reaches_lt insideBoolean path))
  calc _ ≤ (Finset.range 7 : Set TypePointer).ncard :=
        Set.ncard_le_ncard nodes (Finset.finite_toSet _)
    _ = 7 := by rw [Set.ncard_coe_finset, Finset.card_range]
    _ ≤ typeNames.length := by decide

/-- A type with more variables than there are names cannot be reported. -/
theorem TypeGraph.Regular.not_nameable {graph : TypeGraph} {p : TypePointer}
    (regular : graph.Regular) (inside : p < graph.size) {fuel : Nat}
    (stops : (formatTypeExpression fuel p graph).map Prod.fst =
      .error .undefinedBehaviour) : ¬graph.Nameable p := by
  have spec := formatTypeExpression_spec regular.wellFormed regular.clean fuel
    inside
  unfold wpExcept at spec
  cases run : formatTypeExpression fuel p graph with
  | ok result =>
      rw [run] at stops
      cases stops
  | error reason =>
      rw [run] at stops spec
      cases stops
      rcases spec with ⟨-, few⟩ | ⟨isFuel, -⟩
      · rw [Set.empty_union] at few
        exact Nat.not_le_of_lt few
      · cases isFuel

/-- A function with nineteen parameters as the condition of an if. -/
theorem unify_undefined :
    ((checkedFunction 19).graph.WellFormed ∧
        (checkedFunction 19).graph.Clean ∧
        (checkedFunction 19).graph.Acyclic ∧
        40 < (checkedFunction 19).graph.size ∧
        booleanTypeExp < (checkedFunction 19).graph.size ∧
        Free TypeExpType.Impure (checkedFunction 19).graph 40 ∧
        Free TypeExpType.Impure (checkedFunction 19).graph booleanTypeExp) ∧
      ¬ComputesUnifier noTokens ⟨0, 0⟩ .ifConditionBoolean 40 booleanTypeExp
        (checkedFunction 19) := by
  rcases checkedFunction_pure 19 40 (by decide +kernel) (by decide +kernel)
    (by decide +kernel) with ⟨regular, inside, pure⟩
  have insideBoolean : booleanTypeExp < (checkedFunction 19).graph.size :=
    Nat.lt_trans (by decide) inside
  have kind : ((checkedFunction 19).graph.nodes 40).type = .func := by
    decide +kernel
  have kind' : ((checkedFunction 19).graph.nodes booleanTypeExp).type = .bool := by
    rw [regular.wellFormed.boolean]
  have stops : (formatTypeExpression 60 40 (checkedFunction 19).graph).map
      Prod.fst = .error .undefinedBehaviour := by
    decide +kernel
  refine ⟨⟨regular.wellFormed, regular.clean, regular.acyclic, inside,
    insideBoolean, pure, regular.wellFormed.pure_boolean⟩, fun computes => ?_⟩
  have clash : Unifies (checkedFunction 19).graph 40 booleanTypeExp
      [(checkedFunction 19).graph] (checkedFunction 19).graph := by
    apply Unifies.clash <;> simp [kind, kind']
  have named := computes.failuresNamed regular inside insideBoolean
    (fun _ => rfl) _ _ clash _ (List.mem_singleton_self _)
  exact regular.not_nameable inside stops named.1

end Millie.Types
