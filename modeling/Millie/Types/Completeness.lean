import Millie.Types.Generality
import Millie.Types.Invariants
import Millie.Types.Soundness

/-!
# Completeness of the analysis

`_Analyze` reports nothing about an expression that has a derivation, and the
type that it returns is the most general one.  Throughout the analysis some
substitution for the variables of the graph makes the environment stand for the
assumptions of the derivation.  Fresh variables extend it, and a unification
keeps it, because it solves the equation and absorbs the most general solution.
-/

namespace Millie.Types

open Relation Links Weakest
open Millie.Symbols Millie.Syntax

/-! ## What types stand for -/

/-- With a substitution for its variables a type stands for a term. -/
def Values (graph : TypeGraph) (σ : TypePointer → Ty Leaf) (p : TypePointer)
    (t : Ty Leaf) : Prop :=
  ∃ s, Denotes graph p s ∧ t = s.bind (Leaf.under σ)

/-- The types that were there stand for what they stood for. -/
structure Keeps (before after : TypeGraph) (σ τ : TypePointer → Ty Leaf) :
    Prop where
  size : before.size ≤ after.size
  values : ∀ {p t}, p < before.size → Values before σ p t → Values after τ p t

namespace Keeps

variable {before middle after : TypeGraph} {σ τ υ : TypePointer → Ty Leaf}

theorem trans (first : Keeps before middle σ τ)
    (second : Keeps middle after τ υ) : Keeps before after σ υ where
  size := Nat.le_trans first.size second.size
  values inside values :=
    second.values (Nat.lt_of_lt_of_le inside first.size)
      (first.values inside values)

/-- New types leave the old ones alone. -/
theorem of_allocates (allocates : before.Allocates after)
    (wellFormed : before.WellFormed) (same : ∀ v < before.size, τ v = σ v) :
    Keeps before after σ τ := by
  refine ⟨allocates.size, ?_⟩
  rintro p t inside ⟨s, denotes, rfl⟩
  refine ⟨s, allocates.denotes wellFormed inside denotes, ?_⟩
  apply Ty.bind_congr
  intro a member
  cases a with
  | variable_ v =>
      exact (same v (wellFormed.reaches_lt inside
        (denotes.mem_variables.mp member).1)).symm
  | generic g | error => rfl

theorem of_add (contents : TypeExp) (wellFormed : before.WellFormed) :
    Keeps before (before.add contents) σ σ :=
  .of_allocates (TypeGraph.add_allocates _ _) wellFormed fun _ _ => rfl

/-- Instances for variables that the substitution absorbs change nothing. -/
theorem of_resolves {μ : Leaf → Ty Leaf} (size : before.size ≤ after.size)
    (resolves : Resolves before after μ)
    (absorbs : ∀ a, Leaf.under σ a = (μ a).bind (Leaf.under σ)) :
    Keeps before after σ σ := by
  refine ⟨size, ?_⟩
  rintro p t - ⟨s, denotes, rfl⟩
  refine ⟨s.bind μ, resolves p s denotes, ?_⟩
  rw [Ty.bind_bind]
  exact Ty.bind_congr fun a _ => absorbs a

end Keeps

section

variable {graph : TypeGraph} {σ : TypePointer → Ty Leaf} {p a b : TypePointer}
  {s t : Ty Leaf}

theorem Values.int (wellFormed : graph.WellFormed) :
    Values graph σ integerTypeExp .int :=
  ⟨.int, .int wellFormed.integer, rfl⟩

theorem Values.bool (wellFormed : graph.WellFormed) :
    Values graph σ booleanTypeExp .bool :=
  ⟨.bool, .bool wellFormed.boolean, rfl⟩

/-- A new function or tuple of types that stand for something. -/
theorem Values.addBoth {kind : TypeExpType} {join : Ty Leaf → Ty Leaf → Ty Leaf}
    (joins : Joins kind join) (wellFormed : graph.WellFormed)
    (insideA : a < graph.size) (insideB : b < graph.size)
    (first : Values graph σ a s) (second : Values graph σ b t) :
    Values (graph.add ⟨kind, some a, .type b⟩) σ graph.size (join s t) := by
  have keeps : Keeps graph (graph.add ⟨kind, some a, .type b⟩) σ σ :=
    .of_add _ wellFormed
  rcases keeps.values insideA first with ⟨s', denotesA, rfl⟩
  rcases keeps.values insideB second with ⟨t', denotesB, rfl⟩
  exact ⟨join s' t', joins.denotes (TypeGraph.add_node _ _) denotesA denotesB,
    (joins.bind s' t' _).symm⟩

theorem Values.addFinal (wellFormed : graph.WellFormed)
    (inside : a < graph.size) (first : Values graph σ a s) :
    Values (graph.add ⟨.tupleFinal, some a, .null⟩) σ graph.size
      (.tupleFinal s) := by
  have keeps : Keeps graph (graph.add ⟨.tupleFinal, some a, .null⟩) σ σ :=
    .of_add _ wellFormed
  rcases keeps.values inside first with ⟨s', denotes, rfl⟩
  exact ⟨.tupleFinal s', .tupleFinal (TypeGraph.add_node _ _) denotes, rfl⟩

/-- A new variable stands for whatever is substituted for it. -/
theorem Values.addVariable :
    Values (graph.add ⟨.variable_, none, .null⟩)
      (Function.update σ graph.size t) graph.size t := by
  refine ⟨_, .unbound (TypeGraph.add_node _ _), ?_⟩
  rw [Ty.bind, Leaf.under, Function.update_self]

theorem Keeps.addVariable (wellFormed : graph.WellFormed) :
    Keeps graph (graph.add ⟨.variable_, none, .null⟩) σ
      (Function.update σ graph.size t) :=
  .of_allocates (TypeGraph.add_allocates _ _) wellFormed fun _ below =>
    Function.update_of_ne (Nat.ne_of_lt below) _ _

theorem plainFor_update (plainFor : PlainFor (Leaf.under σ)) (plain : t.Plain)
    (v : TypePointer) : PlainFor (Leaf.under (Function.update σ v t)) := by
  intro w
  rw [Leaf.under]
  by_cases same : w = v
  · rwa [same, Function.update_self]
  · rw [Function.update_of_ne same]
    exact plainFor w

end

/-! ## Environments -/

/-- With a substitution the environment stands for assumptions. -/
def Stands (graph : TypeGraph) (σ : TypePointer → Ty Leaf)
    (env : TypeEnvironment) (assumptions : Assumptions) : Prop :=
  List.Forall₂ (fun entry assumption => entry.1 = assumption.1 ∧
    Values graph σ entry.2 assumption.2) env assumptions

namespace Stands

variable {graph before after : TypeGraph} {σ τ : TypePointer → Ty Leaf}
  {env : TypeEnvironment} {assumptions : Assumptions}

theorem keeps (stands : Stands before σ env assumptions)
    (inside : ∀ entry ∈ env, entry.2 < before.size)
    (keeps : Keeps before after σ τ) :
    Stands after τ env assumptions := by
  induction stands with
  | nil => exact .nil
  | cons here rest ih =>
      exact .cons ⟨here.1, keeps.values (inside _ List.mem_cons_self) here.2⟩
        (ih fun entry member => inside entry (List.mem_cons_of_mem _ member))

theorem lookup (stands : Stands graph σ env assumptions) {id : Symbol}
    {scheme : Ty Leaf} (found : assumptions.lookup id = some scheme) :
    ∃ p, env.lookup id = some p ∧ Values graph σ p scheme := by
  induction stands with
  | nil => cases found
  | @cons entry assumption env assumptions here rest ih =>
      rw [List.lookup_cons] at found ⊢
      rw [here.1]
      split at found
      · cases found
        exact ⟨_, rfl, here.2⟩
      · exact ih found

/-- The assumptions are those of the graph with the substitution. -/
theorem scopes (stands : Stands graph σ env assumptions) :
    ∃ others, Scopes graph env others ∧ assumptions = others.subst σ := by
  induction stands with
  | nil => exact ⟨[], .nil, rfl⟩
  | @cons entry assumption env assumptions here rest ih =>
      rcases ih with ⟨others, scopes, rfl⟩
      rcases assumption with ⟨id, t⟩
      rcases here with ⟨same, s, denotes, value⟩
      refine ⟨(id, s) :: others, .cons ⟨same, denotes⟩ scopes, ?_⟩
      exact congrArg (fun t => (id, t) :: others.subst σ) value

end Stands

/-- The analysis may start here and find the types of a derivation. -/
structure Assigned (state : CheckState) (env : TypeEnvironment)
    (nonGenerics : NonGenericTypeList) (σ : TypePointer → Ty Leaf)
    (assumptions : Assumptions) : Prop where
  prepared : Prepared state env nonGenerics
  quiet : state.errors = []
  plainFor : PlainFor (Leaf.under σ)
  stands : Stands state.graph σ env assumptions

/-- What an analysis has found for the type of a derivation. -/
structure Found (before : CheckState) (σ : TypePointer → Ty Leaf) (t : Ty Leaf)
    (type : TypePointer) (after : CheckState) : Prop where
  quiet : after.errors = []
  values : ∃ τ, PlainFor (Leaf.under τ) ∧
    Keeps before.graph after.graph σ τ ∧
    Values after.graph τ type t

/-- What a call of the analysis finds for every derivation. -/
def Finds (expression : Expression) (analyze : TypeEnvironment →
    NonGenericTypeList → CheckM TypePointer) : Prop :=
  ∀ ⦃env nonGenerics state σ assumptions t⦄,
    Assigned state env nonGenerics σ assumptions →
    Typing assumptions expression t →
      wp (fun _ => True) (analyze env nonGenerics) (Found state σ t) state

/-- What a call of the analysis concludes and finds. -/
structure Decides (expression : Expression) (analyze : TypeEnvironment →
    NonGenericTypeList → CheckM TypePointer) : Prop where
  concludes : Concludes expression analyze
  finds : Finds expression analyze

section

variable {state after : CheckState} {env : TypeEnvironment}
  {nonGenerics : NonGenericTypeList} {σ τ : TypePointer → Ty Leaf}
  {assumptions : Assumptions} {expression : Expression} {t : Ty Leaf}

theorem Decides.runs {analyze : TypeEnvironment → NonGenericTypeList →
      CheckM TypePointer} (decides : Decides expression analyze)
    (assigned : Assigned state env nonGenerics σ assumptions)
    (typing : Typing assumptions expression t) :
    wp (fun _ => True) (analyze env nonGenerics)
      (fun type after => Concluded env nonGenerics expression state type after ∧
        Found state σ t type after) state :=
  wp_mono (wp_and (decides.concludes assigned.prepared)
    (decides.finds assigned typing)) (fun _ _ => id) fun _ => And.left

theorem Assigned.advance
    (assigned : Assigned state env nonGenerics σ assumptions)
    {live : List TypePointer}
    (advances : Advances nonGenerics state after live)
    (untangled : after.errors = [] → after.Untangled)
    (quiet : after.errors = []) (plainFor : PlainFor (Leaf.under τ))
    (keeps : Keeps state.graph after.graph σ τ) :
    Assigned after env nonGenerics τ assumptions :=
  ⟨assigned.prepared.advance advances untangled, quiet, plainFor,
    assigned.stands.keeps assigned.prepared.ready.inside keeps⟩

/-- The body of a function binds a variable that stands for its argument. -/
theorem Assigned.bindVariable
    (assigned : Assigned state env nonGenerics σ assumptions) (id : Symbol)
    (plain : t.Plain) :
    Assigned { state with graph := state.graph.add ⟨.variable_, none, .null⟩ }
      ((id, state.graph.size) :: env) (state.graph.size :: nonGenerics)
      (Function.update σ state.graph.size t) ((id, t) :: assumptions) :=
  ⟨assigned.prepared.bindVariable id, assigned.quiet,
    plainFor_update assigned.plainFor plain _,
    .cons ⟨rfl, .addVariable⟩ (assigned.stands.keeps
      assigned.prepared.ready.inside
      (.addVariable assigned.prepared.ready.wellFormed))⟩

end

/-! ## The cases of the analysis -/

section

variable {tokens : Tokens} {fuel : Nat} {range : TokenRange}
  {roots live : List TypePointer} {before state : CheckState}
  {env : TypeEnvironment} {nonGenerics : NonGenericTypeList}
  {σ : TypePointer → Ty Leaf} {assumptions : Assumptions} {t : Ty Leaf}

/--
Types that stand for the same term unify, and everything stands for what it
stood for.
-/
theorem unify_finds {errorCode : UnificationError} {p q : TypePointer}
    (sofar : Advances roots before state live)
    (untangled : state.errors = [] → state.Untangled)
    (quiet : state.errors = []) (knownP : p ∈ live ∨ p ∈ roots)
    (knownQ : q ∈ live ∨ q ∈ roots) (left : Values state.graph σ p t)
    (right : Values state.graph σ q t) :
    wp (fun _ => True) (unify tokens fuel range errorCode p q)
      (fun _ after => Advances roots before after live ∧ after.Untangled ∧
        Extends state.graph after.graph ∧ after.errors = [] ∧
        Keeps state.graph after.graph σ σ) state := by
  have wellFormed := sofar.progress.wellFormed
  apply wp_mono (wp_and (unify_concludes fuel sofar untangled knownP knownQ)
    (unify_spec fuel wellFormed sofar.progress.clean (sofar.inside knownP)
      (sofar.inside knownQ))) ?_ fun _ _ => trivial
  rintro - after ⟨⟨advances, extends_, -, same⟩, moments, reports, unifies,
    errors, lengths, -⟩
  rcases left with ⟨s, leftTerm, rfl⟩
  rcases right with ⟨u, rightTerm, equal⟩
  have plainS := leftTerm.plain_of_free (sofar.freely quiet knownP)
  have plainU := rightTerm.plain_of_free (sofar.freely quiet knownQ)
  cases unifies.solved leftTerm rightTerm plainS plainU with
  | unifier μ mostGeneral resolves =>
      rw [quiet, List.eq_nil_of_length_eq_zero lengths] at errors
      exact ⟨advances, (same errors).1, extends_, errors,
        .of_resolves extends_.size resolves
          (mostGeneral.absorbed (Leaf.under σ) equal)⟩
  | none _ noUnifier => exact absurd equal (noUnifier (Leaf.under σ))

/--
A fresh copy of a scheme stands for each of its instances, if the new variables
stand for the types that the instance gives to the bound ones.
-/
theorem Values.freshen {graph after : TypeGraph} {p r : TypePointer}
    (wellFormed : graph.WellFormed) (inside : p < graph.size)
    (copies : Copies .freshen (fun _ => False) graph p r after)
    (plainFor : PlainFor (Leaf.under σ)) {scheme : Ty Leaf}
    (values : Values graph σ p scheme) (admits : scheme.Admits t) :
    ∃ τ, PlainFor (Leaf.under τ) ∧ Keeps graph after σ τ ∧
      Values after τ r t := by
  classical
  rcases values with ⟨s, denotes, rfl⟩
  rcases admits with ⟨plain, θ, rfl⟩
  rcases copies.copies with ⟨s', image, denotes', renames, copy⟩
  cases denotes'.unique denotes
  let bound : Set TypePointer := { g | Leaf.generic g ∈ s.leaves }
  have injOn : Set.InjOn image bound := fun g inG h inH =>
    renames.injective g h inG inH not_false not_false
  have inverse := injOn.leftInvOn_invFunOn
  have new : ∀ g ∈ bound, graph.size ≤ image g := fun g member =>
    (renames.new g member not_false).1
  have inLeaves : ∀ g ∈ bound, ∀ a ∈ (θ g).leaves,
      a ∈ ((s.bind (Leaf.under σ)).bind (Leaf.opened θ)).leaves :=
    fun g member a inside => Ty.mem_leaves_bind.mpr ⟨.generic g,
      Ty.mem_leaves_bind.mpr ⟨_, member, List.mem_singleton_self _⟩, inside⟩
  refine ⟨fun w => if w ∈ image '' bound
    then θ (Function.invFunOn image bound w) else σ w, ?_, ?_, _, copy, ?_⟩
  · intro w
    rw [Leaf.under]
    by_cases isNew : w ∈ image '' bound
    · rw [if_pos isNew]
      rcases isNew with ⟨g, member, rfl⟩
      rw [inverse member]
      exact fun a inside => plain a (inLeaves g member a inside)
    · rw [if_neg isNew]
      exact plainFor w
  · apply Keeps.of_allocates copies.allocates wellFormed
    rintro v below
    apply if_neg
    rintro ⟨g, member, rfl⟩
    exact Nat.not_lt_of_le (new g member) below
  · rw [Ty.bind_bind, Ty.bind_bind]
    apply Ty.bind_congr
    intro a member
    cases a with
    | variable_ v =>
        have below := wellFormed.reaches_lt inside
          (denotes.mem_variables.mp member).1
        have old : v ∉ image '' bound := by
          rintro ⟨g, isBound, rfl⟩
          exact Nat.not_lt_of_le (new g isBound) below
        refine ((plainFor v).bind_opened θ).trans ?_
        exact (if_neg old).symm
    | generic g =>
        have here : image g ∈ image '' bound := ⟨g, member, rfl⟩
        refine Eq.trans ?_ (if_pos here).symm
        rw [inverse member]
        rfl
    | error =>
        rcases plain .error (Ty.mem_leaves_bind.mpr ⟨.error,
          Ty.mem_leaves_bind.mpr ⟨_, member, List.mem_singleton_self _⟩,
          List.mem_singleton_self _⟩) with ⟨v, same⟩
        cases same

theorem analyzeIdentifier_finds (id : Symbol)
    (assigned : Assigned state env nonGenerics σ assumptions)
    (typing : Typing assumptions (.identifier range id) t) :
    wp (fun _ => True) (analyzeIdentifier tokens fuel range id env)
      (Found state σ t) state := by
  have ready := assigned.prepared.ready
  cases typing with
  | identifier found admits =>
      rcases assigned.stands.lookup found with ⟨p, here, values⟩
      have logged := ready.start.record (.looking id env state.graph) trivial
        fun _ => trivial
      have relogged := ready.relog logged.holds
      rw [analyzeIdentifier, wp_bind, wp_record, wp_bind]
      apply wp_onGraph (lookupType_first fuel id relogged.wellFormed
        relogged.clean relogged.inside) trivial
      rintro result graph
        (⟨-, nowhere, -⟩ | ⟨q, r, member, found', rfl, copies⟩)
      · rw [here] at nowhere
        cases nowhere
      · rw [here] at found'
        cases found'
        exact ⟨assigned.quiet, values.freshen ready.wellFormed
          (ready.inside _ member) copies assigned.plainFor admits⟩

theorem analyzeLambda_finds (lambdaId : Symbol) {bodyExpression : Expression}
    {body : TypeEnvironment → NonGenericTypeList → CheckM TypePointer}
    (bodySpec : Decides bodyExpression body)
    (assigned : Assigned state env nonGenerics σ assumptions)
    (typing : Typing assumptions (.lambda range lambdaId bodyExpression) t) :
    wp (fun _ => True) (analyzeLambda lambdaId body env nonGenerics)
      (Found state σ t) state := by
  cases typing with
  | lambda plain bodyTyping =>
      have wellFormed := assigned.prepared.ready.wellFormed
      rw [analyzeLambda, wp_bind, makeTypeVar, wp_onGraph_allocate, wp_bind]
      apply wp_mono (bodySpec.runs (assigned.bindVariable lambdaId plain)
        bodyTyping) ?_ fun _ => id
      rintro resultType after ⟨analyzed, quiet, τ, plainFor, keeps, result⟩
      have wellFormed' := analyzed.advances.progress.wellFormed
      have whole := (Keeps.addVariable wellFormed).trans keeps
      have inside : state.graph.size <
          (state.graph.add ⟨.variable_, none, .null⟩).size := by simp
      rw [makeFunctionType, wp_onGraph_allocate]
      exact ⟨quiet, τ, plainFor, whole.trans (.of_add _ wellFormed'),
        .addBoth .func wellFormed' (Nat.lt_of_lt_of_le inside keeps.size)
          (analyzed.advances.inside (.inl List.mem_cons_self))
          (keeps.values inside .addVariable) result⟩

theorem analyzeApply_finds {functionExpression argumentExpression : Expression}
    {function argument : TypeEnvironment → NonGenericTypeList →
      CheckM TypePointer} (functionSpec : Decides functionExpression function)
    (argumentSpec : Decides argumentExpression argument)
    (assigned : Assigned state env nonGenerics σ assumptions)
    (typing : Typing assumptions
      (.apply range functionExpression argumentExpression) t) :
    wp (fun _ => True)
      (analyzeApply tokens fuel range (function env nonGenerics)
        (argument env nonGenerics)) (Found state σ t) state := by
  cases typing with
  | apply functionTyping argumentTyping =>
  have plain := (Ty.Plain.func_iff.mp functionTyping.plain).2
  rw [analyzeApply, wp_bind]
  apply wp_mono (functionSpec.runs assigned functionTyping) ?_ fun _ => id
  rintro functionType middle
    ⟨first, quietFirst, τ, plainTau, keepsFirst, functionValue⟩
  have assignedArgument := assigned.advance first.advances first.untangled
    quietFirst plainTau keepsFirst
  rw [wp_bind]
  apply wp_mono (argumentSpec.runs assignedArgument argumentTyping) ?_
    fun _ => id
  rintro argType after
    ⟨second, quiet, υ, plainUpsilon, keepsSecond, argumentValue⟩
  have both := first.advances.trans second.advances fun _ => .inr
  rw [wp_bind, wp_isErrorType]
  split
  · rename_i isError
    exact absurd quiet (isErrorType_advances both (.inl (by simp)) isError)
  rw [wp_bind, wp_isErrorType]
  split
  · rename_i isError
    exact absurd quiet (isErrorType_advances both (.inl (by simp)) isError)
  have result := both.addVariable
  have wanted := result.addBoth .func (a := argType) (.inl (by simp))
    (b := after.graph.size) (.inl (by simp))
  have wellFormed := second.advances.progress.wellFormed
  have insideFunction := first.advances.inside (.inl List.mem_cons_self)
  have insideArgument := second.advances.inside (.inl List.mem_cons_self)
  have keepsResult : Keeps after.graph _ υ
      (Function.update υ after.graph.size t) := .addVariable wellFormed
  have keepsWanted := keepsResult.trans
    (.of_add ⟨.func, some argType, .type after.graph.size⟩
      result.progress.wellFormed)
  have functionLater := keepsWanted.values
    (Nat.lt_of_lt_of_le insideFunction keepsSecond.size)
    (keepsSecond.values insideFunction functionValue)
  have wantedValue := Values.addBoth .func result.progress.wellFormed
    (Nat.lt_of_lt_of_le insideArgument keepsResult.size) (by simp)
    (keepsResult.values insideArgument argumentValue) .addVariable
  rw [wp_bind, makeTypeVar, wp_onGraph_allocate, wp_bind, makeFunctionType,
    wp_onGraph_allocate, wp_bind]
  apply wp_mono (unify_finds wanted second.untangled quiet
    (.inl List.mem_cons_self) (.inl (by simp)) wantedValue functionLater) ?_
    fun _ => id
  rintro - final ⟨-, -, -, quietFinal, keepsFinal⟩
  refine ⟨quietFinal, _, plainFor_update plainUpsilon plain _,
    ((keepsFirst.trans keepsSecond).trans keepsWanted).trans keepsFinal, ?_⟩
  exact keepsFinal.values (by simp)
    ((Keeps.of_add _ result.progress.wellFormed).values (by simp) .addVariable)

theorem analyzeTuple_finds {firstExpression restExpression : Expression}
    {length : Nat}
    {tupleFirst tupleRest : TypeEnvironment → NonGenericTypeList →
      CheckM TypePointer} (firstSpec : Decides firstExpression tupleFirst)
    (restSpec : Decides restExpression tupleRest)
    (assigned : Assigned state env nonGenerics σ assumptions)
    (typing : Typing assumptions
      (.tuple range firstExpression restExpression length) t) :
    wp (fun _ => True)
      (analyzeTuple (tupleFirst env nonGenerics) (tupleRest env nonGenerics))
      (Found state σ t) state := by
  cases typing with
  | tuple firstTyping restTyping =>
  rw [analyzeTuple, wp_bind]
  apply wp_mono (firstSpec.runs assigned firstTyping) ?_ fun _ => id
  rintro first middle
    ⟨analyzed, quietFirst, τ, plainTau, keepsFirst, firstValue⟩
  have assignedRest := assigned.advance analyzed.advances analyzed.untangled
    quietFirst plainTau keepsFirst
  rw [wp_bind]
  apply wp_mono (restSpec.runs assignedRest restTyping) ?_ fun _ => id
  rintro rest after ⟨second, quiet, υ, plainUpsilon, keepsSecond, restValue⟩
  have wellFormed := second.advances.progress.wellFormed
  have insideFirst := analyzed.advances.inside (.inl List.mem_cons_self)
  rw [makeTupleType, wp_onGraph_allocate]
  exact ⟨quiet, υ, plainUpsilon,
    (keepsFirst.trans keepsSecond).trans (.of_add _ wellFormed),
    .addBoth .tuple wellFormed
      (Nat.lt_of_lt_of_le insideFirst keepsSecond.size)
      (second.advances.inside (.inl List.mem_cons_self))
      (keepsSecond.values insideFirst firstValue) restValue⟩

theorem analyzeTupleFinal_finds {firstExpression : Expression}
    {tupleFirst : TypeEnvironment → NonGenericTypeList → CheckM TypePointer}
    (firstSpec : Decides firstExpression tupleFirst)
    (assigned : Assigned state env nonGenerics σ assumptions)
    (typing : Typing assumptions (.tupleFinal range firstExpression) t) :
    wp (fun _ => True) (analyzeTupleFinal (tupleFirst env nonGenerics))
      (Found state σ t) state := by
  cases typing with
  | tupleFinal firstTyping =>
  rw [analyzeTupleFinal, wp_bind]
  apply wp_mono (firstSpec.runs assigned firstTyping) ?_ fun _ => id
  rintro first after ⟨analyzed, quiet, τ, plainTau, keeps, firstValue⟩
  have wellFormed := analyzed.advances.progress.wellFormed
  rw [makeTupleFinalType, wp_onGraph_allocate]
  exact ⟨quiet, τ, plainTau,
    keeps.trans (.of_add _ wellFormed),
    .addFinal wellFormed (analyzed.advances.inside (.inl List.mem_cons_self))
      firstValue⟩

/-- The scheme of a type is more general than that of the derivation. -/
theorem Assigned.generalises
    (assigned : Assigned state env nonGenerics σ assumptions)
    {p r : TypePointer} (inside : p < state.graph.size)
    (free : Free (Unwanted ([] : List ErrorReport)) state.graph p)
    {graph : TypeGraph}
    (copies : Copies .generalize (state.graph.ReachedFrom nonGenerics)
      state.graph p r graph) {scheme : Ty Leaf}
    (values : Values state.graph σ p t)
    (generalises : Generalises assumptions t scheme) :
    ∃ more, more.Subsumes scheme ∧ Values graph σ r more := by
  rcases assigned.stands.scopes with ⟨others, scopes, rfl⟩
  rcases values with ⟨s, denotes, rfl⟩
  have plain := denotes.plain_of_free free
  rcases assigned.prepared.generalises scopes inside copies denotes plain with
    ⟨more, moreTerm, generalises'⟩
  exact ⟨_, generalises'.subsumes generalises plain assigned.plainFor
    fun _ _ mentions => mentions.subst, more, moreTerm, rfl⟩

theorem analyzeLet_finds (letId : Symbol)
    {valueExpression bodyExpression : Expression}
    {value body : TypeEnvironment → NonGenericTypeList → CheckM TypePointer}
    (valueSpec : Decides valueExpression value)
    (bodySpec : Decides bodyExpression body)
    (assigned : Assigned state env nonGenerics σ assumptions)
    (typing : Typing assumptions
      (.let_ range letId valueExpression bodyExpression) t) :
    wp (fun _ => True) (analyzeLet fuel letId value body env nonGenerics)
      (Found state σ t) state := by
  cases typing with
  | let_ valueTyping generalises bodyTyping =>
  rw [analyzeLet, wp_bind]
  apply wp_mono (valueSpec.runs assigned valueTyping) ?_ fun _ => id
  rintro defnType middle ⟨defined, quiet, τ, plainTau, keeps, defnValue⟩
  have assignedMiddle := assigned.advance defined.advances defined.untangled
    quiet plainTau keeps
  have progress := defined.advances.progress
  have inside := defined.advances.inside (.inl List.mem_cons_self)
  rw [wp_bind]
  apply wp_onGraph (makeGenericTypeExp_spec progress.wellFormed progress.clean
    assignedMiddle.prepared.ready.within fuel inside) trivial
  intro generic graph copies
  rcases generalising_advances assigned.prepared.ready defined.advances
    List.mem_cons_self copies letId with ⟨-, readyBody⟩
  have keepsMiddle : Keeps middle.graph graph τ τ :=
    .of_allocates copies.allocates progress.wellFormed fun _ _ => rfl
  rcases assignedMiddle.generalises inside
    (defined.advances.freely quiet (.inl List.mem_cons_self)) copies defnValue
    generalises with ⟨more, subsumes, genericValue⟩
  have assignedBody : Assigned { middle with graph := graph }
      ((letId, generic) :: env) nonGenerics τ ((letId, more) :: assumptions) :=
    ⟨⟨readyBody, assigned.prepared.rooted_cons _, defined.untangled⟩, quiet,
      plainTau, .cons ⟨rfl, genericValue⟩ (assignedMiddle.stands.keeps
        assignedMiddle.prepared.ready.inside keepsMiddle)⟩
  apply wp_mono (bodySpec.runs assignedBody (bodyTyping.subsumed
    (.cons ⟨rfl, subsumes⟩ (Assumptions.Subsumes.refl assumptions)))) ?_
    fun _ => id
  rintro type after ⟨-, quietAfter, υ, plainUpsilon, keepsBody, bodyValue⟩
  exact ⟨quietAfter, υ, plainUpsilon,
    (keeps.trans keepsMiddle).trans keepsBody, bodyValue⟩

/-- What was there before a let rec is not changed by the rebinding. -/
theorem Copies.rebound_old {graph : TypeGraph} {a r p : TypePointer}
    (sofar : Advances roots before state live)
    (wellFormed : before.graph.WellFormed)
    (copies : Copies .generalize (state.graph.ReachedFrom roots) state.graph a r
      graph) (inside : a < state.graph.size) (new : before.graph.size ≤ a)
    (isVariable : (state.graph.nodes a).type = .variable_)
    (bound : ¬state.graph.Unbound a) (old : p < before.graph.size)
    (denotes : Denotes state.graph p t) : Denotes (graph.bind a r) p t := by
  have grows := sofar.progress.grows
  have wellFormed' := sofar.progress.wellFormed
  have insideP := Nat.lt_of_lt_of_le old grows.size
  apply (copies.allocates.denotes wellFormed' insideP denotes).rebound
  intro u path denotes'
  have path' := (copies.allocates.reaches_iff wellFormed' insideP).mp path
  -- An old type leads to the variable only through the non-generic types.
  have reached : state.graph.ReachedFrom roots a := by
    rcases grows.departs wellFormed old path' with
      kept | ⟨v, -, -, reached, onward⟩
    · exact absurd (wellFormed.reaches_lt old kept) (Nat.not_lt_of_le new)
    · rcases grows.reachedFrom wellFormed sofar.within reached with
        ⟨n, isRoot, upTo⟩
      exact ⟨n, isRoot, upTo.trans onward⟩
  rcases rebinding_kept copies reached with ⟨s, here, there⟩
  cases denotes'.unique (copies.allocates.denotes wellFormed' inside here)
  exact copies.rebound wellFormed' inside isVariable bound there

theorem analyzeLetRec_finds (letId : Symbol) {lambdaRange : TokenRange}
    {lambdaId : Symbol} {lambdaBody bodyExpression : Expression}
    {value body : TypeEnvironment → NonGenericTypeList → CheckM TypePointer}
    (valueSpec : Decides (.lambda lambdaRange lambdaId lambdaBody) value)
    (bodySpec : Decides bodyExpression body)
    (assigned : Assigned state env nonGenerics σ assumptions)
    (typing : Typing assumptions (.letrec range letId
      (.lambda lambdaRange lambdaId lambdaBody) bodyExpression) t) :
    wp (fun _ => True)
      (analyzeLetRec tokens fuel range letId value body env nonGenerics)
      (Found state σ t) state := by
  cases typing with
  | @letrec _ _ _ _ _ s _ _ plain valueTyping generalises bodyTyping =>
  have ready := assigned.prepared.ready
  have opened := ready.start.addVariable
  have assignedValue := assigned.bindVariable letId plain
  rw [analyzeLetRec, wp_bind, makeTypeVar, wp_onGraph_allocate, wp_bind]
  apply wp_mono (valueSpec.runs assignedValue valueTyping) ?_ fun _ => id
  rintro defnType defined
    ⟨valued, quietDefined, τ, plainTau, keepsValue, defnValue⟩
  have insideVariable : state.graph.size <
      (state.graph.add ⟨.variable_, none, .null⟩).size := by simp
  have variableValue := keepsValue.values insideVariable .addVariable
  rw [wp_bind]
  apply wp_mono (wp_and (unify_concludes fuel valued.advances valued.untangled
      (.inr List.mem_cons_self) (.inl List.mem_cons_self))
    (unify_finds valued.advances valued.untangled quietDefined
      (.inr List.mem_cons_self) (.inl List.mem_cons_self) variableValue
      defnValue)) ?_ fun _ _ => trivial
  rintro - middle ⟨⟨-, -, -, same⟩, unified, untangled, extends_, quiet,
    keepsMiddle⟩
  have unifiedWhole := opened.trans unified known_cons
  have sofar := unifiedWhole.record
    (.rebinding state.graph.size nonGenerics middle.graph) trivial
    fun _ => trivial
  have isLive : state.graph.size ∈ [defnType] ++ [state.graph.size] := by simp
  have inside := sofar.inside (.inl isLive)
  have isVariable : (middle.graph.nodes state.graph.size).type =
      .variable_ := by
    rw [unified.progress.grows.type_eq insideVariable, TypeGraph.add_node]
  have bound : ¬middle.graph.Unbound state.graph.size := by
    rcases (same quiet).2 with ⟨u, variableTerm, defnTerm⟩
    rcases valued.defines assignedValue.prepared unified extends_ quietDefined
      quiet untangled variableTerm defnTerm with ⟨_, -, -, bound⟩
    exact bound
  have keepsWhole := ((Keeps.addVariable ready.wellFormed).trans
    keepsValue).trans keepsMiddle
  have assignedMiddle : Assigned middle env nonGenerics τ assumptions :=
    assigned.advance unifiedWhole (fun _ => untangled) quiet plainTau keepsWhole
  rw [wp_bind, wp_record, wp_bind]
  apply wp_onGraph (makeGenericTypeExp_spec sofar.progress.wellFormed
    sofar.progress.clean (ready.advance sofar).within fuel inside) trivial
  intro generic graph copies
  rcases rebinding_advances ready sofar isLive (Nat.le_refl _) isVariable
    (by simp) copies letId with ⟨rebound, readyBody⟩
  have recorded := rebound.record
    (.rebound (graph.bind state.graph.size generic)) trivial
    fun untangled => ⟨rebound.progress.wellFormed, rebound.progress.clean,
      rebound.holds.ranked untangled⟩
  rcases assignedMiddle.generalises inside
    (unifiedWhole.freely quiet (.inl isLive)) copies
    (keepsMiddle.values (Nat.lt_of_lt_of_le insideVariable keepsValue.size)
      variableValue) generalises with ⟨more, subsumes, u, genericTerm, rfl⟩
  have keepsRebound : Keeps state.graph (graph.bind state.graph.size generic)
      σ τ := by
    refine ⟨rebound.progress.grows.size, fun {p t} old values => ?_⟩
    rcases keepsWhole.values old values with ⟨s, denotes, value⟩
    exact ⟨s, copies.rebound_old sofar ready.wellFormed inside (Nat.le_refl _)
      isVariable bound old denotes, value⟩
  have stands : Stands (graph.bind state.graph.size generic) τ
      ((letId, state.graph.size) :: env)
      ((letId, u.bind (Leaf.under τ)) :: assumptions) :=
    .cons ⟨rfl, u, copies.rebound sofar.progress.wellFormed inside isVariable
      bound genericTerm, rfl⟩ (assigned.stands.keeps ready.inside keepsRebound)
  rw [wp_bind, wp_onGraph_setVarInstance, wp_bind, wp_record]
  apply wp_mono (bodySpec.runs ⟨⟨readyBody.relog recorded.holds,
      assigned.prepared.rooted_cons _,
      fun _ => untangled_rebinding untangled bound⟩, quiet, plainTau, stands⟩
    (bodyTyping.subsumed
      (.cons ⟨rfl, subsumes⟩ (Assumptions.Subsumes.refl assumptions)))) ?_
    fun _ => id
  rintro type after ⟨-, quietAfter, υ, plainUpsilon, keepsBody, bodyValue⟩
  exact ⟨quietAfter, υ, plainUpsilon, keepsRebound.trans keepsBody, bodyValue⟩

theorem analyzeIf_finds {testRange : TokenRange}
    {testExpression thenExpression elseExpression : Expression}
    {test thenArm elseArm : TypeEnvironment → NonGenericTypeList →
      CheckM TypePointer} (testSpec : Decides testExpression test)
    (thenSpec : Decides thenExpression thenArm)
    (elseSpec : Decides elseExpression elseArm)
    (assigned : Assigned state env nonGenerics σ assumptions)
    (typing : Typing assumptions
      (.if_ range testExpression thenExpression elseExpression) t) :
    wp (fun _ => True)
      (analyzeIf tokens fuel range testRange (test env nonGenerics)
        (thenArm env nonGenerics) (elseArm env nonGenerics))
      (Found state σ t) state := by
  cases typing with
  | if_ testTyping thenTyping elseTyping =>
  rw [analyzeIf, wp_bind]
  apply wp_mono (testSpec.runs assigned testTyping) ?_ fun _ => id
  rintro condType tested
    ⟨first, quietFirst, τ, plainTau, keepsFirst, testValue⟩
  rw [wp_bind]
  apply wp_mono (unify_finds first.advances.boolean first.untangled quietFirst
    (.inl (by simp)) (.inl List.mem_cons_self) testValue
    (.bool first.advances.progress.wellFormed)) ?_ fun _ => id
  rintro - conditioned ⟨second, untangled, -, quietSecond, keepsSecond⟩
  have assignedThen := assigned.advance second (fun _ => untangled) quietSecond
    plainTau (keepsFirst.trans keepsSecond)
  rw [wp_bind]
  apply wp_mono (thenSpec.runs assignedThen thenTyping) ?_ fun _ => id
  rintro thenType middle
    ⟨third, quietThird, υ, plainUpsilon, keepsThird, thenValue⟩
  have assignedElse := assignedThen.advance third.advances third.untangled
    quietThird plainUpsilon keepsThird
  rw [wp_bind]
  apply wp_mono (elseSpec.runs assignedElse elseTyping) ?_ fun _ => id
  rintro elseType after
    ⟨fourth, quietFourth, φ, plainPhi, keepsFourth, elseValue⟩
  have sofar := (second.trans third.advances fun _ => .inr).trans
    fourth.advances fun _ => .inr
  have thenLater := keepsFourth.values
    (third.advances.inside (.inl List.mem_cons_self)) thenValue
  rw [wp_bind]
  apply wp_mono (unify_finds sofar fourth.untangled quietFourth (p := thenType)
    (.inl (by simp)) (q := elseType) (.inl (by simp)) thenLater elseValue) ?_
    fun _ => id
  rintro - final ⟨unified, -, -, quiet, keepsFinal⟩
  exact ⟨quiet, φ, plainPhi, (((keepsFirst.trans keepsSecond).trans
    keepsThird).trans keepsFourth).trans keepsFinal,
    keepsFinal.values (sofar.inside (.inl (by simp))) thenLater⟩

/-- An operand that stands for an integer is one. -/
theorem unifyOperand_finds {operand : TypePointer}
    {required : Option TypePointer}
    (static : required = none ∨
      required = some integerTypeExp ∧ t = .int)
    (sofar : Advances roots before state live)
    (untangled : state.errors = [] → state.Untangled)
    (quiet : state.errors = []) (isLive : operand ∈ live)
    (value : Values state.graph σ operand t) :
    wp (fun _ => True) (unifyOperand tokens fuel range operand required)
      (fun _ after => Advances roots before after live ∧ after.Untangled ∧
        after.errors = [] ∧ Keeps state.graph after.graph σ σ) state := by
  rcases static with rfl | ⟨rfl, rfl⟩
  · exact ⟨sofar, untangled quiet, quiet, Nat.le_refl _, fun _ => id⟩
  · apply wp_mono (unify_finds sofar.integer untangled quiet
      (.inl (List.mem_cons_of_mem _ isLive)) (.inl List.mem_cons_self) value
      (.int sofar.progress.wellFormed)) ?_ fun _ => id
    rintro - after ⟨unified, untangled', -, quiet', keeps⟩
    exact ⟨unified.mono fun p member => .inl (List.mem_cons_of_mem _ member),
      untangled', quiet', keeps⟩

/-- Every operator with a typing rule has an entry that follows the rule. -/
theorem OperatorTypes.entry {operator : TokenType} {s : Ty Leaf}
    (types : OperatorTypes operator s t) :
    ∃ op, (operators.find? fun op => op.token = operator) = some op ∧
      (op.left = none ∨ op.left = some integerTypeExp ∧ s = .int) ∧
      (op.right = none ∨ op.right = some integerTypeExp ∧ s = .int) ∧
      (op.result = integerTypeExp ∧ t = .int ∨
        op.result = booleanTypeExp ∧ t = .bool) := by
  cases types with
  | arithmetic among =>
      simp only [List.mem_cons, List.not_mem_nil, or_false] at among
      rcases among with rfl | rfl | rfl | rfl
      all_goals
        exact ⟨_, rfl, .inr ⟨rfl, rfl⟩, .inr ⟨rfl, rfl⟩, .inl ⟨rfl, rfl⟩⟩
  | equality => exact ⟨_, rfl, .inl rfl, .inl rfl, .inr ⟨rfl, rfl⟩⟩

theorem analyzeBinary_finds {operator : TokenType}
    {leftExpression rightExpression : Expression}
    {binaryLeft binaryRight : TypeEnvironment → NonGenericTypeList →
      CheckM TypePointer} (leftSpec : Decides leftExpression binaryLeft)
    (rightSpec : Decides rightExpression binaryRight)
    (assigned : Assigned state env nonGenerics σ assumptions)
    (typing : Typing assumptions
      (.binary range operator leftExpression rightExpression) t) :
    wp (fun _ => True)
      (analyzeBinary tokens fuel range operator (binaryLeft env nonGenerics)
        (binaryRight env nonGenerics)) (Found state σ t) state := by
  cases typing with
  | binary operatorTypes leftTyping rightTyping =>
  rcases operatorTypes.entry with ⟨op, entry, staticLeft, staticRight, result⟩
  rw [analyzeBinary, wp_bind]
  apply wp_mono (leftSpec.runs assigned leftTyping) ?_ fun _ => id
  rintro left middle ⟨first, quietFirst, τ, plainTau, keepsFirst, leftValue⟩
  have assignedRight := assigned.advance first.advances first.untangled
    quietFirst plainTau keepsFirst
  rw [wp_bind]
  apply wp_mono (rightSpec.runs assignedRight rightTyping) ?_ fun _ => id
  rintro right after ⟨second, quiet, υ, plainUpsilon, keepsSecond, rightValue⟩
  have both := first.advances.trans second.advances fun _ => .inr
  have leftLater := keepsSecond.values
    (first.advances.inside (.inl List.mem_cons_self)) leftValue
  have insideRight := second.advances.inside (.inl List.mem_cons_self)
  have insideLeft := both.inside (p := left) (.inl (by simp))
  rw [entry, wp_bind]
  apply wp_mono (unifyOperand_finds staticLeft both second.untangled quiet
    (by simp) leftLater) ?_ fun _ => id
  rintro - afterLeft ⟨third, untangledLeft, quietLeft, keepsLeft⟩
  have leftThird := keepsLeft.values insideLeft leftLater
  have rightThird := keepsLeft.values insideRight rightValue
  rw [wp_bind]
  apply wp_mono (unifyOperand_finds staticRight third (fun _ => untangledLeft)
    quietLeft (by simp) rightThird) ?_ fun _ => id
  rintro - afterRight ⟨fourth, untangledRight, quietRight, keepsRight⟩
  rw [wp_bind]
  apply wp_mono (unify_finds fourth (fun _ => untangledRight) quietRight
    (p := left) (.inl (by simp)) (q := right) (.inl (by simp))
    (keepsRight.values (third.inside (.inl (by simp))) leftThird)
    (keepsRight.values (third.inside (.inl (by simp))) rightThird)) ?_
    fun _ => id
  rintro - final ⟨unified, -, -, quietFinal, keepsFinal⟩
  have wellFormed := unified.progress.wellFormed
  refine ⟨quietFinal, υ, plainUpsilon, (((keepsFirst.trans keepsSecond).trans
    keepsLeft).trans keepsRight).trans keepsFinal, ?_⟩
  rcases result with ⟨isInteger, rfl⟩ | ⟨isBoolean, rfl⟩
  · rw [isInteger]
    exact .int wellFormed
  · rw [isBoolean]
    exact .bool wellFormed

/-- A type that is there already. -/
theorem Assigned.constant
    (assigned : Assigned state env nonGenerics σ assumptions)
    {p : TypePointer} (value : Values state.graph σ p t) :
    Found state σ t p state :=
  ⟨assigned.quiet, σ, assigned.plainFor, ⟨Nat.le_refl _, fun _ => id⟩, value⟩

/-- The type that a call returns is logged. -/
theorem returning_finds {result : CheckM TypePointer}
    (finds : wp (fun _ => True) result (Found state σ t) state) :
    wp (fun _ => True) (returning result) (Found state σ t) state := by
  rw [returning, wp_bind]
  apply wp_mono finds ?_ fun _ => id
  rintro type after ⟨quiet, τ, plainFor, keeps, value⟩
  rw [wp_bind, wp_record, wp_pure]
  exact ⟨quiet, τ, plainFor, keeps, value⟩

end

/-! ## The whole analysis -/

theorem analyze_decides (tokens : Tokens) (fuel : Nat)
    (expression : Expression) (functions : RecursiveFunctions expression) :
    Decides expression (analyze tokens fuel expression) := by
  refine ⟨analyze_concludes tokens fuel expression functions, ?_⟩
  have decides : ∀ {inner}, RecursiveFunctions inner →
      Finds inner (analyze tokens fuel inner) →
      Decides inner (analyze tokens fuel inner) := fun functions finds =>
    ⟨analyze_concludes tokens fuel _ functions, finds⟩
  induction expression with
  | identifier range id =>
      intro env nonGenerics state σ assumptions t assigned typing
      exact returning_finds (analyzeIdentifier_finds id assigned typing)
  | apply range function argument functionIh argumentIh =>
      intro env nonGenerics state σ assumptions t assigned typing
      exact returning_finds (analyzeApply_finds
        (decides functions.1 (functionIh functions.1))
        (decides functions.2 (argumentIh functions.2)) assigned typing)
  | lambda range id body bodyIh =>
      intro env nonGenerics state σ assumptions t assigned typing
      exact returning_finds (analyzeLambda_finds id
        (decides functions (bodyIh functions)) assigned typing)
  | let_ range id value body valueIh bodyIh =>
      intro env nonGenerics state σ assumptions t assigned typing
      exact returning_finds (analyzeLet_finds id
        (decides functions.1 (valueIh functions.1))
        (decides functions.2 (bodyIh functions.2)) assigned typing)
  | letrec range id value body valueIh bodyIh =>
      intro env nonGenerics state σ assumptions t assigned typing
      rcases functions with ⟨isLambda, inValue, inBody⟩
      have valueSpec := decides inValue (valueIh inValue)
      cases value with
      | lambda lambdaRange lambdaId lambdaBody =>
          exact returning_finds (analyzeLetRec_finds id valueSpec
            (decides inBody (bodyIh inBody)) assigned typing)
      | _ => exact isLambda.elim
  | if_ range test thenArm elseArm testIh thenIh elseIh =>
      intro env nonGenerics state σ assumptions t assigned typing
      rcases functions with ⟨inTest, inThen, inElse⟩
      exact returning_finds (analyzeIf_finds (decides inTest (testIh inTest))
        (decides inThen (thenIh inThen)) (decides inElse (elseIh inElse))
        assigned typing)
  | binary range operator left right leftIh rightIh =>
      intro env nonGenerics state σ assumptions t assigned typing
      exact returning_finds (analyzeBinary_finds
        (decides functions.1 (leftIh functions.1))
        (decides functions.2 (rightIh functions.2)) assigned typing)
  | unary range operator arg argIh =>
      intro env nonGenerics state σ assumptions t assigned typing
      cases typing with
      | unary argTyping =>
          exact returning_finds (argIh functions assigned argTyping)
  | tuple range first rest length firstIh restIh =>
      intro env nonGenerics state σ assumptions t assigned typing
      exact returning_finds (analyzeTuple_finds
        (decides functions.1 (firstIh functions.1))
        (decides functions.2 (restIh functions.2)) assigned typing)
  | tupleFinal range first firstIh =>
      intro env nonGenerics state σ assumptions t assigned typing
      exact returning_finds (analyzeTupleFinal_finds
        (decides functions (firstIh functions)) assigned typing)
  | integerConstant range literalValue =>
      intro env nonGenerics state σ assumptions t assigned typing
      cases typing
      exact returning_finds (assigned.constant
        (.int assigned.prepared.ready.wellFormed))
  | true_ range | false_ range =>
      intro env nonGenerics state σ assumptions t assigned typing
      cases typing
      exact returning_finds (assigned.constant
        (.bool assigned.prepared.ready.wellFormed))
  | invalid range | error range =>
      intro env nonGenerics state σ assumptions t assigned typing
      cases typing

/-- The terms that a principal type stands for. -/
def Principal (graph : TypeGraph) (type : TypePointer)
    (expression : Expression) : Prop :=
  ∃ s, Denotes graph type s ∧ ∀ t, Typing [] expression t ↔
    ∃ σ, PlainFor (Leaf.under σ) ∧ t = s.bind (Leaf.under σ)

section

variable {tokens : Tokens} {fuel : Nat} {expression : Expression}
  {type : TypePointer} {after : CheckState}

/-- What the analysis finds if the expression has a type. -/
theorem getExpressionType_found (functions : RecursiveFunctions expression)
    (returns : getExpressionType tokens fuel expression = (.ok type, after))
    {t : Ty Leaf} (typing : Typing [] expression t) :
    Found ⟨staticGraph, [], []⟩ (fun v => .leaf (.variable_ v)) t type after :=
    by
  have assigned : Assigned ⟨staticGraph, [], []⟩ [] []
      (fun v => .leaf (.variable_ v)) [] :=
    ⟨⟨ready_static, fun _ member => absurd member List.not_mem_nil,
      fun _ _ member => absurd member List.not_mem_nil⟩, rfl,
      fun v => .variable_ v, .nil⟩
  have decides := analyze_decides tokens fuel expression functions
  exact of_wp (decides.finds assigned typing) returns

/-- The analysis reports nothing exactly if the expression has a type. -/
theorem getExpressionType_quiet_iff (functions : RecursiveFunctions expression)
    (returns : getExpressionType tokens fuel expression = (.ok type, after)) :
    after.errors = [] ↔ ∃ t, Typing [] expression t := by
  constructor
  · intro quiet
    rcases getExpressionType_sound functions returns quiet with ⟨t, -, typing⟩
    exact ⟨t, typing⟩
  · rintro ⟨t, typing⟩
    exact (getExpressionType_found functions returns typing).quiet

/-- The type that the analysis returns has every type as its instance. -/
theorem getExpressionType_instances (functions : RecursiveFunctions expression)
    (returns : getExpressionType tokens fuel expression = (.ok type, after))
    (quiet : after.errors = []) : Principal after.graph type expression := by
  rcases getExpressionType_sound functions returns quiet with
    ⟨s, denotes, typing⟩
  refine ⟨s, denotes, fun t => ⟨fun typing' => ?_, ?_⟩⟩
  · rcases (getExpressionType_found functions returns typing').values with
      ⟨τ, plainFor, -, s', denotes', rfl⟩
    cases denotes'.unique denotes
    exact ⟨τ, plainFor, rfl⟩
  · rintro ⟨σ, plainFor, rfl⟩
    exact typing.subst plainFor

/--
The analysis of an expression whose let recs bind functions reports nothing
exactly if the expression has a type, and returns its principal type then.
-/
theorem getExpressionType_principal {tokens : Tokens} {fuel : Nat}
    {expression : Expression} (functions : RecursiveFunctions expression)
    {type : TypePointer} {after : CheckState}
    (returns : getExpressionType tokens fuel expression = (.ok type, after)) :
    (after.errors = [] ↔ ∃ t, Typing [] expression t) ∧
      (after.errors = [] → Principal after.graph type expression) :=
  ⟨getExpressionType_quiet_iff functions returns,
    getExpressionType_instances functions returns⟩

end

/-- `let rec f = fn x => f x in f`. -/
def endless : Expression :=
  .letrec ⟨0, 0⟩ 1
    (.lambda ⟨0, 0⟩ 2
      (.apply ⟨0, 0⟩ (.identifier ⟨0, 0⟩ 1) (.identifier ⟨0, 0⟩ 2)))
    (.identifier ⟨0, 0⟩ 1)

theorem endless_returns : ∃ type after,
    getExpressionType noTokens 30 endless = (.ok type, after) ∧
      after.errors = [] := by
  have returned : (getExpressionType noTokens 30 endless).1.toOption.isSome =
      true := by decide +kernel
  have quiet : (getExpressionType noTokens 30 endless).2.errors.isEmpty =
      true := by decide +kernel
  rcases run : getExpressionType noTokens 30 endless with ⟨result, after⟩
  rw [run] at returned quiet
  cases result with
  | error stop => cases returned
  | ok type => exact ⟨type, after, rfl, List.isEmpty_iff.mp quiet⟩

/-- The type that is found for `endless` is its principal type. -/
theorem getExpressionType_principal_endless : ∃ type after,
    getExpressionType noTokens 30 endless = (.ok type, after) ∧
      after.errors = [] ∧ Principal after.graph type endless := by
  rcases endless_returns with ⟨type, after, returns, quiet⟩
  exact ⟨type, after, returns, quiet,
    (getExpressionType_principal (by simp [endless, RecursiveFunctions,
      Expression.IsLambda]) returns).2 quiet⟩

end Millie.Types
