import Millie.Types.Analysis
import Millie.Foundation.Traces

/-!
# The type graph between passes

Making a type generic, making it fresh and formatting it keep marks in the
scratch fields of variables.  Taking each of these passes as one step, no
moment of a run of the type checker shows a mark: a pass that returns has
cleared all of its own, and no other step sets one.
-/

namespace Millie.Types

open Relation Links Weakest
open Millie.Symbols Millie.Syntax

/-! ## Moments -/

/-- The passes that keep marks, and the steps that do not. -/
inductive Atomic : ∀ ⦃α : Type⦄, GraphM α → Prop where
  | makeGenericTypeExp (fuel : Nat) (type : TypePointer)
      (nonGenerics : NonGenericTypeList) :
      Atomic (makeGenericTypeExp fuel type nonGenerics)
  | makeFreshTypeExp (fuel : Nat) (type : TypePointer) :
      Atomic (makeFreshTypeExp fuel type)
  | formatTypeExpression (fuel : Nat) (type : TypePointer) :
      Atomic (formatTypeExpression fuel type)
  | pruneTypeExp (fuel : Nat) (type : TypePointer) :
      Atomic (pruneTypeExp fuel type)
  | isTypeContainedWithin (a : TypePointer) (fuel : Nat) (b : TypePointer) :
      Atomic (isTypeContainedWithin a fuel b)
  | node (type : TypePointer) : Atomic (node type)
  | allocate (contents : TypeExp) : Atomic (allocate contents)
  | setVarInstance (type instance_ : TypePointer) :
      Atomic (setVarInstance type instance_)
  | stop {α : Type} (reason : Stop) : Atomic (stop reason : GraphM α)

/-- The states that a single step of the type checker goes through. -/
inductive StepRuns : ∀ ⦃α : Type⦄, CheckM α → CheckState →
    List CheckState → Prop where
  | onGraph {α : Type} {step : GraphM α} {state : CheckState}
      {graphs : List TypeGraph}
      (runs : RunsExcept Atomic step state.graph graphs) :
      StepRuns (onGraph step) state
        (graphs.map fun graph => { state with graph := graph })
  | record (event : TypeGraph → CheckEvent) (state : CheckState) :
      StepRuns (record event) state [(record event state).2]
  | reportTypeError (tokens : Tokens) (range : TokenRange)
      (errorMessage : String) (state : CheckState) :
      StepRuns (reportTypeError tokens range errorMessage) state
        [(reportTypeError tokens range errorMessage state).2]

/-- The states between the steps of a run of the type checker. -/
abbrev CheckRuns {α : Type} (step : CheckM α) : CheckState →
    List CheckState → Prop :=
  Runs StepRuns step

/-- A step that returns ends in the last of its states. -/
theorem StepRuns.last {α : Type} {step : CheckM α} {state after : CheckState}
    {value : α} {moments : List CheckState}
    (runs : StepRuns step state moments)
    (returns : step state = (.ok value, after)) :
    moments.getLastD state = after := by
  cases runs with
  | @onGraph _ step _ graphs runs =>
      let place := fun graph => { state with graph := graph }
      have placed : (graphs.map place).getLastD (place state.graph) =
          place (graphs.getLastD state.graph) := by
        simp [List.getLast?_map, Option.getD_map]
      rw [Types.onGraph] at returns
      cases result : step state.graph with
      | error reason =>
          rw [result] at returns
          cases returns
      | ok result' =>
          rw [result] at returns
          cases returns
          rw [← runs.last result]
          exact placed
  | record | reportTypeError =>
      cases returns
      rfl

/-- Every graph that a graph step goes through is clean. -/
abbrev GraphTidily {α : Type} (step : GraphM α)
    (post : α → TypeGraph → Prop) : TypeGraph → Prop :=
  throughoutExcept Atomic TypeGraph.Clean step post

/-- Every graph that a step goes through is clean, and its result is right. -/
abbrev Tidily {α : Type} (step : CheckM α) (post : α → CheckState → Prop) :
    CheckState → Prop :=
  throughout StepRuns (fun moment => moment.graph.Clean) step post

/-! ## Later graphs -/

/-- A later graph, which is in order. -/
structure Later (before after : TypeGraph) : Prop where
  wellFormed : after.WellFormed
  clean : after.Clean
  size : before.size ≤ after.size
  types : ∀ v < before.size, (after.nodes v).type = (before.nodes v).type

namespace Later

variable {before middle after : TypeGraph}

theorem refl (wellFormed : before.WellFormed) (clean : before.Clean) :
    Later before before :=
  ⟨wellFormed, clean, Nat.le_refl _, fun _ _ => rfl⟩

theorem trans (first : Later before middle) (second : Later middle after) :
    Later before after where
  wellFormed := second.wellFormed
  clean := second.clean
  size := Nat.le_trans first.size second.size
  types v inside :=
    (second.types v (Nat.lt_of_lt_of_le inside first.size)).trans
      (first.types v inside)

theorem lt (later : Later before after) {p : TypePointer}
    (inside : p < before.size) : p < after.size :=
  Nat.lt_of_lt_of_le inside later.size

theorem of_allocates (allocates : before.Allocates after)
    (wellFormed : after.WellFormed) (clean : after.Clean) :
    Later before after :=
  ⟨wellFormed, clean, allocates.size, fun v inside => (allocates.same v inside).1⟩

/-- A node whose scratch field, if it has one, is empty. -/
theorem add (wellFormed : before.WellFormed) (clean : before.Clean)
    {contents : TypeExp} (shaped : contents.Shaped before.size)
    (noError : contents.type ≠ .error)
    (blank : contents.IsVariable → contents.second = .null) :
    Later before (before.add contents) := by
  apply Later.of_allocates (TypeGraph.add_allocates before contents)
    (TypeGraph.add_wellFormed wellFormed shaped noError)
  intro v inside isVariable
  rcases Nat.lt_succ_iff_lt_or_eq.mp inside with old | rfl
  · rw [TypeGraph.add_old before contents old] at isVariable ⊢
    exact clean v old isVariable
  · rw [TypeGraph.add_node] at isVariable ⊢
    exact blank isVariable

theorem bind (wellFormed : before.WellFormed) (clean : before.Clean)
    {a b : TypePointer} (isVariable : (before.nodes a).type = .variable_)
    (inside : b < before.size) : Later before (before.bind a b) := by
  refine ⟨TypeGraph.bind_wellFormed wellFormed isVariable inside, ?_,
    Nat.le_refl _, ?_⟩
  · intro v below isOpen
    by_cases here : v = a
    · subst here
      rw [TypeGraph.bind_node]
      exact clean v below (.inl isVariable)
    · rw [TypeGraph.bind_old before b here] at isOpen ⊢
      exact clean v below isOpen
  · intro v _
    by_cases here : v = a
    · rw [here, TypeGraph.bind_node]
    · rw [TypeGraph.bind_old before b here]

end Later

/-! ## Steps on the graph -/

section

variable {state : CheckState} {graph : TypeGraph}

theorem tidily_onGraph {α : Type} {step : GraphM α}
    {done : α → TypeGraph → Prop} (holds : GraphTidily step done state.graph) :
    Tidily (onGraph step) (fun value after =>
      after = { state with graph := after.graph } ∧ done value after.graph)
      state := by
  rcases holds with ⟨graphs, runs, clean, result⟩
  refine ⟨_, .step (.onGraph runs), ?_,
    wp_onGraph result trivial fun _ _ returned => ⟨rfl, returned⟩⟩
  intro moment member
  rcases List.mem_map.mp member with ⟨graph, inGraphs, rfl⟩
  exact clean graph inGraphs

/-- A step that only reads the graph. -/
theorem tidily_read {α : Type} {step : GraphM α} {found : α → Prop}
    (holds : GraphTidily step
      (fun value after => after = state.graph ∧ found value) state.graph) :
    Tidily (onGraph step) (fun value after => state = after ∧ found value)
      state := by
  apply throughout_mono (tidily_onGraph holds)
  rintro value after ⟨same, kept, read⟩
  rw [kept] at same
  exact ⟨same.symm, read⟩

theorem tidily_stuck {α : Type} (reason : Stop)
    {post : α → CheckState → Prop} :
    Tidily (onGraph (stop reason)) post state :=
  ⟨_, .step (.onGraph (.stopped (.stop reason) rfl)), nofun, trivial⟩

theorem tidily_record (event : TypeGraph → CheckEvent)
    (clean : state.graph.Clean) :
    Tidily (record event)
      (fun _ after => after.graph = state.graph) state := by
  refine ⟨_, .step (.record event state), ?_, rfl⟩
  intro moment member
  rw [List.mem_singleton.mp member]
  exact clean

theorem tidily_report (tokens : Tokens) (range : TokenRange)
    (errorMessage : String) (clean : state.graph.Clean) :
    Tidily (reportTypeError tokens range errorMessage)
      (fun _ after => after.graph = state.graph) state := by
  refine ⟨_, .step (.reportTypeError tokens range errorMessage state), ?_, rfl⟩
  intro moment member
  rw [List.mem_singleton.mp member]
  exact clean

variable (wellFormed : graph.WellFormed) (clean : graph.Clean)

include wellFormed clean

theorem tidily_prune (fuel : Nat) {p : TypePointer} (inside : p < graph.size) :
    GraphTidily (pruneTypeExp fuel p)
      (fun q after => after = graph ∧ q < graph.size ∧ Prunes graph p q)
      graph := by
  have spec : wpExcept (Starved graph fuel p) (pruneTypeExp fuel p)
      (fun q after => after = graph ∧ q < graph.size ∧ Prunes graph p q)
      graph := by
    apply wpExcept_mono (pruneTypeExp_spec fuel p graph) ?_ fun _ => id
    rintro q after ⟨same, prunes⟩
    exact ⟨same, wellFormed.reaches_lt inside prunes.reaches, prunes⟩
  refine throughoutExcept_step (.pruneTypeExp fuel p) spec ?_
  rintro q after ⟨rfl, -⟩
  exact clean

theorem tidily_contained (a : TypePointer) (fuel : Nat) {p : TypePointer}
    (inside : p < graph.size) :
    GraphTidily (isTypeContainedWithin a fuel p)
      (fun found after => after = graph ∧ (found = true ↔ graph.Reaches p a))
      graph := by
  refine throughoutExcept_step (.isTypeContainedWithin a fuel p)
    (isTypeContainedWithin_spec wellFormed (clean.searchable a) fuel p inside)
    ?_
  rintro found after ⟨rfl, -⟩
  exact clean

theorem tidily_format (fuel : Nat) {p : TypePointer}
    (inside : p < graph.size) :
    GraphTidily (formatTypeExpression fuel p)
      (fun _ after => after = graph ∧ graph.Nameable p) graph := by
  refine throughoutExcept_step (.formatTypeExpression fuel p)
    (formatTypeExpression_spec wellFormed clean fuel inside) ?_
  rintro text after ⟨rfl, -⟩
  exact clean

theorem tidily_generic {nonGenerics : List TypePointer}
    (within : ∀ n ∈ nonGenerics, n < graph.size) (fuel : Nat)
    {p : TypePointer} (inside : p < graph.size) :
    GraphTidily (makeGenericTypeExp fuel p nonGenerics)
      (fun r after => r < after.size ∧ Later graph after) graph := by
  have spec := makeGenericTypeExp_spec wellFormed clean within fuel inside
  refine throughoutExcept_step (.makeGenericTypeExp fuel p nonGenerics)
    (wpExcept_mono spec (fun r after copies => ?_) fun _ => id) ?_
  · exact ⟨copies.inside,
      .of_allocates copies.allocates copies.wellFormed copies.clean⟩
  · exact fun r after holds => holds.2.clean

theorem tidily_fresh (fuel : Nat) {p : TypePointer}
    (inside : p < graph.size) :
    GraphTidily (makeFreshTypeExp fuel p)
      (fun r after => r < after.size ∧ Later graph after) graph := by
  have spec := makeFreshTypeExp_spec wellFormed clean fuel inside
  refine throughoutExcept_step (.makeFreshTypeExp fuel p)
    (wpExcept_mono spec (fun r after copies => ?_) fun _ => id) ?_
  · exact ⟨copies.inside,
      .of_allocates copies.allocates copies.wellFormed copies.clean⟩
  · exact fun r after holds => holds.2.clean

omit wellFormed in
theorem tidily_node (p : TypePointer) :
    GraphTidily (node p)
      (fun exp after => after = graph ∧ exp = graph.nodes p) graph := by
  have spec : wpExcept (fun _ => False) (node p)
      (fun exp after => after = graph ∧ exp = graph.nodes p) graph :=
    ⟨rfl, rfl⟩
  refine throughoutExcept_step (.node p) spec ?_
  rintro exp after ⟨rfl, -⟩
  exact clean

omit wellFormed in
theorem tidily_isErrorType (p : TypePointer) :
    GraphTidily (isErrorType p) (fun isError after => after = graph ∧
      isError = (p = errorTypeExp || (graph.nodes p).type = .error))
      graph := by
  rw [isErrorType]
  apply throughoutExcept_bind (tidily_node clean p)
  rintro exp after ⟨same, rfl⟩
  exact throughoutExcept_pure ⟨same, rfl⟩

theorem tidily_allocate {contents : TypeExp}
    (shaped : contents.Shaped graph.size) (noError : contents.type ≠ .error)
    (blank : contents.IsVariable → contents.second = .null) :
    GraphTidily (allocate contents)
      (fun p after => p = graph.size ∧ after = graph.add contents ∧
        Later graph after) graph := by
  have spec : wpExcept (fun _ => False) (allocate contents)
      (fun p after => p = graph.size ∧ after = graph.add contents ∧
        Later graph after) graph :=
    ⟨rfl, rfl, .add wellFormed clean shaped noError blank⟩
  exact throughoutExcept_step (.allocate contents) spec
    fun p after holds => holds.2.2.clean

theorem tidily_bind {a b : TypePointer}
    (isVariable : (graph.nodes a).type = .variable_) (inside : b < graph.size) :
    GraphTidily (setVarInstance a b) (fun _ after => Later graph after)
      graph := by
  have spec : wpExcept (fun _ => False) (setVarInstance a b)
      (fun _ after => Later graph after) graph :=
    Later.bind wellFormed clean isVariable inside
  exact throughoutExcept_step (.setVarInstance a b) spec
    fun _ after later => later.clean

end

/-! ## Unification -/

section

variable {tokens : Tokens} {fuel : Nat} {context : UnifyContext}
  {state : CheckState} {p q : TypePointer}

/-- A second link leads to a type of the graph. -/
theorem TypeGraph.Clean.second_lt {graph : TypeGraph} (clean : graph.Clean)
    (wellFormed : graph.WellFormed) (inside : p < graph.size)
    (second : (graph.nodes p).second = .type q) : q < graph.size := by
  by_cases isVariable : (graph.nodes p).IsVariable
  · rw [clean p inside isVariable] at second
    cases second
  · exact wellFormed.link_lt inside (.inr ⟨isVariable, second⟩)

/-- The types that a unification reports are in the graph. -/
structure Originals (context : UnifyContext) (graph : TypeGraph) : Prop where
  one : context.originalOne < graph.size
  two : context.originalTwo < graph.size

theorem Originals.later {before after : TypeGraph}
    (originals : Originals context before) (later : Later before after) :
    Originals context after :=
  ⟨later.lt originals.one, later.lt originals.two⟩

theorem tidily_message {graph : TypeGraph} (wellFormed : graph.WellFormed)
    (clean : graph.Clean) (originals : Originals context graph) :
    GraphTidily (unificationMessage fuel context)
      (fun _ after => after = graph ∧ True) graph := by
  rw [unificationMessage]
  apply throughoutExcept_bind (tidily_format wellFormed clean fuel originals.one)
  rintro argOne after ⟨rfl, -⟩
  cases context.errorCode with
  | ifConditionBoolean => exact throughoutExcept_pure ⟨rfl, trivial⟩
  | _ =>
      apply throughoutExcept_bind
        (tidily_format wellFormed clean fuel originals.two)
      rintro argTwo after ⟨rfl, -⟩
      exact throughoutExcept_pure ⟨rfl, trivial⟩

theorem tidily_reportUnificationFailure
    (wellFormed : state.graph.WellFormed) (clean : state.graph.Clean)
    (originals : Originals context state.graph) :
    Tidily (reportUnificationFailure tokens fuel context)
      (fun _ after => after.graph = state.graph) state := by
  rw [reportUnificationFailure]
  apply throughout_bind
    (tidily_read (tidily_message wellFormed clean originals))
  rintro errorMessage _ ⟨rfl, -⟩
  exact tidily_report tokens context.range errorMessage clean

/-- What a unification leaves: a later graph, and the types it reports. -/
def Unites (state : CheckState) (other : UnifyContext) (after : CheckState) :
    Prop :=
  Later state.graph after.graph ∧ Originals other after.graph

theorem tidily_unifyVariable (wellFormed : state.graph.WellFormed)
    (clean : state.graph.Clean) (originals : Originals context state.graph)
    (isVariable : (state.graph.nodes p).type = .variable_)
    (inside : q < state.graph.size) :
    Tidily (unifyVariable tokens fuel context p q) (Unites state)
      state := by
  have start := Later.refl wellFormed clean
  rw [unifyVariable]
  split
  · exact throughout_pure ⟨start, originals⟩
  apply throughout_bind
    (tidily_read (tidily_contained wellFormed clean p fuel inside))
  rintro found _ ⟨rfl, -⟩
  split
  · have originals' : Originals { context with errorCode := .selfRecursive }
        state.graph := ⟨originals.one, originals.two⟩
    apply throughout_bind
      (tidily_reportUnificationFailure wellFormed clean originals')
    rintro - after kept
    exact throughout_pure ⟨kept ▸ start, kept ▸ originals'⟩
  · apply throughout_bind
      (tidily_onGraph (tidily_bind wellFormed clean isVariable inside))
    rintro - after ⟨-, later⟩
    exact throughout_pure ⟨later, originals.later later⟩

/-- A unification of two types of the graph. -/
def UnitesTidily
    (unify : UnifyContext → TypePointer → TypePointer → CheckM UnifyContext) :
    Prop :=
  ∀ ⦃context : UnifyContext⦄ ⦃p q : TypePointer⦄ ⦃state : CheckState⦄,
    state.graph.WellFormed → state.graph.Clean →
    Originals context state.graph → p < state.graph.size →
    q < state.graph.size →
    Tidily (unify context p q) (Unites state) state

theorem tidily_unifyArguments
    {unify : UnifyContext → TypePointer → TypePointer → CheckM UnifyContext}
    (unites : UnitesTidily unify) (wellFormed : state.graph.WellFormed)
    (clean : state.graph.Clean) (originals : Originals context state.graph)
    (insideP : p < state.graph.size) (insideQ : q < state.graph.size) :
    Tidily (unifyArguments unify context (state.graph.nodes p)
      (state.graph.nodes q)) (Unites state) state := by
  have start : Unites state context state :=
    ⟨.refl wellFormed clean, originals⟩
  have first : ∀ {r a}, r < state.graph.size →
      (state.graph.nodes r).first = some a → a < state.graph.size :=
    fun inside links => wellFormed.link_lt inside (.inl links)
  have second : ∀ {r a}, r < state.graph.size →
      (state.graph.nodes r).second = .type a → a < state.graph.size :=
    fun inside links => clean.second_lt wellFormed inside links
  rw [unifyArguments]
  split
  on_goal 1 => apply throughout_bind (throughout_pure start)
  on_goal 2 =>
    rename_i a b firstP firstQ
    apply throughout_bind (unites wellFormed clean originals
      (first insideP firstP) (first insideQ firstQ))
  on_goal 3 =>
    apply throughout_bind
      (show Tidily _ (Unites state) _ from tidily_stuck .undefinedBehaviour)
  -- The second arguments are unified in the graph that the first ones leave.
  all_goals
    rintro other middle ⟨later, kept⟩
    split
    · exact throughout_pure ⟨later, kept⟩
    · rename_i c d secondP secondQ
      apply throughout_mono (unites later.wellFormed later.clean kept
        (later.lt (second insideP secondP)) (later.lt (second insideQ secondQ)))
      rintro last after ⟨further, originals'⟩
      exact ⟨later.trans further, originals'⟩
    · exact tidily_stuck .undefinedBehaviour

theorem tidily_unifyImpl (tokens : Tokens) (fuel : Nat) :
    UnitesTidily (unifyImpl tokens fuel) := by
  induction fuel with
  | zero => exact fun _ _ _ _ _ _ _ _ _ => tidily_stuck .outOfFuel
  | succ fuel ih =>
      intro context p q state wellFormed clean originals insideP insideQ
      have start : Unites state context state :=
        ⟨.refl wellFormed clean, originals⟩
      rw [unifyImpl]
      apply throughout_bind
        (tidily_read (tidily_prune wellFormed clean fuel insideP))
      rintro r _ ⟨rfl, insideR, left⟩
      apply throughout_bind
        (tidily_read (tidily_prune wellFormed clean fuel insideQ))
      rintro s _ ⟨rfl, insideS, right⟩
      apply throughout_bind (tidily_read (tidily_isErrorType clean r))
      rintro isError _ ⟨rfl, -⟩
      split
      · exact throughout_pure start
      apply throughout_bind (tidily_read (tidily_isErrorType clean s))
      rintro isError' _ ⟨rfl, -⟩
      split
      · exact throughout_pure start
      apply throughout_bind (tidily_read (tidily_node clean s))
      rintro two _ ⟨rfl, rfl⟩
      by_cases swap : (state.graph.nodes s).type = .variable_
      · simp only [if_pos swap]
        apply throughout_bind (tidily_read (tidily_node clean s))
        rintro one _ ⟨rfl, rfl⟩
        rw [if_pos swap]
        exact tidily_unifyVariable wellFormed clean originals swap insideR
      simp only [if_neg swap]
      apply throughout_bind (tidily_read (tidily_node clean r))
      rintro one _ ⟨rfl, rfl⟩
      by_cases first : (state.graph.nodes r).type = .variable_
      · rw [if_pos first]
        exact tidily_unifyVariable wellFormed clean originals first insideS
      rw [if_neg first]
      apply throughout_bind (tidily_read (tidily_node clean s))
      rintro two _ ⟨rfl, rfl⟩
      split
      · apply throughout_bind
          (tidily_reportUnificationFailure wellFormed clean originals)
        rintro - after kept
        exact throughout_pure ⟨kept ▸ start.1, kept ▸ originals⟩
      · exact tidily_unifyArguments ih wellFormed clean originals insideR
          insideS

end

/-! ## Analysis -/

section

variable {tokens : Tokens} {fuel : Nat} {range : TokenRange}
  {state : CheckState} {env : TypeEnvironment}
  {nonGenerics : NonGenericTypeList} {p q : TypePointer}

/-- A step that leaves a later graph. -/
def Leaves {α : Type} (step : CheckM α) (state : CheckState) : Prop :=
  Tidily step (fun _ after => Later state.graph after.graph) state

/-- A step that leaves a later graph and a type in it. -/
def Yields (step : CheckM TypePointer) (state : CheckState) : Prop :=
  Tidily step (fun type after => type < after.graph.size ∧
    Later state.graph after.graph) state

/-- The types that an analysis is given are in the graph. -/
structure Within (env : TypeEnvironment) (nonGenerics : NonGenericTypeList)
    (graph : TypeGraph) : Prop where
  wellFormed : graph.WellFormed
  clean : graph.Clean
  env : ∀ entry ∈ env, entry.2 < graph.size
  nonGenerics : ∀ n ∈ nonGenerics, n < graph.size

theorem Within.later {before after : TypeGraph}
    (within : Within env nonGenerics before) (later : Later before after) :
    Within env nonGenerics after where
  wellFormed := later.wellFormed
  clean := later.clean
  env entry member := later.lt (within.env entry member)
  nonGenerics n member := later.lt (within.nonGenerics n member)

theorem Within.bind {graph : TypeGraph}
    (within : Within env nonGenerics graph) (id : Symbol)
    (inside : p < graph.size) :
    Within ((id, p) :: env) nonGenerics graph where
  wellFormed := within.wellFormed
  clean := within.clean
  env := List.forall_mem_cons.mpr ⟨inside, within.env⟩
  nonGenerics := within.nonGenerics

theorem Within.bindNonGeneric {graph : TypeGraph}
    (within : Within env nonGenerics graph) (id : Symbol)
    (inside : p < graph.size) :
    Within ((id, p) :: env) (p :: nonGenerics) graph where
  wellFormed := within.wellFormed
  clean := within.clean
  env := List.forall_mem_cons.mpr ⟨inside, within.env⟩
  nonGenerics := List.forall_mem_cons.mpr ⟨inside, within.nonGenerics⟩

/-- An analysis that stays clean wherever it starts. -/
def AnalyzesTidily (analyze : TypeEnvironment → NonGenericTypeList →
    CheckM TypePointer) : Prop :=
  ∀ ⦃env : TypeEnvironment⦄ ⦃nonGenerics : NonGenericTypeList⦄
    ⦃state : CheckState⦄, Within env nonGenerics state.graph →
    Yields (analyze env nonGenerics) state

theorem yields_static (within : Within env nonGenerics state.graph)
    (static : p < 3) : Yields (pure p) state :=
  throughout_pure ⟨Nat.lt_of_lt_of_le static within.wellFormed.size,
    .refl within.wellFormed within.clean⟩

theorem leaves_unify (errorCode : UnificationError)
    (wellFormed : state.graph.WellFormed) (clean : state.graph.Clean)
    (insideP : p < state.graph.size) (insideQ : q < state.graph.size) :
    Leaves (unify tokens fuel range errorCode p q) state := by
  rw [Leaves, unify]
  apply throughout_bind (tidily_record (.unifying p q) clean)
  rintro - middle same
  rw [← same] at wellFormed clean insideP insideQ
  apply throughout_bind (tidily_unifyImpl tokens fuel wellFormed clean
    ⟨insideP, insideQ⟩ insideP insideQ)
  rintro context after ⟨later, -⟩
  apply throughout_mono (tidily_record .unified later.clean)
  rintro - last kept
  rw [kept, ← same]
  exact later

theorem tidily_new {contents : TypeExp}
    (wellFormed : state.graph.WellFormed) (clean : state.graph.Clean)
    (shaped : contents.Shaped state.graph.size)
    (noError : contents.type ≠ .error)
    (blank : contents.IsVariable → contents.second = .null) :
    Tidily (onGraph (allocate contents)) (fun type after =>
      type < after.graph.size ∧ Later state.graph after.graph ∧
        after.graph.nodes type = contents) state := by
  apply throughout_mono (tidily_onGraph
    (tidily_allocate wellFormed clean shaped noError blank))
  rintro type after ⟨-, rfl, same, later⟩
  rw [same] at later ⊢
  exact ⟨Nat.lt_succ_self _, later, TypeGraph.add_node _ _⟩

theorem tidily_makeTypeVar (wellFormed : state.graph.WellFormed)
    (clean : state.graph.Clean) :
    Tidily (onGraph makeTypeVar) (fun type after =>
      type < after.graph.size ∧ Later state.graph after.graph ∧
        after.graph.nodes type = ⟨.variable_, none, .null⟩) state :=
  tidily_new wellFormed clean (.unbound .null) nofun fun _ => rfl

theorem yields_makeFunctionType (wellFormed : state.graph.WellFormed)
    (clean : state.graph.Clean) (insideP : p < state.graph.size)
    (insideQ : q < state.graph.size) :
    Yields (onGraph (makeFunctionType p q)) state :=
  throughout_mono (tidily_new wellFormed clean (.func insideP insideQ) nofun
      fun isVariable => by simp [TypeExp.IsVariable] at isVariable)
    fun _ _ holds => ⟨holds.1, holds.2.1⟩

theorem yields_makeTupleType (wellFormed : state.graph.WellFormed)
    (clean : state.graph.Clean) (insideP : p < state.graph.size)
    (insideQ : q < state.graph.size) :
    Yields (onGraph (makeTupleType p q)) state :=
  throughout_mono (tidily_new wellFormed clean (.tuple insideP insideQ) nofun
      fun isVariable => by simp [TypeExp.IsVariable] at isVariable)
    fun _ _ holds => ⟨holds.1, holds.2.1⟩

theorem yields_makeTupleFinalType (wellFormed : state.graph.WellFormed)
    (clean : state.graph.Clean) (insideP : p < state.graph.size) :
    Yields (onGraph (makeTupleFinalType p)) state :=
  throughout_mono (tidily_new wellFormed clean (.tupleFinal insideP) nofun
      fun isVariable => by simp [TypeExp.IsVariable] at isVariable)
    fun _ _ holds => ⟨holds.1, holds.2.1⟩

/-- A step that starts from a later graph. -/
theorem Yields.after {before : CheckState} {step : CheckM TypePointer}
    (later : Later before.graph state.graph) (yields : Yields step state) :
    Tidily step (fun type after => type < after.graph.size ∧
      Later before.graph after.graph) state :=
  throughout_mono yields fun _ _ holds => ⟨holds.1, later.trans holds.2⟩

theorem tidily_lookupType (fuel : Nat) (id : Symbol) {graph : TypeGraph}
    (within : Within env nonGenerics graph) :
    GraphTidily (lookupType fuel id env)
      (fun result after => (∀ type ∈ result, type < after.size) ∧
        Later graph after) graph := by
  rcases within with ⟨wellFormed, clean, inside, -⟩
  induction env with
  | nil => exact throughoutExcept_pure ⟨nofun, .refl wellFormed clean⟩
  | cons entry env ih =>
      rcases List.forall_mem_cons.mp inside with ⟨first, others⟩
      rw [lookupType]
      split
      · apply throughoutExcept_bind
          (tidily_fresh wellFormed clean fuel first)
        rintro type after ⟨fresh, later⟩
        refine throughoutExcept_pure ⟨?_, later⟩
        rintro _ ⟨⟩
        exact fresh
      · exact ih others

theorem yields_analyzeIdentifier (id : Symbol)
    (within : Within env nonGenerics state.graph) :
    Yields (analyzeIdentifier tokens fuel range id env) state := by
  rw [Yields, analyzeIdentifier]
  apply throughout_bind (tidily_record (.looking id env) within.clean)
  rintro - logged graph
  rw [← graph] at within ⊢
  apply throughout_bind (tidily_onGraph (tidily_lookupType fuel id within))
  rintro result middle ⟨-, inside, later⟩
  cases result with
  | some type => exact throughout_pure ⟨inside type rfl, later⟩
  | none =>
      apply throughout_bind
        (tidily_report tokens range "Unbound identifier" later.clean)
      rintro - after same
      refine throughout_pure ⟨?_, same ▸ later⟩
      rw [same]
      exact Nat.lt_of_lt_of_le (by decide) later.wellFormed.size

theorem yields_analyzeApply
    {function argument : TypeEnvironment → NonGenericTypeList →
      CheckM TypePointer} (functionTidily : AnalyzesTidily function)
    (argumentTidily : AnalyzesTidily argument)
    (within : Within env nonGenerics state.graph) :
    Yields (analyzeApply tokens fuel range (function env nonGenerics)
      (argument env nonGenerics)) state := by
  rw [Yields, analyzeApply]
  apply throughout_bind (functionTidily within)
  rintro functionType first ⟨insideF, laterF⟩
  have withinF := within.later laterF
  apply throughout_bind (argumentTidily withinF)
  rintro argType second ⟨insideA, laterA⟩
  have later := laterF.trans laterA
  have withinA := withinF.later laterA
  apply throughout_bind
    (tidily_read (tidily_isErrorType later.clean functionType))
  rintro isError _ ⟨rfl, -⟩
  split
  · exact (yields_static withinA (by decide)).after later
  apply throughout_bind
    (tidily_read (tidily_isErrorType later.clean argType))
  rintro isError' _ ⟨rfl, -⟩
  split
  · exact (yields_static withinA (by decide)).after later
  apply throughout_bind (tidily_makeTypeVar later.wellFormed later.clean)
  rintro resultType third ⟨insideR, laterR, -⟩
  apply throughout_bind (yields_makeFunctionType laterR.wellFormed laterR.clean
    (laterR.lt insideA) insideR)
  rintro wanted fourth ⟨insideW, laterW⟩
  have insideF' := laterW.lt (laterR.lt (laterA.lt insideF))
  apply throughout_bind (leaves_unify .invalidFunctionApply laterW.wellFormed
    laterW.clean insideW insideF')
  rintro - after last
  exact throughout_pure ⟨last.lt (laterW.lt insideR),
    later.trans (laterR.trans (laterW.trans last))⟩

theorem yields_analyzeLambda (lambdaId : Symbol)
    {body : TypeEnvironment → NonGenericTypeList → CheckM TypePointer}
    (bodyTidily : AnalyzesTidily body)
    (within : Within env nonGenerics state.graph) :
    Yields (analyzeLambda lambdaId body env nonGenerics) state := by
  rw [Yields, analyzeLambda]
  apply throughout_bind
    (tidily_makeTypeVar within.wellFormed within.clean)
  rintro argType first ⟨insideA, laterA, -⟩
  apply throughout_bind
    (bodyTidily ((within.later laterA).bindNonGeneric lambdaId insideA))
  rintro resultType second ⟨insideR, laterR⟩
  exact (yields_makeFunctionType laterR.wellFormed laterR.clean
    (laterR.lt insideA) insideR).after (laterA.trans laterR)

theorem yields_analyzeLet (letId : Symbol)
    {value body : TypeEnvironment → NonGenericTypeList → CheckM TypePointer}
    (valueTidily : AnalyzesTidily value) (bodyTidily : AnalyzesTidily body)
    (within : Within env nonGenerics state.graph) :
    Yields (analyzeLet fuel letId value body env nonGenerics) state := by
  rw [Yields, analyzeLet]
  apply throughout_bind (valueTidily within)
  rintro defnType first ⟨insideD, laterD⟩
  have withinD := within.later laterD
  apply throughout_bind (tidily_onGraph (tidily_generic withinD.wellFormed
    withinD.clean withinD.nonGenerics fuel insideD))
  rintro generic second ⟨-, insideG, laterG⟩
  exact (bodyTidily ((withinD.later laterG).bind letId insideG)).after
    (laterD.trans laterG)

theorem yields_analyzeLetRec (letId : Symbol)
    {value body : TypeEnvironment → NonGenericTypeList → CheckM TypePointer}
    (valueTidily : AnalyzesTidily value) (bodyTidily : AnalyzesTidily body)
    (within : Within env nonGenerics state.graph) :
    Yields (analyzeLetRec tokens fuel range letId value body env nonGenerics)
      state := by
  rw [Yields, analyzeLetRec]
  apply throughout_bind
    (tidily_makeTypeVar within.wellFormed within.clean)
  rintro newType first ⟨insideN, laterN, isNew⟩
  have withinN := within.later laterN
  apply throughout_bind (valueTidily (withinN.bindNonGeneric letId insideN))
  rintro defnType second ⟨insideD, laterD⟩
  apply throughout_bind (leaves_unify .inconsistentRecursion
    laterD.wellFormed laterD.clean (laterD.lt insideN) insideD)
  rintro - third laterU
  have laterNU := laterD.trans laterU
  apply throughout_bind
    (tidily_record (.rebinding newType nonGenerics) laterU.clean)
  rintro - fourth same
  rw [← same] at laterNU
  have withinU := withinN.later laterNU
  have insideU := laterNU.lt insideN
  apply throughout_bind (tidily_onGraph (tidily_generic withinU.wellFormed
    withinU.clean withinU.nonGenerics fuel insideU))
  rintro generic fifth ⟨-, insideG, laterG⟩
  -- The new type is still the variable that it was allocated as.
  have isVariable : (fifth.graph.nodes newType).type = .variable_ := by
    rw [laterG.types newType insideU, laterNU.types newType insideN, isNew]
  apply throughout_bind (tidily_onGraph
    (tidily_bind laterG.wellFormed laterG.clean isVariable insideG))
  rintro - sixth ⟨-, laterB⟩
  apply throughout_bind (tidily_record .rebound laterB.clean)
  rintro - seventh same
  rw [← same] at laterB
  have later := laterNU.trans (laterG.trans laterB)
  exact (bodyTidily ((withinN.later later).bind letId
    (later.lt insideN))).after (laterN.trans later)

theorem yields_analyzeIf {testRange : TokenRange}
    {test thenArm elseArm : TypeEnvironment → NonGenericTypeList →
      CheckM TypePointer} (testTidily : AnalyzesTidily test)
    (thenTidily : AnalyzesTidily thenArm) (elseTidily : AnalyzesTidily elseArm)
    (within : Within env nonGenerics state.graph) :
    Yields (analyzeIf tokens fuel range testRange (test env nonGenerics)
      (thenArm env nonGenerics) (elseArm env nonGenerics)) state := by
  rw [Yields, analyzeIf]
  apply throughout_bind (testTidily within)
  rintro condType first ⟨insideC, laterC⟩
  have boolean := Nat.lt_of_lt_of_le (show booleanTypeExp < 3 by decide)
    laterC.wellFormed.size
  apply throughout_bind (leaves_unify .ifConditionBoolean laterC.wellFormed
    laterC.clean insideC boolean)
  rintro - second laterU
  have withinU := within.later (laterC.trans laterU)
  apply throughout_bind (thenTidily withinU)
  rintro thenType third ⟨insideT, laterT⟩
  apply throughout_bind (elseTidily (withinU.later laterT))
  rintro elseType fourth ⟨insideE, laterE⟩
  apply throughout_bind (leaves_unify .ifBranchesSame laterE.wellFormed
    laterE.clean (laterE.lt insideT) insideE)
  rintro - after last
  exact throughout_pure ⟨last.lt (laterE.lt insideT),
    laterC.trans (laterU.trans (laterT.trans (laterE.trans last)))⟩

theorem leaves_unifyOperand {required : Option TypePointer}
    (static : required = none ∨ required = some integerTypeExp)
    (wellFormed : state.graph.WellFormed) (clean : state.graph.Clean)
    (inside : p < state.graph.size) :
    Leaves (unifyOperand tokens fuel range p required) state := by
  rcases static with rfl | rfl
  · exact throughout_pure (.refl wellFormed clean)
  · exact leaves_unify .noValidBinaryOperator wellFormed clean inside
      (Nat.lt_of_lt_of_le (by decide) wellFormed.size)

theorem yields_analyzeBinary (operator : TokenType)
    {binaryLeft binaryRight : TypeEnvironment → NonGenericTypeList →
      CheckM TypePointer} (leftTidily : AnalyzesTidily binaryLeft)
    (rightTidily : AnalyzesTidily binaryRight)
    (within : Within env nonGenerics state.graph) :
    Yields (analyzeBinary tokens fuel range operator
      (binaryLeft env nonGenerics) (binaryRight env nonGenerics)) state := by
  rw [Yields, analyzeBinary]
  apply throughout_bind (leftTidily within)
  rintro left first ⟨insideL, laterL⟩
  apply throughout_bind (rightTidily (within.later laterL))
  rintro right second ⟨insideR, laterR⟩
  split
  · exact tidily_stuck .failed
  rename_i op found
  rcases operators_static (List.mem_of_find?_eq_some found) with
    ⟨staticLeft, staticRight, result⟩
  apply throughout_bind (leaves_unifyOperand staticLeft laterR.wellFormed
    laterR.clean (laterR.lt insideL))
  rintro - third laterU
  apply throughout_bind (leaves_unifyOperand staticRight laterU.wellFormed
    laterU.clean (laterU.lt insideR))
  rintro - fourth laterV
  have later := laterU.trans laterV
  apply throughout_bind (leaves_unify .noValidBinaryOperator laterV.wellFormed
    laterV.clean (later.lt (laterR.lt insideL)) (later.lt insideR))
  rintro - after last
  have small : op.result < 3 := by
    rcases result with isInteger | isBoolean
    · rw [isInteger]
      decide
    · rw [isBoolean]
      decide
  exact throughout_pure ⟨Nat.lt_of_lt_of_le small last.wellFormed.size,
    laterL.trans (laterR.trans (later.trans last))⟩

theorem yields_analyzeTuple
    {tupleFirst tupleRest : TypeEnvironment → NonGenericTypeList →
      CheckM TypePointer} (firstTidily : AnalyzesTidily tupleFirst)
    (restTidily : AnalyzesTidily tupleRest)
    (within : Within env nonGenerics state.graph) :
    Yields (analyzeTuple (tupleFirst env nonGenerics)
      (tupleRest env nonGenerics)) state := by
  rw [Yields, analyzeTuple]
  apply throughout_bind (firstTidily within)
  rintro first middle ⟨insideF, laterF⟩
  apply throughout_bind (restTidily (within.later laterF))
  rintro rest after ⟨insideR, laterR⟩
  exact (yields_makeTupleType laterR.wellFormed laterR.clean
    (laterR.lt insideF) insideR).after (laterF.trans laterR)

theorem yields_analyzeTupleFinal
    {tupleFirst : TypeEnvironment → NonGenericTypeList → CheckM TypePointer}
    (firstTidily : AnalyzesTidily tupleFirst)
    (within : Within env nonGenerics state.graph) :
    Yields (analyzeTupleFinal (tupleFirst env nonGenerics)) state := by
  rw [Yields, analyzeTupleFinal]
  apply throughout_bind (firstTidily within)
  rintro first middle ⟨insideF, laterF⟩
  exact (yields_makeTupleFinalType laterF.wellFormed laterF.clean
    insideF).after laterF

theorem yields_analyzeInvalid (within : Within env nonGenerics state.graph) :
    Yields (analyzeInvalid tokens range) state := by
  rw [Yields, analyzeInvalid]
  apply throughout_bind
    (tidily_report tokens range "Invalid expression structure" within.clean)
  rintro - after same
  rw [← same] at within ⊢
  exact yields_static within (by decide)

theorem yields_returning {result : CheckM TypePointer}
    (yields : Yields result state) : Yields (returning result) state := by
  rw [Yields, returning]
  apply throughout_bind yields
  rintro type middle ⟨inside, later⟩
  apply throughout_bind (tidily_record (.returned type) later.clean)
  rintro - after same
  rw [← same] at inside later
  exact throughout_pure ⟨inside, later⟩

end

/-- Every call of `_Analyze` stays clean, up to where it returns or stops. -/
theorem analyze_tidily (tokens : Tokens) (fuel : Nat)
    (expression : Expression) :
    AnalyzesTidily (analyze tokens fuel expression) := by
  induction expression with
  | identifier range id =>
      exact fun _ _ _ within =>
        yields_returning (yields_analyzeIdentifier id within)
  | apply range function argument functionIh argumentIh =>
      exact fun _ _ _ within =>
        yields_returning (yields_analyzeApply functionIh argumentIh within)
  | lambda range id body bodyIh =>
      exact fun _ _ _ within =>
        yields_returning (yields_analyzeLambda id bodyIh within)
  | let_ range id value body valueIh bodyIh =>
      exact fun _ _ _ within =>
        yields_returning (yields_analyzeLet id valueIh bodyIh within)
  | letrec range id value body valueIh bodyIh =>
      exact fun _ _ _ within =>
        yields_returning (yields_analyzeLetRec id valueIh bodyIh within)
  | if_ range test thenArm elseArm testIh thenIh elseIh =>
      exact fun _ _ _ within =>
        yields_returning (yields_analyzeIf testIh thenIh elseIh within)
  | binary range operator left right leftIh rightIh =>
      exact fun _ _ _ within =>
        yields_returning (yields_analyzeBinary operator leftIh rightIh within)
  | unary range operator arg argIh =>
      exact fun _ _ _ within => yields_returning (argIh within)
  | tuple range first rest length firstIh restIh =>
      exact fun _ _ _ within =>
        yields_returning (yields_analyzeTuple firstIh restIh within)
  | tupleFinal range first firstIh =>
      exact fun _ _ _ within =>
        yields_returning (yields_analyzeTupleFinal firstIh within)
  | integerConstant range literal | true_ range | false_ range =>
      exact fun _ _ _ within =>
        yields_returning (yields_static within (by decide))
  | invalid range | error range =>
      exact fun _ _ _ within => yields_returning (yields_analyzeInvalid within)

/-! ## The whole run -/

/-- The state in which `GetExpressionType` starts. -/
def checkStart : CheckState :=
  ⟨staticGraph, [], []⟩

/-- What `GetExpressionType` runs, then `FormatTypeExpression`. -/
def formatExpressionType (tokens : Tokens) (fuel : Nat)
    (expression : Expression) : CheckM String := do
  let type ← analyze tokens fuel expression [] []
  onGraph (formatTypeExpression fuel type)

/--
Between its passes, a run of `GetExpressionType` and `FormatTypeExpression`
finds no mark in any variable or generic variable: not at the start, not after
any of its steps, however the run ends.
-/
theorem formatExpressionType_unmarked (tokens : Tokens) (fuel : Nat)
    (expression : Expression) :
    ∃ moments,
      CheckRuns (formatExpressionType tokens fuel expression) checkStart
          moments ∧
        (∀ moment ∈ checkStart :: moments, ∀ v < moment.graph.size,
          (moment.graph.nodes v).type = .variable_ ∨
              (moment.graph.nodes v).type = .genericVariable →
            (moment.graph.nodes v).second = .null) ∧
        ∀ text after,
          formatExpressionType tokens fuel expression checkStart =
              (.ok text, after) →
            moments.getLastD checkStart = after := by
  have within : Within [] [] checkStart.graph :=
    ⟨TypeGraph.wellFormed_static, TypeGraph.clean_static, nofun, nofun⟩
  have tidy : Tidily (formatExpressionType tokens fuel expression)
      (fun _ _ => True) checkStart := by
    rw [formatExpressionType]
    apply throughout_bind (analyze_tidily tokens fuel expression within)
    rintro type middle ⟨inside, later⟩
    exact throughout_mono (tidily_read
      (tidily_format later.wellFormed later.clean fuel inside))
      fun _ _ _ => trivial
  rcases tidy with ⟨moments, runs, clean, -⟩
  refine ⟨moments, runs, ?_, ?_⟩
  · exact List.forall_mem_cons.mpr ⟨TypeGraph.clean_static, clean⟩
  · exact fun text after returns =>
      runs.last (fun _ _ _ _ _ _ => StepRuns.last) returns

end Millie.Types
