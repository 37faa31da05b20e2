import Millie.Types.Termination

/-!
# Runs of a unification with enough fuel

With enough fuel `_UnifyImpl` carries out the unification of its two types, or
stops at the first failure that it cannot report.
-/

namespace Millie.Types

open Relation Links Weakest
open Millie.Syntax

/-! ## Fuel -/

section

variable {graph after : TypeGraph} {p q r s : TypePointer} {fuel : Nat}

/-- Enough fuel for every walk and every search through a type of the graph. -/
structure TypeGraph.Fed (graph : TypeGraph) (fuel : Nat) : Prop where
  walk : ∀ p < graph.size, ∀ stop, ¬StarvedWalk graph fuel p stop
  search : ∀ p < graph.size, ∀ stop, ¬StarvedSearch graph fuel p stop

theorem TypeGraph.Regular.fed (regular : graph.Regular) :
    ∃ bound, ∀ fuel ≥ bound, graph.Fed fuel := by
  rcases regular.ranked with ⟨rank, ranks⟩
  rcases exists_bound rank graph.size with ⟨bound, below⟩
  have from_ : ∀ p < graph.size, RanksFrom graph p rank :=
    fun p inside r s path link =>
      ranks r s ⟨regular.wellFormed.reaches_lt inside path, link⟩
  refine ⟨bound + 1, fun fuel enough => ⟨?_, ?_⟩⟩
  · rintro p inside stop ⟨-, least⟩
    have := least rank (from_ p inside)
    have := below p inside
    omega
  · rintro p inside stop ⟨-, least⟩
    have := least regular.clean.selfFree rank (from_ p inside)
    have := below p inside
    omega

theorem Prunes.returns (prunes : Prunes graph p q) :
    ∃ bound, ∀ fuel ≥ bound, pruneTypeExp fuel p graph = .ok (q, graph) := by
  suffices returns : ∃ bound, ∀ fuel ≥ bound,
      wpExcept (fun _ => False) (pruneTypeExp fuel p)
        (fun r after => r = q ∧ after = graph) graph by
    rcases returns with ⟨bound, returns⟩
    refine ⟨bound, fun fuel enough => ?_⟩
    rcases returns_of_wpExcept (returns fuel enough) fun _ => id with
      ⟨_, _, runs, rfl, rfl⟩
    exact runs
  rcases prunes with ⟨path, ended⟩
  induction path using ReflTransGen.head_induction_on with
  | refl =>
      refine ⟨1, fun fuel enough => ?_⟩
      cases fuel with
      | zero => cases enough
      | succ fuel =>
          rw [pruneTypeExp, wpExcept_bind, wp_node]
          split
          · rename_i r type instance_
            exact absurd ⟨type, instance_⟩ (ended r)
          · exact ⟨rfl, rfl⟩
  | head first _ ih =>
      rcases ih with ⟨bound, returns⟩
      refine ⟨bound + 1, fun fuel enough => ?_⟩
      cases fuel with
      | zero => cases enough
      | succ fuel =>
          rw [pruneTypeExp, wpExcept_bind, wp_node, first.1, first.2]
          exact returns fuel (Nat.le_of_succ_le_succ enough)

/-- A type that is pruned prunes to itself. -/
theorem Prunes.eq_of_ended (prunes : Prunes graph p q)
    (ended : ∀ r, ¬graph.Bound p r) : q = p := by
  rcases prunes.path.cases_head with same | ⟨r, bound, -⟩
  · exact same.symm
  · exact absurd bound (ended r)

theorem TypeGraph.Fed.prune (fed : graph.Fed fuel) (inside : p < graph.size)
    (stop : Stop) : ¬Starved graph fuel p stop := fun starved =>
  fed.walk p inside stop
    ⟨starved.1, fun rank ranks => Nat.le_succ_of_le (starved.2 rank ranks)⟩

end

/-! ## Reporting a failure -/

/-- There are names for the variables of two types wherever they fail to unify. -/
def NamesSuffice (one two : TypePointer) (moments : List TypeGraph) : Prop :=
  ∀ moment ∈ moments, moment.Nameable one ∧ moment.Nameable two

/-- A context for two types; only the condition of an if is not shown a second. -/
structure Reporting (one two : TypePointer) (context : UnifyContext) :
    Prop where
  originalOne : context.originalOne = one
  originalTwo : context.originalTwo = two
  condition : context.errorCode = .ifConditionBoolean →
    two = booleanTypeExp

section

variable {graph : TypeGraph} {one two p : TypePointer} {fuel : Nat}
  {context : UnifyContext} {state : CheckState} {tokens : Tokens}

theorem Reporting.selfRecursive (reporting : Reporting one two context) :
    Reporting one two { context with errorCode := .selfRecursive } :=
  ⟨reporting.originalOne, reporting.originalTwo, nofun⟩

theorem NamesSuffice.nil (one two : TypePointer) : NamesSuffice one two [] :=
  nofun

theorem NamesSuffice.single_iff :
    NamesSuffice one two [graph] ↔ graph.Nameable one ∧ graph.Nameable two :=
  List.forall_mem_singleton

theorem NamesSuffice.append_iff {first second : List TypeGraph} :
    NamesSuffice one two (first ++ second) ↔
      NamesSuffice one two first ∧ NamesSuffice one two second :=
  List.forall_mem_append

/-- A static type has no variables. -/
theorem TypeGraph.WellFormed.nameable_boolean (wellFormed : graph.WellFormed) :
    graph.Nameable booleanTypeExp := by
  have none_ : graph.openNodes booleanTypeExp = ∅ := TypeGraph.openNodes_none
    (by simp [TypeGraph.Open, TypeExp.IsVariable, wellFormed.boolean])
    (by simp [TypeGraph.Link, wellFormed.boolean])
  rw [TypeGraph.Nameable, none_, Set.ncard_empty]
  exact Nat.zero_le _

theorem formatTypeExpression_runs (regular : graph.Regular)
    (fed : graph.Fed fuel) (inside : p < graph.size) :
    wpExcept (fun _ => ¬graph.Nameable p) (formatTypeExpression fuel p)
      (fun _ after => after = graph ∧ graph.Nameable p) graph := by
  apply wpExcept_mono (formatTypeExpression_spec regular.wellFormed
    regular.clean fuel inside) fun _ _ => id
  rintro stop (⟨-, few⟩ | starved)
  · rw [Set.empty_union] at few
    exact Nat.not_le_of_lt few
  · exact absurd starved (fed.walk p inside stop)

theorem reportUnificationFailure_runs (regular : state.graph.Regular)
    (fed : state.graph.Fed fuel) (insideOne : one < state.graph.size)
    (insideTwo : two < state.graph.size)
    (reporting : Reporting one two context) :
    wp (fun _ => ¬NamesSuffice one two [state.graph])
      (reportUnificationFailure tokens fuel context)
      (fun _ after => NamesSuffice one two [state.graph] ∧
        after.graph = state.graph) state := by
  have message : wpExcept (fun _ => ¬NamesSuffice one two [state.graph])
      (unificationMessage fuel context)
      (fun _ after => after = state.graph ∧
        NamesSuffice one two [state.graph]) state.graph := by
    rw [unificationMessage, wpExcept_bind, reporting.originalOne,
      reporting.originalTwo, NamesSuffice.single_iff]
    apply wpExcept_mono (formatTypeExpression_runs regular fed insideOne) ?_
      fun _ => mt And.left
    rintro argOne graph ⟨rfl, nameOne⟩
    cases code : context.errorCode with
    | ifConditionBoolean =>
        rw [reporting.condition code]
        exact ⟨rfl, nameOne, regular.wellFormed.nameable_boolean⟩
    | _ =>
        dsimp only
        rw [wpExcept_bind]
        apply wpExcept_mono (formatTypeExpression_runs regular fed insideTwo)
          ?_ fun _ => mt And.right
        rintro argTwo graph ⟨rfl, nameTwo⟩
        exact ⟨rfl, nameOne, nameTwo⟩
  rw [reportUnificationFailure, wp_bind]
  apply wp_onGraph_stopped message fun _ => id
  rintro text graph ⟨rfl, nameable⟩
  exact ⟨nameable, rfl⟩

/-- A variable that would become part of itself. -/
theorem unifyVariable_recursive {a b : TypePointer}
    (regular : state.graph.Regular) (fed : state.graph.Fed fuel)
    (insideOne : one < state.graph.size) (insideTwo : two < state.graph.size)
    (insideB : b < state.graph.size) (reporting : Reporting one two context)
    (distinct : a ≠ b) (contained : state.graph.Reaches b a) :
    wp (fun _ => ¬NamesSuffice one two [state.graph])
      (unifyVariable tokens fuel context a b)
      (fun other after => NamesSuffice one two [state.graph] ∧
        after.graph = state.graph ∧ Reporting one two other) state := by
  rw [unifyVariable, if_neg distinct, wp_bind]
  apply wp_onGraph_stopped (isTypeContainedWithin_spec regular.wellFormed
    (regular.clean.searchable a) fuel b insideB)
    fun reason starved => absurd starved (fed.search b insideB reason)
  rintro found graph ⟨rfl, reached⟩
  rw [if_pos (reached.mpr contained), wp_bind]
  apply wp_mono (reportUnificationFailure_runs regular fed insideOne insideTwo
    reporting.selfRecursive) ?_ fun _ => id
  rintro - after ⟨nameable, same⟩
  exact ⟨nameable, same, reporting.selfRecursive⟩

/-- A variable that gets an instance. -/
theorem unifyVariable_binds {a b : TypePointer} {always : CheckState → Prop}
    (regular : state.graph.Regular) (fed : state.graph.Fed fuel)
    (insideB : b < state.graph.size) (apart : ¬state.graph.Reaches b a) :
    wp always (unifyVariable tokens fuel context a b)
      (fun other after => after.graph = state.graph.bind a b ∧
        other = context) state := by
  have distinct : a ≠ b := by
    rintro rfl
    exact apart .refl
  rw [unifyVariable, if_neg distinct, wp_bind]
  apply wp_onGraph_stopped (isTypeContainedWithin_spec regular.wellFormed
    (regular.clean.searchable a) fuel b insideB)
    fun reason starved => absurd starved (fed.search b insideB reason)
  rintro found graph ⟨rfl, reached⟩
  rw [if_neg (mt reached.mp apart)]
  exact ⟨rfl, rfl⟩

end

/-! ## Carrying out a unification -/

section

variable {tokens : Tokens} {fuel : Nat} {context : UnifyContext}
  {state : CheckState} {p q r s : TypePointer} {always : CheckState → Prop}
  {post : UnifyContext → CheckState → Prop}

end

/-! ## Carrying out a unification -/

section

variable {tokens : Tokens} {fuel : Nat} {context : UnifyContext}
  {state : CheckState} {p q r s a b : TypePointer}
  {always : CheckState → Prop} {post : UnifyContext → CheckState → Prop}

/-- Unifying two types is unifying what they are when pruned. -/
theorem unifyImpl_prunes (tokens : Tokens) {graph : TypeGraph}
    (left : Prunes graph p r) (right : Prunes graph q s) :
    ∃ bound, ∀ fuel ≥ bound, ∀ context state, state.graph = graph →
      unifyImpl tokens fuel context p q state =
        unifyImpl tokens fuel context r s state := by
  have step : ∀ {α : Type} {step : GraphM α} {next : α → CheckM UnifyContext}
      {state : CheckState} {value : α},
      step state.graph = .ok (value, state.graph) →
      (onGraph step >>= next) state = next value state := by
    intro α step next state value returns
    apply bind_kept
    rw [onGraph, returns]
  rcases left.returns with ⟨boundP, pruneP⟩
  rcases right.returns with ⟨boundQ, pruneQ⟩
  rcases Prunes.returns ⟨.refl, left.ended⟩ with ⟨boundR, pruneR⟩
  rcases Prunes.returns ⟨.refl, right.ended⟩ with ⟨boundS, pruneS⟩
  refine ⟨boundP + boundQ + boundR + boundS + 1, ?_⟩
  rintro fuel enough context state rfl
  cases fuel with
  | zero => cases enough
  | succ fuel =>
      rw [unifyImpl, unifyImpl, step (pruneP fuel (by omega)),
        step (pruneQ fuel (by omega)), step (pruneR fuel (by omega)),
        step (pruneS fuel (by omega))]

/-- Unifying a variable. -/
theorem wp_unifyImpl_variable (regular : state.graph.Regular)
    (fed : state.graph.Fed fuel) (insideP : p < state.graph.size)
    (insideQ : q < state.graph.size) (oriented : Oriented state.graph p q a b)
    (unbound : state.graph.Unbound a)
    (noError : (state.graph.nodes b).type ≠ .error)
    (pruned : ∀ r, ¬state.graph.Bound b r)
    (holds : wp always (unifyVariable tokens fuel context a b) post state) :
    wp always (unifyImpl tokens (fuel + 1) context p q) post state := by
  have ended : (∀ r, ¬state.graph.Bound p r) ∧
      ∀ r, ¬state.graph.Bound q r := by
    have endedA : ∀ r, ¬state.graph.Bound a r := fun r bound => by
      have none_ := unbound.2
      rw [bound.2] at none_
      cases none_
    rcases oriented.either with ⟨rfl, rfl⟩ | ⟨rfl, rfl⟩
    · exact ⟨endedA, pruned⟩
    · exact ⟨pruned, endedA⟩
  have isVariable : (state.graph.nodes p).type = .variable_ ∨
      (state.graph.nodes q).type = .variable_ := by
    rcases oriented.either with ⟨rfl, rfl⟩ | ⟨rfl, rfl⟩
    · exact .inl unbound.1
    · exact .inr unbound.1
  have noErrors : ¬((state.graph.nodes p).type = .error ∨
      (state.graph.nodes q).type = .error) := by
    have noErrorA : (state.graph.nodes a).type ≠ .error := by
      rw [unbound.1]
      exact nofun
    rcases oriented.either with ⟨rfl, rfl⟩ | ⟨rfl, rfl⟩
    · exact not_or.mpr ⟨noErrorA, noError⟩
    · exact not_or.mpr ⟨noError, noErrorA⟩
  have here : ∀ {r s}, Prunes state.graph p r → Prunes state.graph q s →
      r = p ∧ s = q := fun left right =>
    ⟨left.eq_of_ended ended.1, right.eq_of_ended ended.2⟩
  apply wp_unifyImpl regular.wellFormed insideP insideQ
  · rintro reason (starved | starved)
    · exact absurd starved (fed.prune insideP reason)
    · exact absurd starved (fed.prune insideQ reason)
  · intro r s left right isError
    rcases here left right with ⟨rfl, rfl⟩
    exact absurd isError noErrors
  · intro r s a' b' left right _ _ oriented'
    rcases here left right with ⟨rfl, rfl⟩
    rcases oriented.unique oriented' with ⟨rfl, rfl⟩
    exact holds
  · intro r s left right _ variableR variableS _
    rcases here left right with ⟨rfl, rfl⟩
    exact absurd isVariable (not_or.mpr ⟨variableR, variableS⟩)
  · intro r s left right _ variableR same
    rcases here left right with ⟨rfl, rfl⟩
    exact absurd isVariable (not_or.mpr ⟨variableR, same ▸ variableR⟩)

/-- Unifying two types that are no variables. -/
theorem wp_unifyImpl_plain (regular : state.graph.Regular)
    (fed : state.graph.Fed fuel) (insideP : p < state.graph.size)
    (insideQ : q < state.graph.size)
    (variableP : (state.graph.nodes p).type ≠ .variable_)
    (variableQ : (state.graph.nodes q).type ≠ .variable_)
    (noErrors : (state.graph.nodes p).type ≠ .error ∧
      (state.graph.nodes q).type ≠ .error)
    (clash : (state.graph.nodes p).type ≠ (state.graph.nodes q).type →
      wp always (reportUnificationFailure tokens fuel context)
        (fun _ => post context) state)
    (same : (state.graph.nodes p).type = (state.graph.nodes q).type →
      wp always (unifyArguments (unifyImpl tokens fuel) context
        (state.graph.nodes p) (state.graph.nodes q)) post state) :
    wp always (unifyImpl tokens (fuel + 1) context p q) post state := by
  have here : ∀ {r s}, Prunes state.graph p r → Prunes state.graph q s →
      r = p ∧ s = q := fun left right =>
    ⟨left.eq_of_ended fun _ bound => variableP bound.1,
      right.eq_of_ended fun _ bound => variableQ bound.1⟩
  apply wp_unifyImpl regular.wellFormed insideP insideQ
  · rintro reason (starved | starved)
    · exact absurd starved (fed.prune insideP reason)
    · exact absurd starved (fed.prune insideQ reason)
  · intro r s left right isError
    rcases here left right with ⟨rfl, rfl⟩
    exact absurd isError (not_or.mpr noErrors)
  · intro r s a b left right _ _ oriented
    rcases here left right with ⟨rfl, rfl⟩
    cases oriented with
    | swapped second => exact absurd second variableQ
    | straight _ first => exact absurd first variableP
  · intro r s left right _ _ _ different
    rcases here left right with ⟨rfl, rfl⟩
    exact clash different
  · intro r s left right _ _ kinds
    rcases here left right with ⟨rfl, rfl⟩
    exact same kinds

/--
With enough fuel `_UnifyImpl` does what a unification does, or stops because it
cannot report one of its failures.
-/
def CarriesOut (tokens : Tokens) (one two : TypePointer) (graph : TypeGraph)
    (p q : TypePointer) (moments : List TypeGraph) (after : TypeGraph) : Prop :=
  ∃ bound, ∀ fuel ≥ bound, ∀ {context state}, state.graph = graph →
    Reporting one two context →
    wp (fun _ => ¬NamesSuffice one two moments)
      (unifyImpl tokens fuel context p q)
      (fun other final => NamesSuffice one two moments ∧ final.graph = after ∧
        Reporting one two other) state

theorem CarriesOut.of_fed {tokens : Tokens} {one two : TypePointer}
    {graph after : TypeGraph} {moments : List TypeGraph}
    (regular : graph.Regular)
    (holds : ∀ {fuel context state}, state.graph = graph →
      graph.Fed fuel → Reporting one two context →
      wp (fun _ => ¬NamesSuffice one two moments)
        (unifyImpl tokens (fuel + 1) context p q)
        (fun other final => NamesSuffice one two moments ∧
          final.graph = after ∧ Reporting one two other) state) :
    CarriesOut tokens one two graph p q moments after := by
  rcases regular.fed with ⟨bound, fed⟩
  refine ⟨bound + 1, fun fuel enough => ?_⟩
  cases fuel with
  | zero => cases enough
  | succ fuel =>
      intro context state same reporting
      exact holds same (fed fuel (Nat.le_of_succ_le_succ enough)) reporting

namespace Unifies

/-- A unification carries itself out. -/
theorem carriesOut (tokens : Tokens) {one two : TypePointer}
    {graph after : TypeGraph} {moments : List TypeGraph}
    (unifies : Unifies graph p q moments after) (regular : graph.Regular)
    (insideP : p < graph.size) (insideQ : q < graph.size)
    (insideOne : one < graph.size) (insideTwo : two < graph.size) :
    CarriesOut tokens one two graph p q moments after := by
  induction unifies with
  | prunes left right pruned ih =>
      rcases unifyImpl_prunes tokens left right with ⟨boundP, same⟩
      rcases ih regular
        (regular.wellFormed.reaches_lt insideP left.reaches)
        (regular.wellFormed.reaches_lt insideQ right.reaches)
        insideOne insideTwo with ⟨bound, holds⟩
      refine ⟨boundP + bound, fun fuel enough context state here reporting => ?_⟩
      rw [wp, same fuel (by omega) context state here]
      exact holds fuel (by omega) here reporting
  | @bails graph p q isError =>
      apply CarriesOut.of_fed regular
      rintro fuel context state rfl fed reporting
      have ended : ∀ {p}, (state.graph.nodes p).type = .error →
          ∀ r, ¬state.graph.Bound p r := by
        intro p isError r bound
        rw [bound.1] at isError
        cases isError
      have errors : ∀ {r s}, Prunes state.graph p r → Prunes state.graph q s →
          (state.graph.nodes r).type = .error ∨
            (state.graph.nodes s).type = .error := by
        intro r s left right
        rcases isError with isError | isError
        · exact .inl (left.eq_of_ended (ended isError) ▸ isError)
        · exact .inr (right.eq_of_ended (ended isError) ▸ isError)
      apply wp_unifyImpl regular.wellFormed insideP insideQ
      · rintro reason (starved | starved)
        · exact absurd starved (fed.prune insideP reason)
        · exact absurd starved (fed.prune insideQ reason)
      · exact fun _ _ _ => ⟨.nil one two, rfl, reporting⟩
      · intro r s a b left right errorR errorS
        exact absurd (errors left right) (not_or.mpr ⟨errorR, errorS⟩)
      · intro r s left right noErrors
        exact absurd (errors left right) (not_or.mpr noErrors)
      · intro r s left right errorR _ same
        exact absurd (errors left right) (not_or.mpr ⟨errorR, same ▸ errorR⟩)
  | @same graph p unbound =>
      apply CarriesOut.of_fed regular
      rintro fuel context state rfl fed reporting
      have ended : ∀ r, ¬state.graph.Bound p r := fun r bound => by
        have none_ := unbound.2
        rw [bound.2] at none_
        cases none_
      apply wp_unifyImpl_variable regular fed insideP insideQ
        (.swapped unbound.1) unbound (by simp [unbound.1]) ended
      rw [unifyVariable, if_pos rfl]
      exact ⟨.nil one two, rfl, reporting⟩
  | @recursive graph p q a b oriented unbound distinct pruned contained =>
      apply CarriesOut.of_fed regular
      rintro fuel context state rfl fed reporting
      have insideB : b < state.graph.size := by
        rcases oriented.either with ⟨rfl, rfl⟩ | ⟨rfl, rfl⟩
        · exact insideQ
        · exact insideP
      have noError : (state.graph.nodes b).type ≠ .error := by
        intro isError
        have here := regular.wellFormed.onlyError b insideB isError
        have terminal : ∀ r, ¬state.graph.Link b r := by
          simp [TypeGraph.Link, here, regular.wellFormed.error]
        exact distinct (reaches_of_terminal terminal contained)
      apply wp_unifyImpl_variable regular fed insideP insideQ oriented unbound
        noError pruned
      exact unifyVariable_recursive regular fed insideOne insideTwo insideB
        reporting distinct contained
  | @binds graph p q a b oriented unbound noError pruned apart =>
      apply CarriesOut.of_fed regular
      rintro fuel context state rfl fed reporting
      have insideB : b < state.graph.size := by
        rcases oriented.either with ⟨rfl, rfl⟩ | ⟨rfl, rfl⟩
        · exact insideQ
        · exact insideP
      apply wp_unifyImpl_variable regular fed insideP insideQ oriented unbound
        noError pruned
      apply wp_mono (unifyVariable_binds regular fed insideB apart) ?_
        fun _ => id
      rintro other final ⟨bound, rfl⟩
      exact ⟨.nil one two, bound, reporting⟩
  | @clash graph p q left right noErrors different =>
      apply CarriesOut.of_fed regular
      rintro fuel context state rfl fed reporting
      apply wp_unifyImpl_plain regular fed insideP insideQ left right noErrors
      · intro _
        apply wp_mono (reportUnificationFailure_runs regular fed insideOne
          insideTwo reporting) ?_ fun _ => id
        rintro - final ⟨nameable, same⟩
        exact ⟨nameable, same, reporting⟩
      · exact fun same => absurd same different
  | @leaves graph p q type same =>
      apply CarriesOut.of_fed regular
      rintro fuel context state rfl fed reporting
      have shaped := regular.wellFormed.shaped p insideP
      have blank : (state.graph.nodes p).first = none ∧
          (state.graph.nodes p).second = .null := by
        have clean := regular.clean p insideP
        generalize state.graph.nodes p = exp at shaped type clean
        cases shaped with
        | unbound | bound | error | func | tuple | tupleFinal =>
            rcases type with type | type | type <;> cases type
        | generic scratch =>
            exact ⟨rfl, clean (by simp [TypeExp.IsVariable])⟩
        | int | bool => exact ⟨rfl, rfl⟩
      have plain : (state.graph.nodes p).type ≠ .variable_ ∧
          (state.graph.nodes p).type ≠ .error := by
        rcases type with type | type | type <;>
          simp [type]
      apply wp_unifyImpl_plain regular fed insideP insideQ plain.1
        (same ▸ plain.1) ⟨plain.2, same ▸ plain.2⟩
      · exact fun different => absurd same different
      · intro _
        rw [unifyArguments, blank.1, blank.2]
        exact ⟨.nil one two, rfl, reporting⟩
  | @both graph middle after kind join p q a b c d first second joins left right
      firsts seconds firstIh secondIh =>
      have linkP := joins.links left
      have linkQ := joins.links right
      have insideA := regular.wellFormed.link_lt insideP linkP.1
      have insideC := regular.wellFormed.link_lt insideQ linkQ.1
      have size := firsts.size_eq
      rcases firstIh regular insideA insideC insideOne insideTwo with
        ⟨boundFirst, carriesFirst⟩
      rcases secondIh (firsts.regular regular insideA insideC)
        (size ▸ regular.wellFormed.link_lt insideP linkP.2)
        (size ▸ regular.wellFormed.link_lt insideQ linkQ.2)
        (size ▸ insideOne) (size ▸ insideTwo) with ⟨boundSecond, carriesSecond⟩
      rcases regular.fed with ⟨bound, fed⟩
      refine ⟨bound + boundFirst + boundSecond + 1, fun fuel enough => ?_⟩
      cases fuel with
      | zero => cases enough
      | succ fuel =>
          rintro context state rfl reporting
          have plainP : (state.graph.nodes p).type ≠ .variable_ ∧
              (state.graph.nodes p).type ≠ .error := by
            rw [left]
            cases joins <;> simp
          have kinds : (state.graph.nodes p).type =
              (state.graph.nodes q).type := by
            rw [left, right]
          apply wp_unifyImpl_plain regular (fed fuel (by omega)) insideP insideQ
            plainP.1 (kinds ▸ plainP.1) ⟨plainP.2, kinds ▸ plainP.2⟩
          · exact fun different => absurd kinds different
          · intro _
            rw [left, right, NamesSuffice.append_iff]
            change wp _ (unifyImpl tokens fuel context a c >>=
              fun context => unifyImpl tokens fuel context b d) _ state
            rw [wp_bind]
            apply wp_mono (carriesFirst fuel (by omega) rfl reporting) ?_
              fun _ => mt And.left
            rintro other between ⟨nameable, here, reporting⟩
            apply wp_mono (carriesSecond fuel (by omega) here reporting) ?_
              fun _ => mt And.right
            rintro other final ⟨nameable', there, reporting⟩
            exact ⟨⟨nameable, nameable'⟩, there, reporting⟩
  | @final graph after p q a c moments left right firsts ih =>
      rcases ih regular
        (regular.wellFormed.link_lt insideP (.inl (by rw [left])))
        (regular.wellFormed.link_lt insideQ (.inl (by rw [right])))
        insideOne insideTwo with ⟨boundFirst, carriesFirst⟩
      rcases regular.fed with ⟨bound, fed⟩
      refine ⟨bound + boundFirst + 1, fun fuel enough => ?_⟩
      cases fuel with
      | zero => cases enough
      | succ fuel =>
          rintro context state rfl reporting
          apply wp_unifyImpl_plain regular (fed fuel (by omega)) insideP insideQ
            (by simp [left]) (by simp [right])
            ⟨by simp [left], by simp [right]⟩
          · exact fun different => absurd (by rw [left, right]) different
          · intro _
            rw [left, right]
            change wp _ (unifyImpl tokens fuel context a c >>=
              fun context => pure context) _ state
            rw [wp_bind]
            exact wp_mono (carriesFirst fuel (by omega) rfl reporting)
              (fun _ _ => id) fun _ => id

end Unifies

end

end Millie.Types
