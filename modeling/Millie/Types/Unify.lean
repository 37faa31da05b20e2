import Millie.Types.Check
import Millie.Types.Format
import Millie.Types.Progress

/-!
# Unification

`Unifies` describes what a unification that returns has done to the graph, one
rule for each way through `_UnifyImpl`; facts about unification are proved by
induction on it.
-/

namespace Millie.Types

open Relation Links Weakest
open Millie.Syntax

/-! ## Steps of the checker -/

section

variable {always : CheckState → Prop} {state : CheckState}

/-- A step on the graph, from what it does there and why it stops. -/
theorem wp_onGraph_stopped {α : Type} {step : GraphM α} {fail : Stop → Prop}
    {done : α → TypeGraph → Prop} {post : α → CheckState → Prop}
    (holds : wpExcept fail step done state.graph)
    (stopped : ∀ reason, fail reason → always state)
    (returned : ∀ value graph, done value graph →
      post value { state with graph := graph }) :
    wp always (onGraph step) post state := by
  unfold wp onGraph
  unfold wpExcept at holds
  revert holds
  cases step state.graph with
  | ok result => exact returned result.1 result.2
  | error reason => exact stopped reason

/-- A step on the graph, from what it does there. -/
theorem wp_onGraph {α : Type} {step : GraphM α} {fail : Stop → Prop}
    {done : α → TypeGraph → Prop} {post : α → CheckState → Prop}
    (holds : wpExcept fail step done state.graph) (kept : always state)
    (returned : ∀ value graph, done value graph →
      post value { state with graph := graph }) :
    wp always (onGraph step) post state :=
  wp_onGraph_stopped holds (fun _ _ => kept) returned

@[simp]
theorem wp_record (event : TypeGraph → CheckEvent)
    (post : Unit → CheckState → Prop) :
    wp always (record event) post state ↔
      post () { state with log := state.log ++ [event state.graph] } :=
  Iff.rfl

/-- Reading a node changes nothing. -/
theorem wp_onGraph_node (type : TypePointer)
    (post : TypeExp → CheckState → Prop) :
    wp always (onGraph (node type)) post state ↔
      post (state.graph.nodes type) state :=
  Iff.rfl

@[simp]
theorem wp_onGraph_setVarInstance (type instance_ : TypePointer)
    (post : Unit → CheckState → Prop) :
    wp always (onGraph (setVarInstance type instance_)) post state ↔
      post () { state with graph := state.graph.bind type instance_ } :=
  Iff.rfl

@[simp]
theorem wp_onGraph_allocate (contents : TypeExp)
    (post : TypePointer → CheckState → Prop) :
    wp always (onGraph (allocate contents)) post state ↔
      post state.graph.size { state with graph := state.graph.add contents } :=
  Iff.rfl

theorem wp_isErrorType (type : TypePointer) (post : Bool → CheckState → Prop) :
    wp always (onGraph (isErrorType type)) post state ↔
      post (type = errorTypeExp || (state.graph.nodes type).type = .error)
        state :=
  Iff.rfl

end

/-! ## What a unification does -/

/-- The variable that gets the other type as its instance. -/
inductive Oriented (graph : TypeGraph) :
    TypePointer → TypePointer → TypePointer → TypePointer → Prop where
  | swapped {p q : TypePointer} (second : (graph.nodes q).type = .variable_) :
      Oriented graph p q q p
  | straight {p q : TypePointer} (second : (graph.nodes q).type ≠ .variable_)
      (first : (graph.nodes p).type = .variable_) : Oriented graph p q p q

/--
What unifying two types does, and the graphs in which it reports a failure.  The
types of the last four rules are pruned and no variables.
-/
inductive Unifies : TypeGraph → TypePointer → TypePointer → List TypeGraph →
    TypeGraph → Prop where
  | prunes {graph after : TypeGraph} {p q r s : TypePointer}
      {moments : List TypeGraph} (left : Prunes graph p r)
      (right : Prunes graph q s) (pruned : Unifies graph r s moments after) :
      Unifies graph p q moments after
  | bails {graph : TypeGraph} {p q : TypePointer}
      (isError : (graph.nodes p).type = .error ∨
        (graph.nodes q).type = .error) : Unifies graph p q [] graph
  | same {graph : TypeGraph} {p : TypePointer} (unbound : graph.Unbound p) :
      Unifies graph p p [] graph
  | recursive {graph : TypeGraph} {p q a b : TypePointer}
      (oriented : Oriented graph p q a b) (unbound : graph.Unbound a)
      (distinct : a ≠ b) (pruned : ∀ r, ¬graph.Bound b r)
      (contained : graph.Reaches b a) : Unifies graph p q [graph] graph
  | binds {graph : TypeGraph} {p q a b : TypePointer}
      (oriented : Oriented graph p q a b) (unbound : graph.Unbound a)
      (noError : (graph.nodes b).type ≠ .error)
      (pruned : ∀ r, ¬graph.Bound b r)
      (apart : ¬graph.Reaches b a) : Unifies graph p q [] (graph.bind a b)
  | clash {graph : TypeGraph} {p q : TypePointer}
      (left : (graph.nodes p).type ≠ .variable_)
      (right : (graph.nodes q).type ≠ .variable_)
      (noErrors : (graph.nodes p).type ≠ .error ∧
        (graph.nodes q).type ≠ .error)
      (different : (graph.nodes p).type ≠ (graph.nodes q).type) :
      Unifies graph p q [graph] graph
  | leaves {graph : TypeGraph} {p q : TypePointer}
      (type : (graph.nodes p).type = .int ∨ (graph.nodes p).type = .bool ∨
        (graph.nodes p).type = .genericVariable)
      (same : (graph.nodes p).type = (graph.nodes q).type) :
      Unifies graph p q [] graph
  | both {graph middle after : TypeGraph} {kind : TypeExpType}
      {join : Ty Leaf → Ty Leaf → Ty Leaf} {p q a b c d : TypePointer}
      {first second : List TypeGraph} (joins : Joins kind join)
      (left : graph.nodes p = ⟨kind, some a, .type b⟩)
      (right : graph.nodes q = ⟨kind, some c, .type d⟩)
      (firsts : Unifies graph a c first middle)
      (seconds : Unifies middle b d second after) :
      Unifies graph p q (first ++ second) after
  | final {graph after : TypeGraph} {p q a c : TypePointer}
      {moments : List TypeGraph}
      (left : graph.nodes p = ⟨.tupleFinal, some a, .null⟩)
      (right : graph.nodes q = ⟨.tupleFinal, some c, .null⟩)
      (firsts : Unifies graph a c moments after) :
      Unifies graph p q moments after

namespace Oriented

variable {graph : TypeGraph} {p q a b : TypePointer}

theorem either (oriented : Oriented graph p q a b) :
    a = p ∧ b = q ∨ a = q ∧ b = p := by
  cases oriented with
  | swapped => exact .inr ⟨rfl, rfl⟩
  | straight => exact .inl ⟨rfl, rfl⟩

theorem unique {c d : TypePointer} (oriented : Oriented graph p q a b)
    (other : Oriented graph p q c d) : c = a ∧ d = b := by
  cases oriented with
  | swapped second =>
      cases other with
      | swapped => exact ⟨rfl, rfl⟩
      | straight none_ => exact absurd second none_
  | straight none_ =>
      cases other with
      | swapped second => exact absurd second none_
      | straight => exact ⟨rfl, rfl⟩

theorem reached (oriented : Oriented graph p q a b) :
    graph.ReachedFrom [p, q] a ∧ graph.ReachedFrom [p, q] b := by
  rcases oriented.either with ⟨rfl, rfl⟩ | ⟨rfl, rfl⟩
  · exact ⟨⟨a, by simp, .refl⟩, ⟨b, by simp, .refl⟩⟩
  · exact ⟨⟨a, by simp, .refl⟩, ⟨b, by simp, .refl⟩⟩

end Oriented

/-! ## The graph after a unification -/

namespace Unifies

theorem mem_pair {n p q : TypePointer} (member : n ∈ [p, q]) :
    n = p ∨ n = q := by
  simpa using member

/-- Unifying what two types reach is a step from the two types. -/
theorem progress_nested {bad : TypeExpType → Prop} {graph after : TypeGraph}
    {p q a c : TypePointer} {live : List TypePointer}
    (start : Progress bad [p, q] graph graph live)
    (within : ∀ n ∈ [p, q], n < graph.size) (memberA : a ∈ live)
    (memberC : c ∈ live)
    (inner : (∀ n ∈ [a, c], n < graph.size) →
      (∀ n ∈ [a, c], Free bad graph n) →
      Progress bad [a, c] graph after []) :
    Progress bad [p, q] graph after live := by
  have known : ∀ n ∈ [a, c], n ∈ live := by
    intro n member
    rcases mem_pair member with rfl | rfl <;> assumption
  exact start.trans within
    (inner (fun n member => start.inside n (known n member))
      fun n member => start.free n (.inl (known n member)))
    fun n member => .inl (known n member)

/-- A unification makes progress from its two types, wherever it fails too. -/
theorem progress_throughout {bad : TypeExpType → Prop}
    {graph after : TypeGraph} {p q : TypePointer} {moments : List TypeGraph}
    (unifies : Unifies graph p q moments after)
    (wellFormed : graph.WellFormed) (clean : graph.Clean)
    (within : ∀ n ∈ [p, q], n < graph.size)
    (free : ∀ n ∈ [p, q], Free bad graph n) :
    ∀ moment ∈ after :: moments, Progress bad [p, q] graph moment [] := by
  have nothing : ∀ {graph : TypeGraph} {p q : TypePointer},
      graph.WellFormed → graph.Clean → (∀ n ∈ [p, q], n < graph.size) →
      (∀ n ∈ [p, q], Free bad graph n) → Progress bad [p, q] graph graph [] :=
    fun wellFormed clean within free =>
      .reached wellFormed clean within free nofun
  induction unifies with
  | @prunes graph after p q r s moments left right pruned ih =>
      have start : Progress bad [p, q] graph graph [r, s] :=
        .reached wellFormed clean within free fun n member => by
          rcases mem_pair member with rfl | rfl
          · exact ⟨p, by simp, left.reaches⟩
          · exact ⟨q, by simp, right.reaches⟩
      intro moment member
      exact (progress_nested start within (by simp) (by simp)
        fun within free => ih wellFormed clean within free moment member).mono
        nofun within
  | bails | same | leaves =>
      intro moment member
      rw [List.mem_singleton.mp member]
      exact nothing wellFormed clean within free
  | recursive | clash =>
      intro moment member
      simp only [List.mem_cons, List.not_mem_nil, or_false, or_self] at member
      rw [member]
      exact nothing wellFormed clean within free
  | binds oriented unbound noError pruned apart =>
      intro moment member
      rw [List.mem_singleton.mp member]
      exact progress_bind wellFormed clean within free unbound
        oriented.reached.1 oriented.reached.2
  | @both graph middle after kind join p q a b c d _ _ joins left right firsts
      seconds firstIh secondIh =>
      have linkP := joins.links left
      have linkQ := joins.links right
      have start : Progress bad [p, q] graph graph [a, b, c, d] :=
        .reached wellFormed clean within free fun n member => by
          simp only [List.mem_cons, List.not_mem_nil, or_false] at member
          rcases member with rfl | rfl | rfl | rfl
          · exact ⟨p, by simp, .single linkP.1⟩
          · exact ⟨p, by simp, .single linkP.2⟩
          · exact ⟨q, by simp, .single linkQ.1⟩
          · exact ⟨q, by simp, .single linkQ.2⟩
      have first : ∀ moment ∈ middle :: _,
          Progress bad [p, q] graph moment [a, b, c, d] :=
        fun moment member => progress_nested start within (by simp) (by simp)
          fun within free => firstIh wellFormed clean within free moment member
      have here := first middle List.mem_cons_self
      have known : ∀ n ∈ [b, d], n ∈ [a, b, c, d] := by simp
      have second := secondIh here.wellFormed here.clean
        (fun n member => here.inside n (known n member))
        fun n member => here.free n (.inl (known n member))
      have onward : ∀ moment ∈ after :: _, Progress bad [p, q] graph moment [] :=
        fun moment member => (here.trans within (second moment member)
          fun n member => .inl (known n member)).mono nofun within
      intro moment member
      rcases List.mem_cons.mp member with rfl | member
      · exact onward moment List.mem_cons_self
      · rcases List.mem_append.mp member with inFirst | inSecond
        · exact (first moment (List.mem_cons_of_mem _ inFirst)).mono nofun within
        · exact onward moment (List.mem_cons_of_mem _ inSecond)
  | @final graph after p q a c moments left right firsts ih =>
      have start : Progress bad [p, q] graph graph [a, c] :=
        .reached wellFormed clean within free fun n member => by
          rcases mem_pair member with rfl | rfl
          · exact ⟨p, by simp, .single (.inl (by rw [left]))⟩
          · exact ⟨q, by simp, .single (.inl (by rw [right]))⟩
      intro moment member
      exact (progress_nested start within (by simp) (by simp)
        fun within free => ih wellFormed clean within free moment member).mono
        nofun within

/-- A unification makes progress from its two types. -/
theorem progress {bad : TypeExpType → Prop} {graph after : TypeGraph}
    {p q : TypePointer} {moments : List TypeGraph}
    (unifies : Unifies graph p q moments after)
    (wellFormed : graph.WellFormed) (clean : graph.Clean)
    (within : ∀ n ∈ [p, q], n < graph.size)
    (free : ∀ n ∈ [p, q], Free bad graph n) :
    Progress bad [p, q] graph after [] :=
  unifies.progress_throughout wellFormed clean within free after
    List.mem_cons_self

/-- A unification closes no cycle. -/
theorem ranked {graph after : TypeGraph} {p q : TypePointer}
    {moments : List TypeGraph} (unifies : Unifies graph p q moments after)
    (ranked : graph.Ranked) : after.Ranked := by
  induction unifies with
  | prunes _ _ _ ih => exact ih ranked
  | binds oriented unbound noError pruned apart =>
      exact ranked.bind unbound.1 apart
  | both _ _ _ _ _ firstIh secondIh => exact secondIh (firstIh ranked)
  | final _ _ _ ih => exact ih ranked
  | _ => exact ranked

/-- A unification keeps the graph in order. -/
theorem keeps {graph after : TypeGraph} {p q : TypePointer}
    {moments : List TypeGraph} (unifies : Unifies graph p q moments after)
    (wellFormed : graph.WellFormed) (clean : graph.Clean)
    (insideP : p < graph.size) (insideQ : q < graph.size) :
    after.WellFormed ∧ after.Clean := by
  have within : ∀ n ∈ [p, q], n < graph.size := by
    intro n member
    rcases mem_pair member with rfl | rfl <;> assumption
  have progress : Progress (fun _ => False) [p, q] graph after [] :=
    unifies.progress wellFormed clean within fun _ _ _ _ => id
  exact ⟨progress.wellFormed, progress.clean⟩

theorem size_eq {graph after : TypeGraph} {p q : TypePointer}
    {moments : List TypeGraph} (unifies : Unifies graph p q moments after) :
    after.size = graph.size := by
  induction unifies with
  | prunes _ _ _ ih => exact ih
  | both _ _ _ _ _ firstIh secondIh => exact secondIh.trans firstIh
  | final _ _ _ ih => exact ih
  | _ => rfl

theorem moment_size {graph after : TypeGraph} {p q : TypePointer}
    {moments : List TypeGraph} (unifies : Unifies graph p q moments after) :
    ∀ moment ∈ moments, moment.size = graph.size := by
  induction unifies with
  | prunes _ _ _ ih | final _ _ _ ih => exact ih
  | recursive | clash => simp
  | both _ _ _ firsts _ firstIh secondIh =>
      intro moment member
      rcases List.mem_append.mp member with inFirst | inSecond
      · exact firstIh moment inFirst
      · exact (secondIh moment inSecond).trans firsts.size_eq
  | _ => exact nofun

end Unifies

/-! ## Running a unification -/

/-- A step that stops here has logged nothing. -/
def SameLog (before after : CheckState) : Prop :=
  after.log = before.log

theorem SameLog.refl (state : CheckState) : SameLog state state :=
  rfl

/-- What a unification that returns leaves of the state. -/
def Unified (before : CheckState) (p q : TypePointer) (after : CheckState) :
    Prop :=
  ∃ moments reports, Unifies before.graph p q moments after.graph ∧
    after.errors = before.errors ++ reports ∧
    reports.length = moments.length ∧ after.log = before.log

theorem reportUnificationFailure_spec {tokens : Tokens} {fuel : Nat}
    (context : UnifyContext) {state : CheckState}
    (wellFormed : state.graph.WellFormed) (clean : state.graph.Clean)
    (one : context.originalOne < state.graph.size)
    (two : context.originalTwo < state.graph.size) :
    wp (SameLog state)
      (reportUnificationFailure tokens fuel context)
      (fun _ after => ∃ report, after =
        { state with errors := state.errors ++ [report] }) state := by
  have message : wpExcept (fun _ => True) (unificationMessage fuel context)
      (fun _ after => after = state.graph) state.graph := by
    rw [unificationMessage, wpExcept_bind]
    apply wpExcept_mono
      (formatTypeExpression_spec wellFormed clean fuel one) ?_
      fun _ _ => trivial
    rintro argOne graph ⟨rfl, -⟩
    cases context.errorCode with
    | ifConditionBoolean => exact rfl
    | _ =>
        dsimp only
        rw [wpExcept_bind]
        apply wpExcept_mono
          (formatTypeExpression_spec wellFormed clean fuel two) ?_
          fun _ _ => trivial
        rintro argTwo graph ⟨rfl, -⟩
        exact rfl
  rw [reportUnificationFailure, wp_bind]
  apply wp_onGraph message (SameLog.refl state)
  rintro errorMessage graph rfl
  exact ⟨_, rfl⟩

/-- What a unification leaves of the types that it reports. -/
def SameOriginals (before after : UnifyContext) : Prop :=
  after.originalOne = before.originalOne ∧
    after.originalTwo = before.originalTwo

theorem unified_quiet {state : CheckState} {p q : TypePointer}
    (unifies : Unifies state.graph p q [] state.graph) :
    Unified state p q state :=
  ⟨[], [], unifies, (List.append_nil _).symm, rfl, rfl⟩

theorem unified_report {state : CheckState} {p q : TypePointer}
    (unifies : Unifies state.graph p q [state.graph] state.graph)
    (report : ErrorReport) :
    Unified state p q { state with errors := state.errors ++ [report] } :=
  ⟨[state.graph], [report], unifies, rfl, rfl, rfl⟩

theorem unifyVariable_spec {tokens : Tokens} (fuel : Nat)
    {context : UnifyContext} {p q a b : TypePointer} {state : CheckState}
    (wellFormed : state.graph.WellFormed) (clean : state.graph.Clean)
    (one : context.originalOne < state.graph.size)
    (two : context.originalTwo < state.graph.size)
    (insideB : b < state.graph.size) (oriented : Oriented state.graph p q a b)
    (unbound : state.graph.Unbound a)
    (noError : (state.graph.nodes b).type ≠ .error)
    (pruned : ∀ r, ¬state.graph.Bound b r) :
    wp (SameLog state) (unifyVariable tokens fuel context a b)
      (fun other after => Unified state p q after ∧
        SameOriginals context other) state := by
  rw [unifyVariable]
  by_cases same : a = b
  · rw [if_pos same]
    refine ⟨unified_quiet ?_, rfl, rfl⟩
    have both : p = a ∧ q = a := by
      rcases oriented.either with ⟨rfl, rfl⟩ | ⟨rfl, rfl⟩
      · exact ⟨rfl, same.symm⟩
      · exact ⟨same.symm, rfl⟩
    rw [both.1, both.2]
    exact .same unbound
  rw [if_neg same, wp_bind]
  apply wp_onGraph (isTypeContainedWithin_spec wellFormed (clean.searchable a)
    fuel b insideB) (SameLog.refl state)
  rintro found graph ⟨rfl, reached⟩
  cases found with
  | true =>
      rw [if_pos rfl, wp_bind]
      apply wp_mono (reportUnificationFailure_spec
        { context with errorCode := .selfRecursive } wellFormed clean one two)
        ?_ fun _ => id
      rintro - after ⟨report, rfl⟩
      exact ⟨unified_report
        (.recursive oriented unbound same pruned (reached.mp rfl)) report, rfl,
        rfl⟩
  | false =>
      rw [if_neg Bool.false_ne_true]
      have apart : ¬state.graph.Reaches b a := fun path =>
        absurd (reached.mpr path) Bool.false_ne_true
      exact ⟨⟨[], [], .binds oriented unbound noError pruned apart,
        (List.append_nil _).symm, rfl, rfl⟩, rfl, rfl⟩

/-- What a recursive call of the unification establishes. -/
def UnifySpec (unify : UnifyContext → TypePointer → TypePointer →
    CheckM UnifyContext) : Prop :=
  ∀ {context p q state}, state.graph.WellFormed → state.graph.Clean →
    context.originalOne < state.graph.size →
    context.originalTwo < state.graph.size → p < state.graph.size →
    q < state.graph.size →
    wp (SameLog state) (unify context p q)
      (fun other after => Unified state p q after ∧
        SameOriginals context other) state

theorem unifyBoth_spec
    (unify : UnifyContext → TypePointer → TypePointer → CheckM UnifyContext)
    (spec : UnifySpec unify) {context : UnifyContext}
    {r s a b c d : TypePointer} {kind : TypeExpType}
    {join : Ty Leaf → Ty Leaf → Ty Leaf} {state : CheckState}
    (wellFormed : state.graph.WellFormed) (clean : state.graph.Clean)
    (one : context.originalOne < state.graph.size)
    (two : context.originalTwo < state.graph.size)
    (insideR : r < state.graph.size) (insideS : s < state.graph.size)
    (joins : Joins kind join)
    (left : state.graph.nodes r = ⟨kind, some a, .type b⟩)
    (right : state.graph.nodes s = ⟨kind, some c, .type d⟩) :
    wp (SameLog state)
      (unify context a c >>= fun context => unify context b d)
      (fun other after => Unified state r s after ∧
        SameOriginals context other) state := by
  have insideA := wellFormed.link_lt insideR (joins.links left).1
  have insideB := wellFormed.link_lt insideR (joins.links left).2
  have insideC := wellFormed.link_lt insideS (joins.links right).1
  have insideD := wellFormed.link_lt insideS (joins.links right).2
  rw [wp_bind]
  apply wp_mono (spec wellFormed clean one two insideA insideC) ?_ fun _ => id
  rintro context' middle
    ⟨⟨first, reports, unifies, errors, lengths, log⟩, sameOne, sameTwo⟩
  rcases unifies.keeps wellFormed clean insideA insideC with ⟨wellFormed', clean'⟩
  have size := unifies.size_eq
  apply wp_mono (spec wellFormed' clean' (by rwa [sameOne, size])
    (by rwa [sameTwo, size]) (by rwa [size]) (by rwa [size]))
  · rintro other after
      ⟨⟨second, reports', unifies', errors', lengths', log'⟩, sameOne', sameTwo'⟩
    refine ⟨⟨first ++ second, reports ++ reports',
      .both joins left right unifies unifies', ?_, ?_, log'.trans log⟩,
      sameOne'.trans sameOne, sameTwo'.trans sameTwo⟩
    · rw [errors', errors, List.append_assoc]
    · rw [List.length_append, List.length_append, lengths, lengths']
  · exact fun after same => Eq.trans same log

theorem unifyArguments_spec
    (unify : UnifyContext → TypePointer → TypePointer → CheckM UnifyContext)
    (spec : UnifySpec unify) {context : UnifyContext} {r s : TypePointer}
    {state : CheckState} (wellFormed : state.graph.WellFormed)
    (clean : state.graph.Clean)
    (one : context.originalOne < state.graph.size)
    (two : context.originalTwo < state.graph.size)
    (insideR : r < state.graph.size) (insideS : s < state.graph.size)
    (noVariable : (state.graph.nodes r).type ≠ .variable_)
    (noError : (state.graph.nodes r).type ≠ .error)
    (same : (state.graph.nodes r).type = (state.graph.nodes s).type) :
    wp (SameLog state)
      (unifyArguments unify context (state.graph.nodes r)
        (state.graph.nodes s))
      (fun other after => Unified state r s after ∧
        SameOriginals context other) state := by
  have shapedR := wellFormed.shaped r insideR
  have shapedS := wellFormed.shaped s insideS
  generalize left : state.graph.nodes r = expR at *
  generalize right : state.graph.nodes s = expS at *
  cases shapedR with
  | unbound scratch => exact absurd rfl noVariable
  | bound scratch inside => exact absurd rfl noVariable
  | error => exact absurd rfl noError
  | generic scratch =>
      have blank : scratch = .null := by
        simpa [left] using clean r insideR (by simp [left, TypeExp.IsVariable])
      subst blank
      have kinds : (state.graph.nodes r).type = (state.graph.nodes s).type := by
        rw [left, right]
        exact same
      exact ⟨unified_quiet (.leaves (by rw [left]; simp) kinds), rfl, rfl⟩
  | int =>
      cases shapedS <;> cases same
      exact ⟨unified_quiet (.leaves (by rw [left]; simp) (by rw [left, right])),
        rfl, rfl⟩
  | bool =>
      cases shapedS <;> cases same
      exact ⟨unified_quiet (.leaves (by rw [left]; simp) (by rw [left, right])),
        rfl, rfl⟩
  | func firstR secondR =>
      cases shapedS <;> cases same
      exact unifyBoth_spec unify spec wellFormed clean one two insideR insideS
        .func left right
  | tuple firstR secondR =>
      cases shapedS <;> cases same
      exact unifyBoth_spec unify spec wellFormed clean one two insideR insideS
        .tuple left right
  | @tupleFinal a firstR =>
      cases shapedS <;> cases same
      rename_i c firstS
      change wp _ (unify context a c >>= fun context => pure context) _ state
      rw [wp_bind]
      apply wp_mono (spec wellFormed clean one two firstR firstS) ?_
        fun _ => id
      rintro other after ⟨⟨moments, reports, unifies, rest⟩, originals⟩
      exact ⟨⟨moments, reports, .final left right unifies, rest⟩, originals⟩

/-- The ways through `_UnifyImpl`, by what the two types are when pruned. -/
theorem wp_unifyImpl {tokens : Tokens} {fuel : Nat} {context : UnifyContext}
    {p q : TypePointer} {state : CheckState} {always : CheckState → Prop}
    {post : UnifyContext → CheckState → Prop}
    (wellFormed : state.graph.WellFormed)
    (insideP : p < state.graph.size) (insideQ : q < state.graph.size)
    (starved : ∀ reason, Starved state.graph fuel p reason ∨
      Starved state.graph fuel q reason → always state)
    (error : ∀ {r s}, Prunes state.graph p r → Prunes state.graph q s →
      (state.graph.nodes r).type = .error ∨
        (state.graph.nodes s).type = .error → post context state)
    (variable_ : ∀ {r s a b}, Prunes state.graph p r →
      Prunes state.graph q s → (state.graph.nodes r).type ≠ .error →
      (state.graph.nodes s).type ≠ .error → Oriented state.graph r s a b →
      wp always (unifyVariable tokens fuel context a b) post state)
    (clash : ∀ {r s}, Prunes state.graph p r → Prunes state.graph q s →
      (state.graph.nodes r).type ≠ .error ∧
        (state.graph.nodes s).type ≠ .error →
      (state.graph.nodes r).type ≠ .variable_ →
      (state.graph.nodes s).type ≠ .variable_ →
      (state.graph.nodes r).type ≠ (state.graph.nodes s).type →
      wp always (reportUnificationFailure tokens fuel context)
        (fun _ => post context) state)
    (same : ∀ {r s}, Prunes state.graph p r → Prunes state.graph q s →
      (state.graph.nodes r).type ≠ .error →
      (state.graph.nodes r).type ≠ .variable_ →
      (state.graph.nodes r).type = (state.graph.nodes s).type →
      wp always (unifyArguments (unifyImpl tokens fuel) context
        (state.graph.nodes r) (state.graph.nodes s)) post state) :
    wp always (unifyImpl tokens (fuel + 1) context p q) post state := by
  have errorOf : ∀ {p}, p < state.graph.size →
      ((p = errorTypeExp || (state.graph.nodes p).type = .error) = true ↔
        (state.graph.nodes p).type = .error) := by
    intro p inside
    simp only [Bool.or_eq_true, decide_eq_true_eq]
    constructor
    · rintro (rfl | isError)
      · rw [wellFormed.error]
      · exact isError
    · exact .inr
  rw [unifyImpl, wp_bind]
  apply wp_onGraph_stopped (pruneTypeExp_spec fuel p state.graph)
    fun reason stops => starved reason (.inl stops)
  rintro r graph ⟨rfl, left⟩
  rw [wp_bind]
  apply wp_onGraph_stopped (pruneTypeExp_spec fuel q state.graph)
    fun reason stops => starved reason (.inr stops)
  rintro s graph ⟨rfl, right⟩
  have insideR := wellFormed.reaches_lt insideP left.reaches
  have insideS := wellFormed.reaches_lt insideQ right.reaches
  rw [wp_bind, wp_isErrorType]
  by_cases errorR : (state.graph.nodes r).type = .error
  · rw [if_pos ((errorOf insideR).mpr errorR)]
    exact error left right (.inl errorR)
  rw [if_neg (mt (errorOf insideR).mp errorR), wp_bind, wp_isErrorType]
  by_cases errorS : (state.graph.nodes s).type = .error
  · rw [if_pos ((errorOf insideS).mpr errorS)]
    exact error left right (.inr errorS)
  rw [if_neg (mt (errorOf insideS).mp errorS), wp_bind, wp_onGraph_node]
  by_cases swap : (state.graph.nodes s).type = .variable_
  · simp only [if_pos swap, wp_bind, wp_onGraph_node]
    exact variable_ left right errorR errorS (.swapped swap)
  simp only [if_neg swap, wp_bind, wp_onGraph_node]
  by_cases first : (state.graph.nodes r).type = .variable_
  · rw [if_pos first]
    exact variable_ left right errorR errorS (.straight swap first)
  simp only [if_neg first, wp_bind, wp_onGraph_node]
  by_cases different :
      (state.graph.nodes r).type ≠ (state.graph.nodes s).type
  · rw [if_pos different, wp_bind]
    exact clash left right ⟨errorR, errorS⟩ first swap different
  rw [if_neg different]
  exact same left right errorR first (not_not.mp different)

namespace Oriented

variable {graph : TypeGraph} {p q a b : TypePointer}

/-- The variable has no instance, and the other type is pruned. -/
theorem pruned {r s : TypePointer} (oriented : Oriented graph r s a b)
    (left : Prunes graph p r) (right : Prunes graph q s) :
    graph.Unbound a ∧ ∀ t, ¬graph.Bound b t := by
  cases oriented with
  | swapped second => exact ⟨right.unbound second, left.ended⟩
  | straight second first => exact ⟨left.unbound first, right.ended⟩

end Oriented

theorem unifyImpl_spec {tokens : Tokens} (fuel : Nat)
    (context : UnifyContext) {p q : TypePointer} (state : CheckState)
    (wellFormed : state.graph.WellFormed) (clean : state.graph.Clean)
    (one : context.originalOne < state.graph.size)
    (two : context.originalTwo < state.graph.size)
    (insideP : p < state.graph.size) (insideQ : q < state.graph.size) :
    wp (SameLog state) (unifyImpl tokens fuel context p q)
      (fun other after => Unified state p q after ∧
        SameOriginals context other) state := by
  induction fuel generalizing context p q state with
  | zero => exact rfl
  | succ fuel ih =>
      have pruned : ∀ {r s after other}, Prunes state.graph p r →
          Prunes state.graph q s →
          Unified state r s after ∧ SameOriginals context other →
          Unified state p q after ∧ SameOriginals context other := by
        rintro r s after other left right
          ⟨⟨moments, reports, unifies, rest⟩, originals⟩
        exact ⟨⟨moments, reports, .prunes left right unifies, rest⟩, originals⟩
      apply wp_unifyImpl wellFormed insideP insideQ
      · exact fun _ _ => SameLog.refl state
      · intro r s left right isError
        exact pruned left right ⟨unified_quiet (.bails isError), rfl, rfl⟩
      · intro r s a b left right errorR errorS oriented
        rcases oriented.pruned left right with ⟨unbound, ended⟩
        have insideB : b < state.graph.size := by
          rcases oriented.either with ⟨rfl, rfl⟩ | ⟨rfl, rfl⟩
          · exact wellFormed.reaches_lt insideQ right.reaches
          · exact wellFormed.reaches_lt insideP left.reaches
        have noError : (state.graph.nodes b).type ≠ .error := by
          rcases oriented.either with ⟨rfl, rfl⟩ | ⟨rfl, rfl⟩
          · exact errorS
          · exact errorR
        apply wp_mono (unifyVariable_spec fuel wellFormed clean one two insideB
          oriented unbound noError ended) ?_ fun _ => id
        exact fun other after => pruned left right
      · intro r s left right noErrors variableR variableS different
        apply wp_mono
          (reportUnificationFailure_spec context wellFormed clean one two) ?_
          fun _ => id
        rintro - after ⟨report, rfl⟩
        exact pruned left right ⟨unified_report
          (.clash variableR variableS noErrors different) report, rfl, rfl⟩
      · intro r s left right errorR variableR same
        apply wp_mono (unifyArguments_spec (unifyImpl tokens fuel)
          (fun wellFormed clean one two insideP insideQ =>
            ih _ _ wellFormed clean one two insideP insideQ)
          wellFormed clean one two
          (wellFormed.reaches_lt insideP left.reaches)
          (wellFormed.reaches_lt insideQ right.reaches) variableR errorR same)
          ?_ fun _ => id
        exact fun other after => pruned left right

theorem unify_spec {tokens : Tokens} (fuel : Nat) {range : TokenRange}
    {errorCode : UnificationError} {p q : TypePointer} {state : CheckState}
    (wellFormed : state.graph.WellFormed) (clean : state.graph.Clean)
    (insideP : p < state.graph.size) (insideQ : q < state.graph.size) :
    wp (fun after => after.log = state.log ++ [.unifying p q state.graph])
      (unify tokens fuel range errorCode p q)
      (fun _ after => ∃ moments reports,
        Unifies state.graph p q moments after.graph ∧
        after.errors = state.errors ++ reports ∧
        reports.length = moments.length ∧
        after.log = state.log ++
          [.unifying p q state.graph, .unified after.graph]) state := by
  rw [unify, wp_bind, wp_record, wp_bind]
  apply wp_mono (unifyImpl_spec fuel ⟨range, errorCode, p, q⟩
    { state with log := state.log ++ [.unifying p q state.graph] } wellFormed
    clean insideP insideQ insideP insideQ) ?_ fun _ => id
  rintro other after
    ⟨⟨moments, reports, unifies, errors, lengths, log⟩, -⟩
  rw [wp_record]
  refine ⟨moments, reports, unifies, errors, lengths, ?_⟩
  dsimp only
  rw [log, List.append_assoc]
  rfl

end Millie.Types
