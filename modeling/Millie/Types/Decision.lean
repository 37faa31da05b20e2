import Millie.Types.Completeness
import Millie.Types.Fuel
import Millie.Types.Generalize
import Millie.Types.MostGeneral

/-!
# What the type checker accepts

The search for the variables of a type that is made generic does not end if it
meets them in the same order as in the non-generic list.  Every other step of
the analysis of an expression that has a type ends, so the expressions that are
accepted are those that have a type and are never generalised in that order.
-/

namespace Millie.Types

open Relation Links Weakest Precedence
open Millie.Symbols Millie.Syntax

/-! ## The order of generalisation -/

/-- The variables of a type come in the opposite order in a list of types. -/
def TypeGraph.Opposed (graph : TypeGraph) (type : TypePointer)
    (nonGenerics : NonGenericTypeList) : Prop :=
  ∀ t terms, Denotes graph type t →
    List.Forall₂ (Denotes graph) nonGenerics terms →
      Precedence.Opposed t.unboundVariables (listVariables terms)

/--
Wherever the analysis of an expression makes a type generic, its variables come
in the opposite order in the non-generic list.
-/
def Orderly (tokens : Tokens) :
    Expression → TypeEnvironment → NonGenericTypeList → CheckState → Prop
  | .apply _ function argument, env, nonGenerics, state =>
      Orderly tokens function env nonGenerics state ∧
        ∀ fuel type middle,
          analyze tokens fuel function env nonGenerics state =
            (.ok type, middle) →
          Orderly tokens argument env nonGenerics middle
  | .lambda _ id body, env, nonGenerics, state =>
      Orderly tokens body ((id, state.graph.size) :: env)
        (state.graph.size :: nonGenerics)
        { state with graph := state.graph.add ⟨.variable_, none, .null⟩ }
  | .let_ _ id value body, env, nonGenerics, state =>
      Orderly tokens value env nonGenerics state ∧
        ∀ fuel type middle,
          analyze tokens fuel value env nonGenerics state =
            (.ok type, middle) →
          middle.graph.Opposed type nonGenerics ∧
            ∀ more generic graph,
              makeGenericTypeExp more type nonGenerics middle.graph =
                .ok (generic, graph) →
              Orderly tokens body ((id, generic) :: env) nonGenerics
                { middle with graph := graph }
  | .letrec range id value body, env, nonGenerics, state =>
      let newType := state.graph.size
      let newEnv := (id, newType) :: env
      let opened :=
        { state with graph := state.graph.add ⟨.variable_, none, .null⟩ }
      Orderly tokens value newEnv (newType :: nonGenerics) opened ∧
        ∀ fuel type defined middle,
          analyze tokens fuel value newEnv (newType :: nonGenerics) opened =
            (.ok type, defined) →
          unify tokens fuel range .inconsistentRecursion newType type defined =
            (.ok (), middle) →
          middle.graph.Opposed newType nonGenerics ∧
            ∀ more generic graph,
              makeGenericTypeExp more newType nonGenerics middle.graph =
                .ok (generic, graph) →
              Orderly tokens body newEnv nonGenerics
                ⟨graph.bind newType generic, middle.errors,
                  middle.log ++ [.rebinding newType nonGenerics middle.graph] ++
                    [.rebound (graph.bind newType generic)]⟩
  | .if_ _ test thenArm elseArm, env, nonGenerics, state =>
      Orderly tokens test env nonGenerics state ∧
        ∀ fuel type tested middle,
          analyze tokens fuel test env nonGenerics state =
            (.ok type, tested) →
          unify tokens fuel test.range .ifConditionBoolean type booleanTypeExp
              tested = (.ok (), middle) →
          Orderly tokens thenArm env nonGenerics middle ∧
            ∀ more thenType last,
              analyze tokens more thenArm env nonGenerics middle =
                (.ok thenType, last) →
              Orderly tokens elseArm env nonGenerics last
  | .binary _ _ left right, env, nonGenerics, state =>
      Orderly tokens left env nonGenerics state ∧
        ∀ fuel type middle,
          analyze tokens fuel left env nonGenerics state =
            (.ok type, middle) →
          Orderly tokens right env nonGenerics middle
  | .unary _ _ arg, env, nonGenerics, state =>
      Orderly tokens arg env nonGenerics state
  | .tuple _ first rest _, env, nonGenerics, state =>
      Orderly tokens first env nonGenerics state ∧
        ∀ fuel type middle,
          analyze tokens fuel first env nonGenerics state =
            (.ok type, middle) →
          Orderly tokens rest env nonGenerics middle
  | .tupleFinal _ first, env, nonGenerics, state =>
      Orderly tokens first env nonGenerics state
  | _, _, _, _ => True

/-! ## Steps that end -/

section

variable {tokens : Tokens} {range : TokenRange} {expression : Expression}
  {env : TypeEnvironment} {nonGenerics : NonGenericTypeList}
  {roots live : List TypePointer} {before state after : CheckState}
  {p q : TypePointer} {σ : TypePointer → Ty Leaf} {assumptions : Assumptions}
  {t : Ty Leaf}

/-- With enough fuel a call of the analysis returns. -/
abbrev EndsCall (tokens : Tokens) (expression : Expression)
    (env : TypeEnvironment) (nonGenerics : NonGenericTypeList) :
    CheckState → TypePointer → CheckState → Prop :=
  Arrives fun fuel => analyze tokens fuel expression env nonGenerics

theorem lasting_analyze : Lasting fun fuel =>
    analyze tokens fuel expression env nonGenerics :=
  fun _ _ enough => analyze_more enough expression env nonGenerics

theorem lasting_unify {errorCode : UnificationError} : Lasting fun fuel =>
    unify tokens fuel range errorCode p q :=
  fun _ _ enough => unify_more enough

theorem lasting_generic : Lasting fun fuel =>
    onGraph (makeGenericTypeExp fuel p nonGenerics) :=
  fun _ _ enough => onGraph_more (makeGenericTypeExp_more enough nonGenerics)

theorem makeTypeVar_ends : Arrives (fun _ => onGraph makeTypeVar) state
    state.graph.size
    { state with graph := state.graph.add ⟨.variable_, none, .null⟩ } :=
  .of_eq fun _ => rfl

/-- What a call returns tells what it returned before it logged that. -/
theorem returning_iff {result : CheckM TypePointer} :
    returning result state = (.ok p, after) ↔
      ∃ middle, result state = (.ok p, middle) ∧
        after =
          { middle with log := middle.log ++ [.returned p middle.graph] } := by
  constructor
  · intro returns
    rcases kept_of_bind returns with ⟨type, middle, inner, logged⟩
    cases logged
    exact ⟨middle, inner, rfl⟩
  · rintro ⟨middle, inner, rfl⟩
    exact bind_kept inner

theorem returning_returns_iff {run : Nat → CheckM TypePointer} :
    Returns (fun fuel => returning (run fuel)) state ↔ Returns run state := by
  constructor
  · rintro ⟨type, after, bound, returns⟩
    rcases returning_iff.mp (returns bound (Nat.le_refl bound)) with
      ⟨⟨graph, errors, log⟩, -, rfl⟩
    refine ⟨type, ⟨graph, errors, log⟩, bound, fun fuel enough => ?_⟩
    rcases returning_iff.mp (returns fuel enough) with
      ⟨⟨graph', errors', log'⟩, inner, same⟩
    simp only [CheckState.mk.injEq] at same
    rcases same with ⟨rfl, rfl, logs⟩
    rw [List.append_cancel_right logs]
    exact inner
  · rintro ⟨type, middle, ends⟩
    exact ends.returns_bind ⟨_, _, .of_eq fun _ => rfl⟩

/-- Types that stand for the same term are unified. -/
theorem unify_returns {errorCode : UnificationError}
    (condition : errorCode = .ifConditionBoolean → q = booleanTypeExp)
    (sofar : Advances roots before state live)
    (untangled : state.errors = [] → state.Untangled)
    (quiet : state.errors = []) (knownP : p ∈ live ∨ p ∈ roots)
    (knownQ : q ∈ live ∨ q ∈ roots) (left : Values state.graph σ p t)
    (right : Values state.graph σ q t) :
    Returns (fun fuel => unify tokens fuel range errorCode p q) state := by
  have regular : state.graph.Regular := ⟨sofar.progress.wellFormed,
    sofar.progress.clean, sofar.holds.ranked (untangled quiet)⟩
  have insideP := sofar.inside knownP
  have insideQ := sofar.inside knownQ
  rcases unifies_total regular insideP insideQ with ⟨moments, after, unifies⟩
  rcases left with ⟨s, leftTerm, rfl⟩
  rcases right with ⟨u, rightTerm, equal⟩
  have plainS := leftTerm.plain_of_free (sofar.freely quiet knownP)
  have plainU := rightTerm.plain_of_free (sofar.freely quiet knownQ)
  cases unifies.solved leftTerm rightTerm plainS plainU with
  | unifier =>
      rcases unifies.runs tokens range regular insideP insideQ condition with
        ⟨bound, runs⟩
      rcases returns_of_wp (runs bound (Nat.le_refl bound))
        (fun _ unnamed => unnamed (.nil p q)) with ⟨⟨⟩, final, returns, -⟩
      exact ⟨(), final, lasting_unify.ends returns⟩
  | none _ noUnifier => exact absurd equal (noUnifier (Leaf.under σ))

/-- Every type of a list stands for a term. -/
theorem denotes_all {graph : TypeGraph} (wellFormed : graph.WellFormed)
    (ranked : graph.Ranked) (within : ∀ n ∈ nonGenerics, n < graph.size) :
    ∃ terms, List.Forall₂ (Denotes graph) nonGenerics terms := by
  induction nonGenerics with
  | nil => exact ⟨[], .nil⟩
  | cons n nonGenerics ih =>
      rw [List.forall_mem_cons] at within
      rcases ih within.2 with ⟨terms, rest⟩
      rcases ranked.denotes wellFormed within.1 with ⟨t, first⟩
      exact ⟨t :: terms, .cons first rest⟩

/-- Making a type generic ends if and only if the orders are opposite. -/
theorem generic_returns_iff (sofar : Advances roots before state live)
    (ranked : state.graph.Ranked)
    (within : ∀ n ∈ nonGenerics, n < state.graph.size)
    (known : p ∈ live ∨ p ∈ roots) :
    Returns (fun fuel => onGraph (makeGenericTypeExp fuel p nonGenerics))
      state ↔ state.graph.Opposed p nonGenerics := by
  have wellFormed := sofar.progress.wellFormed
  have clean := sofar.progress.clean
  have inside := sofar.inside known
  constructor
  · rintro ⟨generic, after, bound, returns⟩ t terms denotes denote
    have returned : onGraph (makeGenericTypeExp bound p nonGenerics) state =
        (.ok generic, after) := returns bound (Nat.le_refl bound)
    rw [onGraph] at returned
    rcases run : makeGenericTypeExp bound p nonGenerics state.graph with
      stop | ⟨r, graph⟩
    · rw [run] at returned
      cases returned
    · exact opposed_of_returns wellFormed clean within denote denotes inside run
  · intro opposed
    rcases ranked.denotes wellFormed inside with ⟨t, denotes⟩
    rcases denotes_all wellFormed ranked within with ⟨terms, denote⟩
    rcases settles_of_opposed wellFormed clean within denote denotes inside
      (opposed t terms denotes denote) with ⟨r, graph, settles⟩
    rcases settles.returns with ⟨fuel, returns⟩
    refine ⟨r, { state with graph := graph }, lasting_generic.ends (?_ :
      onGraph (makeGenericTypeExp fuel p nonGenerics) state = _)⟩
    rw [onGraph, returns]

/-! ## Calls inside calls -/

/-- A call for a derivation returns if and only if it is orderly. -/
structure Determined (tokens : Tokens) (expression : Expression) : Prop where
  functions : RecursiveFunctions expression
  returns_iff : ∀ {env nonGenerics state σ assumptions t},
    Assigned state env nonGenerics σ assumptions →
    Typing assumptions expression t →
      (Returns (fun fuel => analyze tokens fuel expression env nonGenerics)
          state ↔ Orderly tokens expression env nonGenerics state)

/-- The analysis of a program starts without assumptions. -/
theorem assigned_static : Assigned ⟨staticGraph, [], []⟩ [] []
    (fun v => .leaf (.variable_ v)) [] :=
  ⟨⟨ready_static, fun _ member => absurd member List.not_mem_nil,
    fun _ _ member => absurd member List.not_mem_nil⟩, rfl,
    fun v => .variable_ v, .nil⟩

/-- What a call for a derivation has concluded and found. -/
theorem EndsCall.found
    (ends : EndsCall tokens expression env nonGenerics state p after)
    (functions : RecursiveFunctions expression)
    (assigned : Assigned state env nonGenerics σ assumptions)
    (typing : Typing assumptions expression t) :
    Concluded env nonGenerics expression state p after ∧
      Found state σ t p after :=
  ends.post fun fuel =>
    (analyze_decides tokens fuel expression functions).runs assigned typing

/-- The analysis may go on after a call for a derivation. -/
theorem EndsCall.assigned
    (ends : EndsCall tokens expression env nonGenerics state p after)
    (functions : RecursiveFunctions expression)
    (assigned : Assigned state env nonGenerics σ assumptions)
    (typing : Typing assumptions expression t) :
    ∃ τ, Assigned after env nonGenerics τ assumptions := by
  rcases ends.found functions assigned typing with
    ⟨concluded, quiet, τ, plainFor, keeps, -⟩
  exact ⟨τ, assigned.advance concluded.advances concluded.untangled quiet
    plainFor keeps⟩

/-- Two calls one after the other, and steps that end after them. -/
theorem pair_returns_iff {first second : Expression}
    (firstSpec : Determined tokens first)
    (secondSpec : Determined tokens second)
    (assigned : Assigned state env nonGenerics σ assumptions) {s u : Ty Leaf}
    (firstTyping : Typing assumptions first s)
    (secondTyping : Typing assumptions second u)
    {rest : Nat → TypePointer → TypePointer → CheckM TypePointer}
    (returns : ∀ {p middle q after},
      EndsCall tokens first env nonGenerics state p middle →
      EndsCall tokens second env nonGenerics middle q after →
        Returns (fun fuel => rest fuel p q) after) :
    Returns (fun fuel => do
        let p ← analyze tokens fuel first env nonGenerics
        let q ← analyze tokens fuel second env nonGenerics
        rest fuel p q) state ↔
      Orderly tokens first env nonGenerics state ∧
        ∀ fuel type middle,
          analyze tokens fuel first env nonGenerics state =
            (.ok type, middle) →
          Orderly tokens second env nonGenerics middle := by
  rw [lasting_analyze.returns_bind_iff,
    firstSpec.returns_iff assigned firstTyping]
  refine and_congr_right fun _ => ⟨fun ends fuel p middle returned => ?_,
    fun orderly p middle ends => ?_⟩
  · have firstEnds := lasting_analyze.ends returned
    rcases EndsCall.assigned firstEnds firstSpec.functions assigned firstTyping
      with ⟨τ, assignedMiddle⟩
    exact (secondSpec.returns_iff assignedMiddle secondTyping).mp
      (lasting_analyze.returns_bind_iff.mp (ends p middle firstEnds)).1
  · rcases EndsCall.assigned ends firstSpec.functions assigned firstTyping with
      ⟨τ, assignedMiddle⟩
    rw [lasting_analyze.returns_bind_iff]
    refine ⟨(secondSpec.returns_iff assignedMiddle secondTyping).mpr ?_,
      fun q after secondEnds => returns ends secondEnds⟩
    rcases ends with ⟨bound, returned⟩
    exact orderly bound p middle (returned bound (Nat.le_refl bound))

theorem apply_returns_iff {function argument : Expression}
    (functionSpec : Determined tokens function)
    (argumentSpec : Determined tokens argument)
    (assigned : Assigned state env nonGenerics σ assumptions)
    (typing : Typing assumptions (.apply range function argument) t) :
    Returns (fun fuel => analyze tokens fuel (.apply range function argument)
        env nonGenerics) state ↔
      Orderly tokens (.apply range function argument) env nonGenerics
        state := by
  cases typing with
  | apply functionTyping argumentTyping =>
  refine returning_returns_iff.trans (pair_returns_iff functionSpec
    argumentSpec assigned functionTyping argumentTyping ?_)
  intro functionType middle argType after functionEnds argumentEnds
  rcases EndsCall.found functionEnds functionSpec.functions assigned
    functionTyping with
    ⟨first, quietFirst, τ, plainTau, keepsFirst, functionValue⟩
  have assignedArgument := assigned.advance first.advances first.untangled
    quietFirst plainTau keepsFirst
  rcases EndsCall.found argumentEnds argumentSpec.functions assignedArgument
    argumentTyping with
    ⟨second, quiet, υ, plainUpsilon, keepsSecond, argumentValue⟩
  have both := first.advances.trans second.advances fun _ => .inr
  have noError : ∀ p ∈ [argType] ++ [functionType],
      ¬(p = errorTypeExp || (after.graph.nodes p).type = .error) = true :=
    fun p isLive isError => absurd quiet
      (isErrorType_advances both (.inl isLive) isError)
  have result := both.addVariable
  have wanted := result.addBoth .func (a := argType) (.inl (by simp))
    (b := after.graph.size) (.inl (by simp))
  have wellFormed := second.advances.progress.wellFormed
  have insideFunction := first.advances.inside (.inl List.mem_cons_self)
  have insideArgument := second.advances.inside (.inl List.mem_cons_self)
  have keepsResult : Keeps after.graph _ υ
      (Function.update υ after.graph.size t) := .addVariable wellFormed
  have keepsWanted := keepsResult.trans
    (.of_add ⟨.func, some argType, .type after.graph.size⟩
      result.progress.wellFormed)
  have functionLater := keepsWanted.values
    (Nat.lt_of_lt_of_le insideFunction keepsSecond.size)
    (keepsSecond.values insideFunction functionValue)
  have wantedValue := Values.addBoth .func result.progress.wellFormed
    (Nat.lt_of_lt_of_le insideArgument keepsResult.size) (by simp)
    (keepsResult.values insideArgument argumentValue) .addVariable
  refine Arrives.returns_bind (.of_eq fun _ => rfl) ?_
  simp only [if_neg (noError functionType (by simp))]
  refine Arrives.returns_bind (.of_eq fun _ => rfl) ?_
  simp only [if_neg (noError argType (by simp))]
  refine Arrives.returns_bind (.of_eq fun _ => rfl) ?_
  refine Arrives.returns_bind (.of_eq fun _ => rfl) ?_
  have unified : Returns (fun fuel => unify tokens fuel range
      .invalidFunctionApply _ functionType) _ :=
    unify_returns (fun code => by cases code) wanted second.untangled quiet
      (.inl List.mem_cons_self) (.inl (by simp)) wantedValue functionLater
  rcases unified with ⟨_, final, ends⟩
  exact ends.returns_bind ⟨_, _, .of_eq fun _ => rfl⟩

theorem tuple_returns_iff {first rest : Expression} {length : Nat}
    (firstSpec : Determined tokens first) (restSpec : Determined tokens rest)
    (assigned : Assigned state env nonGenerics σ assumptions)
    (typing : Typing assumptions (.tuple range first rest length) t) :
    Returns (fun fuel => analyze tokens fuel (.tuple range first rest length)
        env nonGenerics) state ↔
      Orderly tokens (.tuple range first rest length) env nonGenerics
        state := by
  cases typing with
  | tuple firstTyping restTyping =>
  exact returning_returns_iff.trans (pair_returns_iff firstSpec restSpec
    assigned firstTyping restTyping fun _ _ => ⟨_, _, .of_eq fun _ => rfl⟩)

theorem tupleFinal_returns_iff {first : Expression}
    (firstSpec : Determined tokens first)
    (assigned : Assigned state env nonGenerics σ assumptions)
    (typing : Typing assumptions (.tupleFinal range first) t) :
    Returns (fun fuel => analyze tokens fuel (.tupleFinal range first) env
        nonGenerics) state ↔
      Orderly tokens (.tupleFinal range first) env nonGenerics state := by
  cases typing with
  | tupleFinal firstTyping =>
  refine returning_returns_iff.trans ?_
  unfold analyzeTupleFinal
  rw [lasting_analyze.returns_bind_iff,
    firstSpec.returns_iff assigned firstTyping]
  exact and_iff_left fun _ _ _ => ⟨_, _, .of_eq fun _ => rfl⟩

theorem lambda_returns_iff {id : Symbol} {body : Expression}
    (bodySpec : Determined tokens body)
    (assigned : Assigned state env nonGenerics σ assumptions)
    (typing : Typing assumptions (.lambda range id body) t) :
    Returns (fun fuel => analyze tokens fuel (.lambda range id body) env
        nonGenerics) state ↔
      Orderly tokens (.lambda range id body) env nonGenerics state := by
  cases typing with
  | lambda plain bodyTyping =>
  have assignedBody := assigned.bindVariable id plain
  refine returning_returns_iff.trans ?_
  unfold analyzeLambda
  rw [makeTypeVar_ends.returns_bind_iff (.const _),
    lasting_analyze.returns_bind_iff,
    bodySpec.returns_iff assignedBody bodyTyping]
  exact and_iff_left fun _ _ _ => ⟨_, _, .of_eq fun _ => rfl⟩

/-- Looking a name up ends. -/
theorem lookupType_returns (regular : state.graph.Regular)
    (inside : ∀ entry ∈ env, entry.2 < state.graph.size) (id : Symbol) :
    Returns (fun fuel => onGraph (lookupType fuel id env)) state := by
  have returns : ∃ fuel result graph,
      lookupType fuel id env state.graph = .ok (result, graph) := by
    induction env with
    | nil => exact ⟨0, none, state.graph, rfl⟩
    | cons binding env ih =>
        rw [List.forall_mem_cons] at inside
        by_cases found : binding.1 = id
        · have acyclic : AcyclicFrom state.graph binding.2 :=
            fun q path => regular.ranked.acyclic regular.wellFormed
              (regular.wellFormed.reaches_lt inside.1 path)
          rcases makeFreshTypeExp_returns regular.wellFormed regular.clean
            inside.1 acyclic with ⟨bound, returns⟩
          rcases returns bound (Nat.le_refl bound) with ⟨r, graph, returned⟩
          refine ⟨bound, some r, graph, ?_⟩
          rw [lookupType, if_pos found, bind_returned returned]
          rfl
        · rcases ih inside.2 with ⟨fuel, result, graph, returned⟩
          refine ⟨fuel, result, graph, ?_⟩
          rw [lookupType, if_neg found]
          exact returned
  rcases returns with ⟨fuel, result, graph, returned⟩
  have lasting : Lasting fun fuel => onGraph (lookupType fuel id env) :=
    fun _ _ enough => onGraph_more (lookupType_more enough env)
  refine ⟨result, { state with graph := graph }, lasting.ends (?_ :
    onGraph (lookupType fuel id env) state = _)⟩
  rw [onGraph, returned]

theorem identifier_returns (id : Symbol)
    (assigned : Assigned state env nonGenerics σ assumptions) :
    Returns (fun fuel => analyze tokens fuel (.identifier range id) env
      nonGenerics) state := by
  have ready := assigned.prepared.ready
  have regular : (record (.looking id env) state).2.graph.Regular :=
    ⟨ready.wellFormed, ready.clean, assigned.prepared.ranked assigned.quiet⟩
  refine returning_returns_iff.mpr ?_
  have recorded : Arrives (fun _ => record (.looking id env)) state () _ :=
    .of_eq fun _ => rfl
  refine recorded.returns_bind ?_
  rcases lookupType_returns regular ready.inside id with ⟨result, after, ends⟩
  refine ends.returns_bind ?_
  cases result with
  | none => exact ⟨_, _, .of_eq fun _ => rfl⟩
  | some type => exact ⟨_, _, .of_eq fun _ => rfl⟩

/-- An operand that stands for an integer is unified with one. -/
theorem unifyOperand_returns {operand : TypePointer}
    {required : Option TypePointer}
    (static : required = none ∨
      required = some integerTypeExp ∧ t = .int)
    (sofar : Advances roots before state live)
    (untangled : state.errors = [] → state.Untangled)
    (quiet : state.errors = []) (isLive : operand ∈ live)
    (value : Values state.graph σ operand t) :
    Returns (fun fuel => unifyOperand tokens fuel range operand required)
      state := by
  rcases static with rfl | ⟨rfl, rfl⟩
  · exact ⟨_, _, .of_eq fun _ => rfl⟩
  · exact unify_returns (fun code => by cases code) sofar.integer untangled
      quiet (.inl (List.mem_cons_of_mem _ isLive)) (.inl List.mem_cons_self)
      value (.int sofar.progress.wellFormed)

theorem binary_returns_iff {operator : TokenType} {left right : Expression}
    (leftSpec : Determined tokens left) (rightSpec : Determined tokens right)
    (assigned : Assigned state env nonGenerics σ assumptions)
    (typing : Typing assumptions (.binary range operator left right) t) :
    Returns (fun fuel => analyze tokens fuel (.binary range operator left right)
        env nonGenerics) state ↔
      Orderly tokens (.binary range operator left right) env nonGenerics
        state := by
  cases typing with
  | @binary _ _ _ _ _ s _ operatorTypes leftTyping rightTyping =>
  refine returning_returns_iff.trans (pair_returns_iff leftSpec rightSpec
    assigned leftTyping rightTyping ?_)
  intro p middle q after leftEnds rightEnds
  rcases EndsCall.found leftEnds leftSpec.functions assigned leftTyping with
    ⟨first, quietFirst, τ, plainTau, keepsFirst, leftValue⟩
  have assignedRight := assigned.advance first.advances first.untangled
    quietFirst plainTau keepsFirst
  rcases EndsCall.found rightEnds rightSpec.functions assignedRight rightTyping
    with ⟨second, quiet, υ, plainUpsilon, keepsSecond, rightValue⟩
  rcases operatorTypes.entry with ⟨op, entry, staticLeft, staticRight, result⟩
  have both := first.advances.trans second.advances fun _ => .inr
  have leftLater := keepsSecond.values
    (first.advances.inside (.inl List.mem_cons_self)) leftValue
  have insideRight := second.advances.inside (.inl List.mem_cons_self)
  have insideLeft := both.inside (p := p) (.inl (by simp))
  simp only [entry]
  rcases unifyOperand_returns staticLeft both second.untangled quiet (by simp)
    leftLater with ⟨_, afterLeft, leftUnified⟩
  rcases leftUnified.post fun fuel => unifyOperand_finds staticLeft both
    second.untangled quiet (by simp) leftLater with
    ⟨third, untangledLeft, quietLeft, keepsLeft⟩
  have leftThird := keepsLeft.values insideLeft leftLater
  have rightThird := keepsLeft.values insideRight rightValue
  refine leftUnified.returns_bind ?_
  rcases unifyOperand_returns staticRight third (fun _ => untangledLeft)
    quietLeft (by simp) rightThird with ⟨_, afterRight, rightUnified⟩
  rcases rightUnified.post fun fuel => unifyOperand_finds staticRight third
    (fun _ => untangledLeft) quietLeft (by simp) rightThird with
    ⟨fourth, untangledRight, quietRight, keepsRight⟩
  refine rightUnified.returns_bind ?_
  have unified : Returns (fun fuel => unify tokens fuel range
      .noValidBinaryOperator p q) afterRight :=
    unify_returns (fun code => by cases code) fourth (fun _ => untangledRight)
      quietRight (.inl (by simp)) (.inl (by simp))
      (keepsRight.values (third.inside (.inl (by simp))) leftThird)
      (keepsRight.values (third.inside (.inl (by simp))) rightThird)
  rcases unified with ⟨_, final, ends⟩
  exact ends.returns_bind ⟨_, _, .of_eq fun _ => rfl⟩

theorem if_returns_iff {test thenArm elseArm : Expression}
    (testSpec : Determined tokens test) (thenSpec : Determined tokens thenArm)
    (elseSpec : Determined tokens elseArm)
    (assigned : Assigned state env nonGenerics σ assumptions)
    (typing : Typing assumptions (.if_ range test thenArm elseArm) t) :
    Returns (fun fuel => analyze tokens fuel (.if_ range test thenArm elseArm)
        env nonGenerics) state ↔
      Orderly tokens (.if_ range test thenArm elseArm) env nonGenerics
        state := by
  cases typing with
  | if_ testTyping thenTyping elseTyping =>
  refine returning_returns_iff.trans ?_
  unfold analyzeIf
  rw [lasting_analyze.returns_bind_iff,
    testSpec.returns_iff assigned testTyping]
  have conditioned : ∀ condType tested,
      EndsCall tokens test env nonGenerics state condType tested →
      ∃ middle τ, Arrives (fun fuel => unify tokens fuel test.range
          .ifConditionBoolean condType booleanTypeExp) tested () middle ∧
        Assigned middle env nonGenerics τ assumptions := by
    intro condType tested ends
    rcases EndsCall.found ends testSpec.functions assigned testTyping with
      ⟨first, quietFirst, τ, plainTau, keepsFirst, testValue⟩
    have known : booleanTypeExp ∈ [booleanTypeExp, condType] :=
      List.mem_cons_self
    have boolean := Values.bool (σ := τ) first.advances.progress.wellFormed
    rcases unify_returns (fun _ => rfl) first.advances.boolean first.untangled
      quietFirst (.inl (by simp)) (.inl known) testValue boolean with
      ⟨_, middle, unified⟩
    rcases unified.post fun fuel => unify_finds first.advances.boolean
      first.untangled quietFirst (.inl (by simp)) (.inl known) testValue
      boolean with ⟨second, untangled, -, quietSecond, keepsSecond⟩
    exact ⟨middle, τ, unified, assigned.advance second (fun _ => untangled)
      quietSecond plainTau (keepsFirst.trans keepsSecond)⟩
  -- After the condition come the two arms and their unification.
  have arms : ∀ {middle τ}, Assigned middle env nonGenerics τ assumptions →
      (Returns (fun fuel => do
          let thenType ← analyze tokens fuel thenArm env nonGenerics
          let elseType ← analyze tokens fuel elseArm env nonGenerics
          unify tokens fuel range .ifBranchesSame thenType elseType
          return thenType) middle ↔
        Orderly tokens thenArm env nonGenerics middle ∧
          ∀ fuel type last,
            analyze tokens fuel thenArm env nonGenerics middle =
              (.ok type, last) →
            Orderly tokens elseArm env nonGenerics last) := by
    intro middle τ assignedThen
    refine pair_returns_iff thenSpec elseSpec assignedThen thenTyping elseTyping
      fun {thenType last elseType after} thenEnds elseEnds => ?_
    rcases EndsCall.found thenEnds thenSpec.functions assignedThen thenTyping
      with ⟨third, quietThird, υ, plainUpsilon, keepsThird, thenValue⟩
    have assignedElse := assignedThen.advance third.advances third.untangled
      quietThird plainUpsilon keepsThird
    rcases EndsCall.found elseEnds elseSpec.functions assignedElse elseTyping
      with ⟨fourth, quiet, φ, plainPhi, keepsFourth, elseValue⟩
    have unified : Returns (fun fuel => unify tokens fuel range .ifBranchesSame
        thenType elseType) after :=
      unify_returns (fun code => by cases code)
        (third.advances.trans fourth.advances fun _ => .inr) fourth.untangled
        quiet (.inl (by simp)) (.inl (by simp))
        (keepsFourth.values (third.advances.inside (.inl List.mem_cons_self))
          thenValue) elseValue
    rcases unified with ⟨_, final, ends⟩
    exact ends.returns_bind ⟨_, _, .of_eq fun _ => rfl⟩
  refine and_congr_right fun _ =>
    ⟨fun ends fuel condType tested middle returned unified => ?_,
      fun orderly condType tested ends => ?_⟩
  · have testEnds := lasting_analyze.ends returned
    rcases conditioned condType tested testEnds with
      ⟨_, τ, unifies, assignedThen⟩
    rcases unifies.unique (lasting_unify.ends unified) with ⟨-, rfl⟩
    exact (arms assignedThen).mp ((unifies.returns_bind_iff lasting_unify).mp
      (ends condType tested testEnds))
  · rcases conditioned condType tested ends with
      ⟨middle, τ, unifies, assignedThen⟩
    rw [unifies.returns_bind_iff lasting_unify]
    refine (arms assignedThen).mpr ?_
    rcases ends with ⟨bound, returned⟩
    rcases unifies with ⟨more, unified⟩
    exact orderly (max bound more) condType tested middle
      (returned _ (Nat.le_max_left ..)) (unified _ (Nat.le_max_right ..))

/-! ## Generalisations inside calls -/

theorem onGraph_ok_iff {α : Type} {step : GraphM α} {value : α} :
    onGraph step state = (.ok value, after) ↔
      ∃ graph, step state.graph = .ok (value, graph) ∧
        after = { state with graph := graph } := by
  rw [onGraph]
  rcases run : step state.graph with stop | ⟨result, graph⟩
  · refine iff_of_false (fun same => by cases same) ?_
    rintro ⟨graph, same, -⟩
    cases same
  · constructor
    · intro same
      cases same
      exact ⟨graph, rfl, rfl⟩
    · rintro ⟨graph, same, rfl⟩
      cases same
      rfl

/-- The body of a let is analysed with a scheme as general as its own. -/
theorem Assigned.bindGeneric {middle : CheckState} {fuel : Nat}
    {r : TypePointer} {graph : TypeGraph} {scheme s : Ty Leaf}
    {τ : TypePointer → Ty Leaf}
    (assigned : Assigned state env nonGenerics σ assumptions)
    (advances : Advances nonGenerics state middle [p])
    (assignedMiddle : Assigned middle env nonGenerics τ assumptions)
    (value : Values middle.graph τ p s)
    (generalises : Generalises assumptions s scheme)
    (returns : makeGenericTypeExp fuel p nonGenerics middle.graph =
      .ok (r, graph)) (id : Symbol) :
    ∃ more, more.Subsumes scheme ∧
      Assigned { middle with graph := graph } ((id, r) :: env) nonGenerics τ
        ((id, more) :: assumptions) := by
  have progress := advances.progress
  have inside := advances.inside (.inl List.mem_cons_self)
  have copies := of_wpExcept (makeGenericTypeExp_spec progress.wellFormed
    progress.clean assignedMiddle.prepared.ready.within fuel inside) returns
  rcases generalising_advances assigned.prepared.ready advances
    List.mem_cons_self copies id with ⟨-, readyBody⟩
  rcases assignedMiddle.generalises inside
    (advances.freely assignedMiddle.quiet (.inl List.mem_cons_self)) copies
    value generalises with ⟨more, subsumes, genericValue⟩
  exact ⟨more, subsumes, ⟨readyBody, assigned.prepared.rooted_cons _,
    assignedMiddle.prepared.untangled⟩, assignedMiddle.quiet,
    assignedMiddle.plainFor, .cons ⟨rfl, genericValue⟩
      (assignedMiddle.stands.keeps assignedMiddle.prepared.ready.inside
        (.of_allocates copies.allocates progress.wellFormed fun _ _ => rfl))⟩

theorem let_returns_iff {id : Symbol} {value body : Expression}
    (valueSpec : Determined tokens value) (bodySpec : Determined tokens body)
    (assigned : Assigned state env nonGenerics σ assumptions)
    (typing : Typing assumptions (.let_ range id value body) t) :
    Returns (fun fuel => analyze tokens fuel (.let_ range id value body) env
        nonGenerics) state ↔
      Orderly tokens (.let_ range id value body) env nonGenerics state := by
  cases typing with
  | let_ valueTyping generalises bodyTyping =>
  refine returning_returns_iff.trans ?_
  unfold analyzeLet
  rw [lasting_analyze.returns_bind_iff,
    valueSpec.returns_iff assigned valueTyping]
  have bodies : ∀ {defnType middle fuel generic graph},
      EndsCall tokens value env nonGenerics state defnType middle →
      makeGenericTypeExp fuel defnType nonGenerics middle.graph =
        .ok (generic, graph) →
      (Returns (fun fuel => analyze tokens fuel body ((id, generic) :: env)
          nonGenerics) { middle with graph := graph } ↔
        Orderly tokens body ((id, generic) :: env) nonGenerics
          { middle with graph := graph }) := by
    intro defnType middle fuel generic graph ends returned
    rcases EndsCall.found ends valueSpec.functions assigned valueTyping with
      ⟨defined, quiet, τ, plainTau, keeps, defnValue⟩
    rcases assigned.bindGeneric defined.advances (assigned.advance
        defined.advances defined.untangled quiet plainTau keeps) defnValue
      generalises returned id with ⟨more, subsumes, assignedBody⟩
    exact bodySpec.returns_iff assignedBody (bodyTyping.subsumed
      (.cons ⟨rfl, subsumes⟩ (Assumptions.Subsumes.refl assumptions)))
  have opposes : ∀ {defnType middle},
      EndsCall tokens value env nonGenerics state defnType middle →
      (Returns (fun fuel => onGraph
          (makeGenericTypeExp fuel defnType nonGenerics)) middle ↔
        middle.graph.Opposed defnType nonGenerics) := by
    intro defnType middle ends
    rcases EndsCall.found ends valueSpec.functions assigned valueTyping with
      ⟨defined, quiet, -⟩
    exact generic_returns_iff defined.advances
      (defined.advances.holds.ranked (defined.untangled quiet))
      (assigned.prepared.ready.advance defined.advances).within
      (.inl List.mem_cons_self)
  refine and_congr_right fun _ =>
    ⟨fun ends fuel defnType middle returned => ?_,
      fun orderly defnType middle ends => ?_⟩
  · have valueEnds := lasting_analyze.ends returned
    have rest := ends defnType middle valueEnds
    rw [lasting_generic.returns_bind_iff] at rest
    refine ⟨(opposes valueEnds).mp rest.1,
      fun more generic graph generalised => ?_⟩
    exact (bodies valueEnds generalised).mp (rest.2 generic _
      (lasting_generic.ends (onGraph_ok_iff.mpr ⟨graph, generalised, rfl⟩)))
  · rw [lasting_generic.returns_bind_iff, opposes ends]
    rcases ends with ⟨bound, returned⟩
    have value := returned bound (Nat.le_refl bound)
    rcases orderly bound defnType middle value with ⟨opposed, inBody⟩
    refine ⟨opposed, fun generic last ends' => ?_⟩
    rcases ends' with ⟨more, generics⟩
    rcases onGraph_ok_iff.mp (generics more (Nat.le_refl more)) with
      ⟨graph, generalised, rfl⟩
    exact (bodies (lasting_analyze.ends value) generalised).mpr
      (inBody more generic graph generalised)

/-- A let rec function has been analysed and unified with its variable. -/
structure Bound (state : CheckState) (env : TypeEnvironment)
    (nonGenerics : NonGenericTypeList) (assumptions : Assumptions)
    (σ τ : TypePointer → Ty Leaf) (t : Ty Leaf) (middle : CheckState) :
    Prop where
  advances : ∃ defnType, Advances nonGenerics state middle
    ([defnType] ++ [state.graph.size])
  untangled : middle.Untangled
  assigned : Assigned middle env nonGenerics τ assumptions
  keeps : Keeps state.graph middle.graph σ τ
  isVariable : (middle.graph.nodes state.graph.size).type = .variable_
  bound : ¬middle.graph.Unbound state.graph.size
  value : Values middle.graph τ state.graph.size t

/-- The function of a let rec is unified with its variable. -/
theorem Assigned.unifiesFunction {id : Symbol} {lambdaRange : TokenRange}
    {lambdaId : Symbol} {lambdaBody : Expression} {defnType : TypePointer}
    {defined : CheckState}
    (functions : RecursiveFunctions (.lambda lambdaRange lambdaId lambdaBody))
    (assigned : Assigned state env nonGenerics σ assumptions) (plain : t.Plain)
    (typing : Typing ((id, t) :: assumptions)
      (.lambda lambdaRange lambdaId lambdaBody) t)
    (ends : EndsCall tokens (.lambda lambdaRange lambdaId lambdaBody)
      ((id, state.graph.size) :: env) (state.graph.size :: nonGenerics)
      { state with graph := state.graph.add ⟨.variable_, none, .null⟩ } defnType
      defined) :
    ∃ middle τ, Arrives (fun fuel => unify tokens fuel range
        .inconsistentRecursion state.graph.size defnType) defined () middle ∧
      Bound state env nonGenerics assumptions σ τ t middle := by
  have ready := assigned.prepared.ready
  have opened := ready.start.addVariable
  have assignedValue := assigned.bindVariable id plain
  rcases EndsCall.found ends functions assignedValue typing with
    ⟨valued, quietDefined, τ, plainTau, keepsValue, defnValue⟩
  have insideVariable : state.graph.size <
      (state.graph.add ⟨.variable_, none, .null⟩).size := by simp
  have variableValue := keepsValue.values insideVariable .addVariable
  have unified : Returns (fun fuel => unify tokens fuel range
      .inconsistentRecursion state.graph.size defnType) defined :=
    unify_returns (fun code => by cases code) valued.advances valued.untangled
      quietDefined (.inr List.mem_cons_self) (.inl List.mem_cons_self)
      variableValue defnValue
  rcases unified with ⟨_, middle, unifies⟩
  refine ⟨middle, τ, unifies, ?_⟩
  rcases unifies.post fun fuel => wp_and (unify_concludes fuel valued.advances
      valued.untangled (.inr List.mem_cons_self) (.inl List.mem_cons_self))
    (unify_finds valued.advances valued.untangled quietDefined
      (.inr List.mem_cons_self) (.inl List.mem_cons_self) variableValue
      defnValue) with
    ⟨⟨-, -, -, same⟩, unified, untangled, extends_, quiet, keepsMiddle⟩
  have unifiedWhole := opened.trans unified known_cons
  have keepsWhole := ((Keeps.addVariable ready.wellFormed).trans
    keepsValue).trans keepsMiddle
  constructor
  · exact ⟨defnType, unifiedWhole⟩
  · exact untangled
  · exact assigned.advance unifiedWhole (fun _ => untangled) quiet plainTau
      keepsWhole
  · exact keepsWhole
  · rw [unified.progress.grows.type_eq insideVariable, TypeGraph.add_node]
  · rcases (same quiet).2 with ⟨u, variableTerm, defnTerm⟩
    rcases valued.defines assignedValue.prepared unified extends_ quietDefined
      quiet untangled variableTerm defnTerm with ⟨_, -, -, bound⟩
    exact bound
  · exact keepsMiddle.values
      (Nat.lt_of_lt_of_le insideVariable keepsValue.size) variableValue

/-- The state in which the body of a let rec is analysed. -/
def rebound (newType generic : TypePointer) (nonGenerics : NonGenericTypeList)
    (middle : CheckState) (graph : TypeGraph) : CheckState :=
  ⟨graph.bind newType generic, middle.errors,
    middle.log ++ [.rebinding newType nonGenerics middle.graph] ++
      [.rebound (graph.bind newType generic)]⟩

theorem rebound_returns_iff {run : Nat → CheckM TypePointer}
    {middle : CheckState} {a r : TypePointer} {graph : TypeGraph} :
    Returns (fun fuel => do
        onGraph (setVarInstance a r)
        record .rebound
        run fuel)
      ⟨graph, middle.errors,
        middle.log ++ [.rebinding a nonGenerics middle.graph]⟩ ↔
      Returns run (rebound a r nonGenerics middle graph) :=
  Iff.rfl

/-- The body of a let rec is analysed with a scheme as general as its own. -/
theorem Bound.bindGeneric {middle : CheckState} {fuel : Nat} {r : TypePointer}
    {graph : TypeGraph} {scheme : Ty Leaf} {τ : TypePointer → Ty Leaf}
    (recursive : Bound state env nonGenerics assumptions σ τ t middle)
    (assigned : Assigned state env nonGenerics σ assumptions)
    (generalises : Generalises assumptions t scheme)
    (returns : makeGenericTypeExp fuel state.graph.size nonGenerics
      middle.graph = .ok (r, graph)) (id : Symbol) :
    ∃ more, more.Subsumes scheme ∧
      Assigned (rebound state.graph.size r nonGenerics middle graph)
        ((id, state.graph.size) :: env) nonGenerics τ
        ((id, more) :: assumptions) := by
  have ready := assigned.prepared.ready
  have quiet := recursive.assigned.quiet
  have bound := recursive.bound
  have isVariable := recursive.isVariable
  rcases recursive.advances with ⟨defnType, whole⟩
  have sofar := whole.record
    (.rebinding state.graph.size nonGenerics middle.graph) trivial
    fun _ => trivial
  have isLive : state.graph.size ∈ [defnType] ++ [state.graph.size] := by simp
  have inside := sofar.inside (.inl isLive)
  have copies := of_wpExcept (makeGenericTypeExp_spec sofar.progress.wellFormed
    sofar.progress.clean (ready.advance sofar).within fuel inside) returns
  rcases rebinding_advances ready sofar isLive (Nat.le_refl _) isVariable
    (by simp) copies id with ⟨advances, readyBody⟩
  have recorded := advances.record (.rebound (graph.bind state.graph.size r))
    trivial fun untangled => ⟨advances.progress.wellFormed,
      advances.progress.clean, advances.holds.ranked untangled⟩
  rcases recursive.assigned.generalises inside
    (whole.freely quiet (.inl isLive)) copies recursive.value generalises with
    ⟨more, subsumes, u, genericTerm, rfl⟩
  have keepsRebound : Keeps state.graph (graph.bind state.graph.size r)
      σ τ := by
    refine ⟨advances.progress.grows.size, fun {p t} old values => ?_⟩
    rcases recursive.keeps.values old values with ⟨s, denotes, value⟩
    exact ⟨s, copies.rebound_old sofar ready.wellFormed inside (Nat.le_refl _)
      isVariable bound old denotes, value⟩
  have stands : Stands (graph.bind state.graph.size r) τ
      ((id, state.graph.size) :: env)
      ((id, u.bind (Leaf.under τ)) :: assumptions) :=
    .cons ⟨rfl, u, copies.rebound sofar.progress.wellFormed inside isVariable
      bound genericTerm, rfl⟩ (assigned.stands.keeps ready.inside keepsRebound)
  exact ⟨_, subsumes, ⟨readyBody.relog recorded.holds,
    assigned.prepared.rooted_cons _,
    fun _ => untangled_rebinding recursive.untangled bound⟩, quiet,
    recursive.assigned.plainFor, stands⟩

theorem letrec_returns_iff {id : Symbol} {lambdaRange : TokenRange}
    {lambdaId : Symbol} {lambdaBody body : Expression}
    (valueSpec : Determined tokens (.lambda lambdaRange lambdaId lambdaBody))
    (bodySpec : Determined tokens body)
    (assigned : Assigned state env nonGenerics σ assumptions)
    (typing : Typing assumptions (.letrec range id
      (.lambda lambdaRange lambdaId lambdaBody) body) t) :
    Returns (fun fuel => analyze tokens fuel (.letrec range id
        (.lambda lambdaRange lambdaId lambdaBody) body) env nonGenerics) state ↔
      Orderly tokens (.letrec range id
        (.lambda lambdaRange lambdaId lambdaBody) body) env nonGenerics
        state := by
  cases typing with
  | @letrec _ _ _ _ _ s _ _ plain valueTyping generalises bodyTyping =>
  have assignedValue := assigned.bindVariable id plain
  refine returning_returns_iff.trans ?_
  unfold analyzeLetRec
  rw [makeTypeVar_ends.returns_bind_iff (.const _),
    lasting_analyze.returns_bind_iff,
    valueSpec.returns_iff assignedValue valueTyping]
  -- What follows the unification of the function and its variable.
  have rests : ∀ {τ middle},
      Bound state env nonGenerics assumptions σ τ s middle →
      (Returns (fun fuel => do
          record (.rebinding state.graph.size nonGenerics)
          let generic ← onGraph
            (makeGenericTypeExp fuel state.graph.size nonGenerics)
          onGraph (setVarInstance state.graph.size generic)
          record .rebound
          analyze tokens fuel body ((id, state.graph.size) :: env)
            nonGenerics) middle ↔
        middle.graph.Opposed state.graph.size nonGenerics ∧
          ∀ fuel generic graph,
            makeGenericTypeExp fuel state.graph.size nonGenerics middle.graph =
              .ok (generic, graph) →
            Orderly tokens body ((id, state.graph.size) :: env) nonGenerics
              (rebound state.graph.size generic nonGenerics middle graph)) := by
    intro τ middle recursive
    rcases recursive.advances with ⟨defnType, whole⟩
    have sofar := whole.record
      (.rebinding state.graph.size nonGenerics middle.graph) trivial
      fun _ => trivial
    have recorded : Arrives (fun _ => record
        (.rebinding state.graph.size nonGenerics)) middle () _ :=
      .of_eq fun _ => rfl
    rw [recorded.returns_bind_iff (.const _), lasting_generic.returns_bind_iff,
      generic_returns_iff sofar (whole.holds.ranked recursive.untangled)
        recursive.assigned.prepared.ready.within (.inl (by simp))]
    have bodies : ∀ {fuel generic graph},
        makeGenericTypeExp fuel state.graph.size nonGenerics middle.graph =
          .ok (generic, graph) →
        (Returns (fun fuel => analyze tokens fuel body
            ((id, state.graph.size) :: env) nonGenerics)
            (rebound state.graph.size generic nonGenerics middle graph) ↔
          Orderly tokens body ((id, state.graph.size) :: env) nonGenerics
            (rebound state.graph.size generic nonGenerics middle graph)) := by
      intro fuel generic graph generalised
      rcases recursive.bindGeneric assigned generalises generalised id with
        ⟨more, subsumes, assignedBody⟩
      exact bodySpec.returns_iff assignedBody (bodyTyping.subsumed
        (.cons ⟨rfl, subsumes⟩ (Assumptions.Subsumes.refl assumptions)))
    refine and_congr_right fun _ =>
      ⟨fun ends fuel generic graph generalised => ?_,
        fun orderly generic last ends => ?_⟩
    · exact (bodies generalised).mp (rebound_returns_iff.mp
        (ends generic _ (lasting_generic.ends
          (onGraph_ok_iff.mpr ⟨graph, generalised, rfl⟩))))
    · rcases ends with ⟨fuel, generics⟩
      rcases onGraph_ok_iff.mp (generics fuel (Nat.le_refl fuel)) with
        ⟨graph, generalised, rfl⟩
      exact rebound_returns_iff.mpr
        ((bodies generalised).mpr (orderly fuel generic graph generalised))
  refine and_congr_right fun _ =>
    ⟨fun ends fuel defnType defined middle returned unified => ?_,
      fun orderly defnType defined ends => ?_⟩
  · have valueEnds := lasting_analyze.ends returned
    rcases assigned.unifiesFunction valueSpec.functions plain valueTyping
      valueEnds with ⟨_, τ, unifies, recursive⟩
    rcases unifies.unique (lasting_unify.ends unified) with ⟨-, rfl⟩
    exact (rests recursive).mp ((unifies.returns_bind_iff lasting_unify).mp
      (ends defnType defined valueEnds))
  · rcases assigned.unifiesFunction valueSpec.functions plain valueTyping ends
      with ⟨middle, τ, unifies, recursive⟩
    rw [unifies.returns_bind_iff lasting_unify]
    refine (rests recursive).mpr ?_
    rcases ends with ⟨bound, returned⟩
    rcases unifies with ⟨more, unified⟩
    exact orderly (max bound more) defnType defined middle
      (returned _ (Nat.le_max_left ..)) (unified _ (Nat.le_max_right ..))

/-- A call for an expression that has a type returns if it is orderly. -/
theorem determined (tokens : Tokens) (expression : Expression)
    (functions : RecursiveFunctions expression) :
    Determined tokens expression := by
  refine ⟨functions, ?_⟩
  induction expression with
  | identifier range id =>
      intro env nonGenerics state σ assumptions t assigned typing
      exact iff_of_true (identifier_returns id assigned) trivial
  | apply range function argument functionIh argumentIh =>
      intro env nonGenerics state σ assumptions t assigned typing
      exact apply_returns_iff ⟨functions.1, functionIh functions.1⟩
        ⟨functions.2, argumentIh functions.2⟩ assigned typing
  | lambda range id body bodyIh =>
      intro env nonGenerics state σ assumptions t assigned typing
      exact lambda_returns_iff ⟨functions, bodyIh functions⟩ assigned typing
  | let_ range id value body valueIh bodyIh =>
      intro env nonGenerics state σ assumptions t assigned typing
      exact let_returns_iff ⟨functions.1, valueIh functions.1⟩
        ⟨functions.2, bodyIh functions.2⟩ assigned typing
  | letrec range id value body valueIh bodyIh =>
      intro env nonGenerics state σ assumptions t assigned typing
      rcases functions with ⟨isLambda, inValue, inBody⟩
      cases value with
      | lambda lambdaRange lambdaId lambdaBody =>
          exact letrec_returns_iff ⟨inValue, valueIh inValue⟩
            ⟨inBody, bodyIh inBody⟩ assigned typing
      | _ => exact isLambda.elim
  | if_ range test thenArm elseArm testIh thenIh elseIh =>
      intro env nonGenerics state σ assumptions t assigned typing
      rcases functions with ⟨inTest, inThen, inElse⟩
      exact if_returns_iff ⟨inTest, testIh inTest⟩ ⟨inThen, thenIh inThen⟩
        ⟨inElse, elseIh inElse⟩ assigned typing
  | binary range operator left right leftIh rightIh =>
      intro env nonGenerics state σ assumptions t assigned typing
      exact binary_returns_iff ⟨functions.1, leftIh functions.1⟩
        ⟨functions.2, rightIh functions.2⟩ assigned typing
  | unary range operator arg argIh =>
      intro env nonGenerics state σ assumptions t assigned typing
      cases typing with
      | unary argTyping =>
          exact returning_returns_iff.trans (argIh functions assigned argTyping)
  | tuple range first rest length firstIh restIh =>
      intro env nonGenerics state σ assumptions t assigned typing
      exact tuple_returns_iff ⟨functions.1, firstIh functions.1⟩
        ⟨functions.2, restIh functions.2⟩ assigned typing
  | tupleFinal range first firstIh =>
      intro env nonGenerics state σ assumptions t assigned typing
      exact tupleFinal_returns_iff ⟨functions, firstIh functions⟩ assigned
        typing
  | integerConstant range literalValue =>
      intro env nonGenerics state σ assumptions t assigned typing
      exact iff_of_true ⟨_, _, .of_eq fun _ => rfl⟩ trivial
  | true_ range | false_ range =>
      intro env nonGenerics state σ assumptions t assigned typing
      exact iff_of_true ⟨_, _, .of_eq fun _ => rfl⟩ trivial
  | invalid range | error range =>
      intro env nonGenerics state σ assumptions t assigned typing
      cases typing

/-! ## Whole programs -/

/-- An orderly expression that has a type is accepted. -/
theorem Determined.accepted (spec : Determined tokens expression)
    (typing : Typing [] expression t)
    (orderly : Orderly tokens expression [] [] ⟨staticGraph, [], []⟩) :
    ∃ fuel type after,
      getExpressionType tokens fuel expression = (.ok type, after) ∧
        after.errors = [] := by
  rcases (spec.returns_iff assigned_static typing).mpr orderly with
    ⟨type, after, bound, returned⟩
  have returns : getExpressionType tokens bound expression =
      (.ok type, after) := returned bound (Nat.le_refl bound)
  exact ⟨bound, type, after, returns,
    (getExpressionType_quiet_iff spec.functions returns).mpr ⟨t, typing⟩⟩

/--
An expression whose let recs bind functions is accepted exactly if it has a
type and each of its generalisations meets the variables in the opposite order
of the non-generic list.
-/
theorem getExpressionType_decides {tokens : Tokens} {expression : Expression}
    (functions : RecursiveFunctions expression) :
    (∃ fuel type after,
      getExpressionType tokens fuel expression = (.ok type, after) ∧
        after.errors = []) ↔
      (∃ t, Typing [] expression t) ∧
        Orderly tokens expression [] [] ⟨staticGraph, [], []⟩ := by
  have spec := determined tokens expression functions
  constructor
  · rintro ⟨fuel, type, after, returns, quiet⟩
    rcases (getExpressionType_quiet_iff functions returns).mp quiet with
      ⟨t, typing⟩
    exact ⟨⟨t, typing⟩, (spec.returns_iff assigned_static typing).mp
      ⟨type, after, lasting_analyze.ends returns⟩⟩
  · rintro ⟨⟨t, typing⟩, orderly⟩
    exact spec.accepted typing orderly

end

/-- `fn x => fn y => let p = (x, y) in p`. -/
def pairing : Expression :=
  .lambda ⟨0, 0⟩ 1 (.lambda ⟨0, 0⟩ 2 (.let_ ⟨0, 0⟩ 3
    (.tuple ⟨0, 0⟩ (.identifier ⟨0, 0⟩ 1)
      (.tupleFinal ⟨0, 0⟩ (.identifier ⟨0, 0⟩ 2)) 2)
    (.identifier ⟨0, 0⟩ 3)))

theorem pairing_returns : ∃ fuel type after,
    getExpressionType noTokens fuel pairing = (.ok type, after) ∧
      after.errors = [] := by
  have returned : (getExpressionType noTokens 30 pairing).1.toOption.isSome =
      true := by decide +kernel
  have quiet : (getExpressionType noTokens 30 pairing).2.errors.isEmpty =
      true := by decide +kernel
  rcases run : getExpressionType noTokens 30 pairing with ⟨result, after⟩
  rw [run] at returned quiet
  cases result with
  | error stop => cases returned
  | ok type => exact ⟨30, type, after, run, List.isEmpty_iff.mp quiet⟩

/-- The non-generic list `[y, x]` has the variables of `(x, y)` turned round. -/
theorem getExpressionType_decides_pairing : (∃ t, Typing [] pairing t) ∧
    Orderly noTokens pairing [] [] ⟨staticGraph, [], []⟩ := by
  have functions : RecursiveFunctions pairing := by
    simp [pairing, RecursiveFunctions]
  exact (getExpressionType_decides functions).mp pairing_returns

/-! ## Generalisation at the top level -/

section

variable {tokens : Tokens} {expression : Expression} {env : TypeEnvironment}
  {nonGenerics : NonGenericTypeList} {state : CheckState}

/-- Nothing is bound by a let or a let rec. -/
def BindsNothing : Expression → Prop
  | .let_ _ _ _ _ | .letrec _ _ _ _ => False
  | .apply _ left right | .binary _ _ left right | .tuple _ left right _ =>
      BindsNothing left ∧ BindsNothing right
  | .if_ _ test thenArm elseArm =>
      BindsNothing test ∧ BindsNothing thenArm ∧ BindsNothing elseArm
  | .lambda _ _ inner | .unary _ _ inner | .tupleFinal _ inner =>
      BindsNothing inner
  | .identifier _ _ | .integerConstant _ _ | .true_ _ | .false_ _ | .error _
  | .invalid _ => True

/-- No let and no let rec is inside a function. -/
def BindsOutside : Expression → Prop
  | .lambda _ _ body => BindsNothing body
  | .letrec _ _ value body => BindsNothing value ∧ BindsOutside body
  | .let_ _ _ left right | .apply _ left right | .binary _ _ left right
  | .tuple _ left right _ => BindsOutside left ∧ BindsOutside right
  | .if_ _ test thenArm elseArm =>
      BindsOutside test ∧ BindsOutside thenArm ∧ BindsOutside elseArm
  | .unary _ _ inner | .tupleFinal _ inner => BindsOutside inner
  | .identifier _ _ | .integerConstant _ _ | .true_ _ | .false_ _ | .error _
  | .invalid _ => True

/-- Every order is opposite to that of the empty list. -/
theorem TypeGraph.opposed_nil (graph : TypeGraph) (type : TypePointer) :
    graph.Opposed type [] := by
  intro t terms _ denote
  cases denote
  exact fun _ _ _ _ => trivial

/-- What binds nothing makes no type generic. -/
theorem BindsNothing.orderly (bindsNothing : BindsNothing expression) :
    Orderly tokens expression env nonGenerics state := by
  induction expression generalizing env nonGenerics state with
  | apply _ left right leftIh rightIh | binary _ _ left right leftIh rightIh
  | tuple _ left right _ leftIh rightIh =>
      exact ⟨leftIh bindsNothing.1, fun _ _ _ _ => rightIh bindsNothing.2⟩
  | lambda _ _ inner ih => exact ih bindsNothing
  | if_ range test thenArm elseArm testIh thenIh elseIh =>
      exact ⟨testIh bindsNothing.1, fun _ _ _ _ _ _ =>
        ⟨thenIh bindsNothing.2.1, fun _ _ _ _ => elseIh bindsNothing.2.2⟩⟩
  | unary _ _ inner ih => exact ih bindsNothing
  | tupleFinal _ inner ih => exact ih bindsNothing
  | let_ | letrec => exact bindsNothing.elim
  | _ => trivial

/-- Outside of functions the non-generic list is empty. -/
theorem BindsOutside.orderly (bindsOutside : BindsOutside expression) :
    Orderly tokens expression env [] state := by
  induction expression generalizing env state with
  | apply _ left right leftIh rightIh | binary _ _ left right leftIh rightIh
  | tuple _ left right _ leftIh rightIh =>
      exact ⟨leftIh bindsOutside.1, fun _ _ _ _ => rightIh bindsOutside.2⟩
  | lambda _ _ body => exact BindsNothing.orderly bindsOutside
  | let_ range id value body valueIh bodyIh =>
      exact ⟨valueIh bindsOutside.1, fun _ type middle _ =>
        ⟨middle.graph.opposed_nil type, fun _ _ _ _ => bodyIh bindsOutside.2⟩⟩
  | letrec range id value body _ bodyIh =>
      exact ⟨bindsOutside.1.orderly, fun _ _ _ middle _ _ =>
        ⟨middle.graph.opposed_nil _, fun _ _ _ _ => bodyIh bindsOutside.2⟩⟩
  | if_ range test thenArm elseArm testIh thenIh elseIh =>
      exact ⟨testIh bindsOutside.1, fun _ _ _ _ _ _ =>
        ⟨thenIh bindsOutside.2.1, fun _ _ _ _ => elseIh bindsOutside.2.2⟩⟩
  | unary _ _ inner ih => exact ih bindsOutside
  | tupleFinal _ inner ih => exact ih bindsOutside
  | _ => trivial

/--
If no let or let rec is inside a function, the expressions that are accepted
are those that have a type.
-/
theorem getExpressionType_decides_outside {tokens : Tokens}
    {expression : Expression} (functions : RecursiveFunctions expression)
    (bindsOutside : BindsOutside expression) :
    (∃ fuel type after,
      getExpressionType tokens fuel expression = (.ok type, after) ∧
        after.errors = []) ↔ ∃ t, Typing [] expression t := by
  constructor
  · rintro ⟨fuel, type, after, returns, quiet⟩
    exact (getExpressionType_quiet_iff functions returns).mp quiet
  · rintro ⟨t, typing⟩
    exact (determined tokens expression functions).accepted typing
      bindsOutside.orderly

end

/-- `let id = fn x => x in id id`. -/
def selfApplied : Expression :=
  .let_ ⟨0, 0⟩ 1 (.lambda ⟨0, 0⟩ 2 (.identifier ⟨0, 0⟩ 2))
    (.apply ⟨0, 0⟩ (.identifier ⟨0, 0⟩ 1) (.identifier ⟨0, 0⟩ 1))

/-- The identity function may be applied to itself. -/
theorem selfApplied_typing : Typing [] selfApplied (.func .int .int) := by
  have plain : (Ty.leaf (Leaf.variable_ 0)).Plain := by
    intro a member
    exact ⟨0, List.mem_singleton.mp member⟩
  have scheme : Generalises [] (.func (.leaf (.variable_ 0))
      (.leaf (.variable_ 0))) (.func (.leaf (.generic 0))
        (.leaf (.generic 0))) := by
    refine ⟨fun v => v, fun v w _ _ _ _ same => same, ?_⟩
    decide
  have function : Ty.Plain (.func .int .int) := Ty.Plain.func_iff.mpr
    ⟨.int, .int⟩
  refine .let_ (.lambda plain (.identifier rfl ?_)) scheme
    (.apply (s := .func .int .int) (.identifier rfl ?_) (.identifier rfl ?_))
  · exact plain.admits_iff.mpr rfl
  · exact ⟨Ty.Plain.func_iff.mpr ⟨function, function⟩,
      fun _ => .func .int .int, rfl⟩
  · exact ⟨function, fun _ => .int, rfl⟩

theorem getExpressionType_decides_outside_selfApplied : ∃ fuel type after,
    getExpressionType noTokens fuel selfApplied = (.ok type, after) ∧
      after.errors = [] := by
  have functions : RecursiveFunctions selfApplied := by
    simp [selfApplied, RecursiveFunctions]
  have bindsOutside : BindsOutside selfApplied := by
    simp [selfApplied, BindsOutside, BindsNothing]
  exact (getExpressionType_decides_outside functions bindsOutside).mpr
    ⟨_, selfApplied_typing⟩

end Millie.Types
