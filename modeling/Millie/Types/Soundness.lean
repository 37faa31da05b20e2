import Millie.Types.Inference

/-!
# Soundness of the analysis

What `_Analyze` returns without reporting anything is the type of a derivation.
-/

namespace Millie.Types

open Relation Links Weakest
open Millie.Symbols Millie.Syntax

/-! ## The cases of the analysis -/

/-- What a call of the analysis concludes about an expression. -/
def Concludes (expression : Expression) (analyze : TypeEnvironment →
    NonGenericTypeList → CheckM TypePointer) : Prop :=
  ∀ {env nonGenerics state}, Prepared state env nonGenerics →
    wp (fun _ => True) (analyze env nonGenerics)
      (Concluded env nonGenerics expression state) state

section

variable {tokens : Tokens} {fuel : Nat} {range : TokenRange}
  {state : CheckState} {env : TypeEnvironment}
  {nonGenerics : NonGenericTypeList}

/-- A type that stands for a constant term is the type of a constant. -/
theorem Prepared.constant (prepared : Prepared state env nonGenerics)
    {p : TypePointer} {t : Ty Leaf} {expression : Expression}
    (advances : Advances nonGenerics state state [p])
    (denotes : Denotes state.graph p t)
    (typing : ∀ assumptions, Typing assumptions expression t) :
    Concluded env nonGenerics expression state p state where
  advances := advances
  untangled := prepared.untangled
  infers quiet := by
    rcases Scopes.exists_of_ranked (prepared.ranked quiet)
      prepared.ready.wellFormed prepared.ready.inside with
      ⟨assumptions, scopes⟩
    exact ⟨assumptions, t, scopes, denotes, typing assumptions⟩

/-- After an error nothing is concluded. -/
theorem Concluded.of_reported {expression : Expression} {p : TypePointer}
    {after : CheckState} (advances : Advances nonGenerics state after [p])
    (reported : after.errors ≠ []) :
    Concluded env nonGenerics expression state p after :=
  ⟨advances, fun quiet => absurd quiet reported,
    fun quiet => absurd quiet reported⟩

/-- The first binding of a name is made fresh. -/
theorem lookupType_first (fuel : Nat) (id : Symbol) {graph : TypeGraph}
    (wellFormed : graph.WellFormed) (clean : graph.Clean)
    {env : TypeEnvironment} (inside : ∀ entry ∈ env, entry.2 < graph.size) :
    wpExcept (fun _ => True) (lookupType fuel id env)
      (fun result after =>
        result = none ∧ env.lookup id = none ∧ after = graph ∨
        ∃ p r, (id, p) ∈ env ∧ env.lookup id = some p ∧ result = some r ∧
          Copies .freshen (fun _ => False) graph p r after) graph := by
  induction env with
  | nil => exact .inl ⟨rfl, rfl, rfl⟩
  | cons entry env ih =>
      rw [lookupType, List.lookup_cons]
      by_cases found : entry.1 = id
      · subst found
        rw [if_pos rfl, wpExcept_bind]
        apply wpExcept_mono (makeFreshTypeExp_spec wellFormed clean fuel
          (inside entry List.mem_cons_self)) ?_ fun _ _ => trivial
        intro r after copies
        exact .inr ⟨entry.2, r, List.mem_cons_self, by simp, rfl, copies⟩
      · have other : (id == entry.1) = false := by
          simpa using Ne.symm found
        rw [if_neg found, other]
        apply wpExcept_mono
          (ih fun entry member => inside entry (List.mem_cons_of_mem _ member))
          ?_ fun _ _ => trivial
        rintro result after (nowhere | ⟨p, r, member, first, rest⟩)
        · exact .inl nowhere
        · exact .inr ⟨p, r, List.mem_cons_of_mem _ member, first, rest⟩

theorem untangled_append {log : List CheckEvent} {event : CheckEvent}
    (untangled : ∀ e ∈ log, e.Untangled) (last : event.Untangled) :
    ∀ e ∈ log ++ [event], e.Untangled :=
  List.forall_mem_append.mpr ⟨untangled, List.forall_mem_singleton.mpr last⟩

theorem analyzeIdentifier_concludes (id : Symbol)
    (prepared : Prepared state env nonGenerics) :
    wp (fun _ => True) (analyzeIdentifier tokens fuel range id env)
      (Concluded env nonGenerics (.identifier range id) state) state := by
  have ready := prepared.ready
  have start := ready.start.record (.looking id env state.graph) trivial
    fun _ => trivial
  have logged := ready.relog start.holds
  rw [analyzeIdentifier, wp_bind, wp_record, wp_bind]
  apply wp_onGraph (lookupType_first fuel id logged.wellFormed logged.clean
    logged.inside) trivial
  rintro result graph (⟨rfl, -, rfl⟩ | ⟨p, r, member, found, rfl, copies⟩)
  · have reported := start.report ⟨"Unbound identifier",
      (tokens range.startToken).start,
      (tokens range.endToken).start + (tokens range.endToken).length⟩
    exact .of_reported (reported.error (by simp)) (by simp)
  · have step := copies.freshen ready.wellFormed ready.clean ready.within
      ready.free (ready.covered _ member) (ready.fails _ member)
    have advances := start.onGraph step (fun n isRoot => .inr isRoot)
      fun ranked =>
        ranked.allocates ready.wellFormed copies.allocates copies.ordered
    refine ⟨advances, fun quiet =>
      untangled_append (prepared.untangled quiet) trivial, fun quiet => ?_⟩
    rcases Scopes.exists_of_ranked (prepared.ranked quiet) ready.wellFormed
      ready.inside with ⟨assumptions, scopes⟩
    rcases scopes.lookup found with ⟨scheme, bound, denotes⟩
    rcases copies.copies with ⟨t, image, denotes', -, copy⟩
    cases denotes'.unique denotes
    refine ⟨assumptions, _,
      scopes.allocates copies.allocates ready.wellFormed ready.inside, copy,
      .identifier bound ⟨?_, fun g => .leaf (.variable_ (image g)), ?_⟩⟩
    · exact copy.plain_of_free
        (advances.freely quiet (.inl List.mem_cons_self))
    · apply Ty.bind_congr
      intro a _
      cases a <;> rfl

/-- The body of a function binds a new variable that is not generic. -/
theorem Prepared.bindVariable (prepared : Prepared state env nonGenerics)
    (id : Symbol) :
    Prepared
      { state with graph := state.graph.add ⟨.variable_, none, .null⟩ }
      ((id, state.graph.size) :: env) (state.graph.size :: nonGenerics) := by
  have opened := prepared.ready.start.addVariable
  refine ⟨(prepared.ready.advance opened).bindNonGeneric id
    (opened.inside (.inl List.mem_cons_self))
    (opened.progress.free _ (.inl List.mem_cons_self)), ?_,
    prepared.untangled⟩
  intro n member
  rcases List.mem_cons.mp member with rfl | isRoot
  · exact ⟨_, List.mem_cons_self, rfl⟩
  · exact prepared.rooted_cons _ n isRoot

theorem known_cons {p : TypePointer} :
    ∀ n ∈ p :: nonGenerics, n ∈ [p] ∨ n ∈ nonGenerics := by
  intro n member
  rcases List.mem_cons.mp member with rfl | isRoot
  · exact .inl (List.mem_singleton_self _)
  · exact .inr isRoot

theorem analyzeLambda_concludes (lambdaId : Symbol)
    {bodyExpression : Expression}
    {body : TypeEnvironment → NonGenericTypeList → CheckM TypePointer}
    (bodySpec : Concludes bodyExpression body)
    (prepared : Prepared state env nonGenerics) :
    wp (fun _ => True) (analyzeLambda lambdaId body env nonGenerics)
      (Concluded env nonGenerics (.lambda range lambdaId bodyExpression)
        state) state := by
  have opened := prepared.ready.start.addVariable
  rw [analyzeLambda, wp_bind, makeTypeVar, wp_onGraph_allocate, wp_bind]
  apply wp_mono (bodySpec (prepared.bindVariable lambdaId)) ?_ fun _ => id
  intro resultType after analyzed
  have whole := opened.trans analyzed.advances known_cons
  have made := whole.addBoth .func (a := state.graph.size) (.inl (by simp))
    (b := resultType) (.inl (by simp))
  rw [makeFunctionType, wp_onGraph_allocate]
  refine ⟨made.mono (by simp), analyzed.untangled, fun quiet => ?_⟩
  rcases analyzed.infers quiet with ⟨_, t, scopes, denotes, typing⟩
  cases scopes with
  | @cons _ assumption _ assumptions here rest =>
      rcases assumption with ⟨id, s⟩
      cases here.1
      have wellFormed := analyzed.advances.progress.wellFormed
      have allocates := TypeGraph.add_allocates after.graph
        ⟨.func, some state.graph.size, .type resultType⟩
      refine ⟨assumptions, .func s t, Scopes.allocates rest allocates wellFormed
        (prepared.ready.advance whole).inside,
        .func (TypeGraph.add_node _ _) ?_ ?_, .lambda ?_ typing⟩
      · exact allocates.denotes wellFormed (whole.inside (.inl (by simp)))
          here.2
      · exact allocates.denotes wellFormed (whole.inside (.inl (by simp)))
          denotes
      · exact here.2.plain_of_free (whole.freely quiet (.inl (by simp)))

theorem analyzeApply_concludes {functionExpression argumentExpression :
      Expression}
    {function argument : TypeEnvironment → NonGenericTypeList →
      CheckM TypePointer} (functionSpec : Concludes functionExpression function)
    (argumentSpec : Concludes argumentExpression argument)
    (prepared : Prepared state env nonGenerics) :
    wp (fun _ => True)
      (analyzeApply tokens fuel range (function env nonGenerics)
        (argument env nonGenerics))
      (Concluded env nonGenerics
        (.apply range functionExpression argumentExpression) state) state := by
  rw [analyzeApply, wp_bind]
  apply wp_mono (functionSpec prepared) ?_ fun _ => id
  intro functionType middle first
  have preparedArgument := prepared.advance first.advances first.untangled
  rw [wp_bind]
  apply wp_mono (argumentSpec preparedArgument) ?_ fun _ => id
  intro argType after second
  have both := first.advances.trans second.advances fun _ => .inr
  rw [wp_bind, wp_isErrorType]
  split
  · rename_i isError
    have reported := isErrorType_advances both (.inl (by simp)) isError
    exact .of_reported ((both.error reported).mono (by simp)) reported
  rw [wp_bind, wp_isErrorType]
  split
  · rename_i isError
    have reported := isErrorType_advances both (.inl (by simp)) isError
    exact .of_reported ((both.error reported).mono (by simp)) reported
  have result := both.addVariable
  have wanted := result.addBoth .func (a := argType) (.inl (by simp))
    (b := after.graph.size) (.inl (by simp))
  rw [wp_bind, makeTypeVar, wp_onGraph_allocate, wp_bind, makeFunctionType,
    wp_onGraph_allocate, wp_bind]
  apply wp_mono (unify_concludes fuel wanted second.untangled
    (.inl List.mem_cons_self) (.inl (by simp))) ?_ fun _ => id
  rintro - final ⟨unified, extends_, errors, same⟩
  refine ⟨unified.mono (by simp), fun quiet => (same quiet).1, fun quiet => ?_⟩
  rcases same quiet with ⟨untangled, u, wantedTerm, functionTerm⟩
  have ranked := unified.holds.ranked untangled
  have wellFormed := unified.progress.wellFormed
  have quietAfter : after.errors = [] := List.prefix_nil.mp (quiet ▸ errors)
  have later : Extends after.graph final.graph :=
    ((both.extends_add result).trans (result.extends_add wanted)).trans extends_
  have functionInfers := (first.infers (second.advances.quiet quietAfter)).later
    preparedArgument.ready (first.advances.inside (.inl (by simp))) unified
    (by simp) (second.advances.extends.trans later) quiet ranked
  have argumentInfers := (second.infers quietAfter).later
    (preparedArgument.ready.advance second.advances)
    (second.advances.inside (.inl (by simp))) unified (by simp) later quiet
    ranked
  have node := extends_.added (by simp)
  rcases Scopes.exists_of_ranked ranked wellFormed
    (prepared.ready.advance unified).inside with ⟨assumptions, scopes⟩
  rcases ranked.denotes wellFormed (unified.inside (p := argType)
    (.inl (by simp))) with ⟨s, argTerm⟩
  rcases ranked.denotes wellFormed (unified.inside (p := after.graph.size)
    (.inl (by simp))) with ⟨t, resultTerm⟩
  cases wantedTerm.unique (.func node argTerm resultTerm)
  exact ⟨assumptions, t, scopes, resultTerm,
    .apply (functionInfers.typing scopes functionTerm)
      (argumentInfers.typing scopes argTerm)⟩

end

section

variable {tokens : Tokens} {fuel : Nat} {range : TokenRange}
  {state : CheckState} {env : TypeEnvironment}
  {nonGenerics : NonGenericTypeList}

theorem analyzeLet_concludes (letId : Symbol)
    {valueExpression bodyExpression : Expression}
    {value body : TypeEnvironment → NonGenericTypeList → CheckM TypePointer}
    (valueSpec : Concludes valueExpression value)
    (bodySpec : Concludes bodyExpression body)
    (prepared : Prepared state env nonGenerics) :
    wp (fun _ => True) (analyzeLet fuel letId value body env nonGenerics)
      (Concluded env nonGenerics
        (.let_ range letId valueExpression bodyExpression) state) state := by
  rw [analyzeLet, wp_bind]
  apply wp_mono (valueSpec prepared) ?_ fun _ => id
  intro defnType middle defined
  have progress := defined.advances.progress
  have preparedMiddle := prepared.advance defined.advances defined.untangled
  have inside := defined.advances.inside (.inl List.mem_cons_self)
  rw [wp_bind]
  apply wp_onGraph (makeGenericTypeExp_spec progress.wellFormed progress.clean
    preparedMiddle.ready.within fuel inside) trivial
  intro generic graph copies
  rcases generalising_advances prepared.ready defined.advances
    List.mem_cons_self copies letId with ⟨allocated, readyBody⟩
  apply wp_mono (bodySpec ⟨readyBody, prepared.rooted_cons _,
    defined.untangled⟩) ?_ fun _ => id
  intro type after analyzed
  have whole := allocated.trans analyzed.advances fun _ => .inr
  refine ⟨whole.mono (by simp), analyzed.untangled, fun quiet => ?_⟩
  rcases defined.infers (analyzed.advances.quiet quiet) with
    ⟨assumptions, s, scopes, denotes, valueTyping⟩
  rcases preparedMiddle.generalises scopes inside copies denotes
    valueTyping.plain with ⟨scheme, schemeTerm, generalises⟩
  rcases analyzed.infers quiet with ⟨_, t, scopes', bodyTerm, bodyTyping⟩
  have bound : Scopes graph ((letId, generic) :: env)
      ((letId, scheme) :: assumptions) :=
    .cons ⟨rfl, schemeTerm⟩ (scopes.allocates copies.allocates
      progress.wellFormed preparedMiddle.ready.inside)
  have carried := readyBody.carry analyzed.advances quiet
    (analyzed.untangled quiet) bound
  cases scopes'.unique carried
  rcases valueTyping.subst_generalised generalises
    (plainFor_term after.graph) with ⟨s', valueTyping', generalises'⟩
  cases carried with
  | cons _ rest =>
      exact ⟨_, t, rest, bodyTerm, .let_ valueTyping' generalises' bodyTyping⟩

/-- A rebinding changes no term in which the variable's term stays the same. -/
theorem Denotes.rebound {graph : TypeGraph} {a b p : TypePointer} {t : Ty Leaf}
    (denotes : Denotes graph p t)
    (kept : ∀ u, graph.Reaches p a → Denotes graph a u →
      Denotes (graph.bind a b) a u) : Denotes (graph.bind a b) p t := by
  have other : ∀ {p : TypePointer}, p ≠ a →
      (graph.bind a b).nodes p = graph.nodes p :=
    TypeGraph.bind_old graph b
  have elsewhere : ∀ {p : TypePointer} {t : Ty Leaf}, Denotes graph p t →
      (∀ u, graph.Reaches p a → Denotes graph a u →
        Denotes (graph.bind a b) a u) →
      (p ≠ a → Denotes (graph.bind a b) p t) →
        Denotes (graph.bind a b) p t := by
    intro p t denotes kept apart
    by_cases here : p = a
    · subst here
      exact kept t .refl denotes
    · exact apart here
  induction denotes with
  | bound node instance_ ih =>
      refine elsewhere (.bound node instance_) kept fun here =>
        .bound ((other here).trans node) (ih fun u path => kept u ?_)
      exact .head (.inl (by rw [node])) path
  | unbound node =>
      exact elsewhere (.unbound node) kept fun here =>
        .unbound ((other here).trans node)
  | generic node =>
      exact elsewhere (.generic node) kept fun here =>
        .generic ((other here).trans node)
  | error node =>
      exact elsewhere (.error node) kept fun here =>
        .error ((other here).trans node)
  | int node =>
      exact elsewhere (.int node) kept fun here =>
        .int ((other here).trans node)
  | bool node =>
      exact elsewhere (.bool node) kept fun here =>
        .bool ((other here).trans node)
  | func node first second firstIh secondIh =>
      refine elsewhere (.func node first second) kept fun here =>
        .func ((other here).trans node) (firstIh fun u path => kept u ?_)
          (secondIh fun u path => kept u ?_)
      · exact .head (.inl (by rw [node])) path
      · exact .head (.inr ⟨by simp [TypeExp.IsVariable, node], by rw [node]⟩)
          path
  | tuple node first second firstIh secondIh =>
      refine elsewhere (.tuple node first second) kept fun here =>
        .tuple ((other here).trans node) (firstIh fun u path => kept u ?_)
          (secondIh fun u path => kept u ?_)
      · exact .head (.inl (by rw [node])) path
      · exact .head (.inr ⟨by simp [TypeExp.IsVariable, node], by rw [node]⟩)
          path
  | tupleFinal node first firstIh =>
      refine elsewhere (.tupleFinal node first) kept fun here =>
        .tupleFinal ((other here).trans node) (firstIh fun u path => kept u ?_)
      exact .head (.inl (by rw [node])) path

/-- A rebound variable stands for what its new instance stands for. -/
theorem Copies.rebound {base graph : TypeGraph} {roots : List TypePointer}
    {a r : TypePointer}
    (copies : Copies .generalize (base.ReachedFrom roots) base a r graph)
    (wellFormed : base.WellFormed) (inside : a < base.size)
    (isVariable : (base.nodes a).type = .variable_) (bound : ¬base.Unbound a)
    {t : Ty Leaf} (denotes : Denotes graph r t) :
    Denotes (graph.bind a r) a t := by
  have other : r ≠ a := fun same =>
    bound (rebinding_entangled copies isVariable inside same).1
  have apart := rebinding_apart copies wellFormed inside other
  have kind := (copies.allocates.same a inside).1.trans isVariable
  have node := TypeGraph.bind_node graph a r
  generalize graph.nodes a = exp at node kind
  rcases exp with ⟨type, first, second⟩
  cases kind
  exact .bound node (denotes.bind_apart apart)

/-- What a rebinding without errors leaves of the environment. -/
theorem Prepared.rebinds (prepared : Prepared state env nonGenerics)
    {assumptions : Assumptions}
    (scopes : Scopes state.graph env assumptions) {a r : TypePointer}
    (inside : a < state.graph.size)
    (isVariable : (state.graph.nodes a).type = .variable_)
    (bound : ¬state.graph.Unbound a) {graph : TypeGraph}
    (copies : Copies .generalize (state.graph.ReachedFrom nonGenerics)
      state.graph a r graph) {t : Ty Leaf} (denotes : Denotes state.graph a t)
    (plain : t.Plain) (id : Symbol) :
    ∃ scheme, Generalises assumptions t scheme ∧
      Scopes (graph.bind a r) ((id, a) :: env)
        ((id, scheme) :: assumptions) := by
  have wellFormed := prepared.ready.wellFormed
  have allocates := copies.allocates
  rcases prepared.generalises scopes inside copies denotes plain with
    ⟨scheme, schemeTerm, generalises⟩
  have rebound : Denotes (graph.bind a r) a scheme :=
    copies.rebound wellFormed inside isVariable bound schemeTerm
  refine ⟨scheme, generalises, .cons ⟨rfl, rebound⟩ ?_⟩
  apply (scopes.allocates allocates wellFormed prepared.ready.inside).mono
  intro entry member u entryTerm
  apply entryTerm.rebound
  intro t' path denotes'
  cases denotes'.unique (allocates.denotes wellFormed inside denotes)
  -- What an entry reaches keeps its variables, so it is its own scheme.
  have whole : scheme = t := by
    apply generalises.eq_of_mentioned plain
    intro v inLeaves
    rcases denotes.mem_variables.mp inLeaves with ⟨route, unbound⟩
    have upTo := (allocates.reaches_iff wellFormed
      (prepared.ready.inside entry member)).mp path
    exact scopes.mentions_iff.mpr ⟨entry, member, upTo.trans route, unbound⟩
  rw [← whole]
  exact rebound

/-- A variable with an instance is not entangled when it is rebound. -/
theorem untangled_rebinding {log : List CheckEvent} {a : TypePointer}
    {graph after : TypeGraph} (untangled : ∀ event ∈ log, event.Untangled)
    (bound : ¬graph.Unbound a) :
    ∀ event ∈ log ++ [.rebinding a nonGenerics graph] ++ [.rebound after],
      event.Untangled :=
  untangled_append
    (untangled_append untangled fun entangled => bound entangled.1) trivial

/--
The value of a let rec has the type of a function, so the variable that stands
for it got an instance.
-/
theorem Concluded.defines {opened defined middle : CheckState} {letId : Symbol}
    {a defnType : TypePointer} {lambdaRange : TokenRange} {lambdaId : Symbol}
    {lambdaBody : Expression}
    (valued : Concluded ((letId, a) :: env) (a :: nonGenerics)
      (.lambda lambdaRange lambdaId lambdaBody) opened defnType defined)
    (prepared : Prepared opened ((letId, a) :: env) (a :: nonGenerics))
    (unified : Advances (a :: nonGenerics) opened middle [defnType])
    (extends_ : Extends defined.graph middle.graph)
    (quietDefined : defined.errors = []) (quiet : middle.errors = [])
    (untangled : middle.Untangled) {t : Ty Leaf}
    (variableTerm : Denotes middle.graph a t)
    (defnTerm : Denotes middle.graph defnType t) :
    ∃ assumptions, Scopes middle.graph env assumptions ∧
      Typing ((letId, t) :: assumptions)
        (.lambda lambdaRange lambdaId lambdaBody) t ∧
      ¬middle.graph.Unbound a := by
  have infers := (valued.infers quietDefined).later
    (prepared.ready.advance valued.advances)
    (valued.advances.inside (.inl (by simp))) unified (by simp) extends_ quiet
    (unified.holds.ranked untangled)
  rcases infers with ⟨_, t', scopes, defnTerm', typing⟩
  cases defnTerm.unique defnTerm'
  cases scopes with
  | @cons _ assumption _ assumptions here rest =>
      rcases assumption with ⟨id, s⟩
      cases here.1
      cases variableTerm.unique here.2
      refine ⟨assumptions, rest, typing, fun unbound => ?_⟩
      cases variableTerm.unique (.of_unbound unbound)
      cases typing

theorem analyzeLetRec_concludes (letId : Symbol) {lambdaRange : TokenRange}
    {lambdaId : Symbol} {lambdaBody bodyExpression : Expression}
    {value body : TypeEnvironment → NonGenericTypeList → CheckM TypePointer}
    (valueSpec : Concludes (.lambda lambdaRange lambdaId lambdaBody) value)
    (bodySpec : Concludes bodyExpression body)
    (prepared : Prepared state env nonGenerics) :
    wp (fun _ => True)
      (analyzeLetRec tokens fuel range letId value body env nonGenerics)
      (Concluded env nonGenerics (.letrec range letId
        (.lambda lambdaRange lambdaId lambdaBody) bodyExpression) state)
      state := by
  have ready := prepared.ready
  have opened := ready.start.addVariable
  have preparedValue := prepared.bindVariable letId
  rw [analyzeLetRec, wp_bind, makeTypeVar, wp_onGraph_allocate, wp_bind]
  apply wp_mono (valueSpec preparedValue) ?_ fun _ => id
  intro defnType defined valued
  rw [wp_bind]
  apply wp_mono (unify_concludes fuel valued.advances valued.untangled
    (.inr List.mem_cons_self) (.inl List.mem_cons_self)) ?_ fun _ => id
  rintro - middle ⟨unified, extends_, errors, same⟩
  have unifiedWhole := opened.trans unified known_cons
  have sofar := unifiedWhole.record
    (.rebinding state.graph.size nonGenerics middle.graph) trivial
    fun _ => trivial
  have isLive : state.graph.size ∈ [defnType] ++ [state.graph.size] := by simp
  have insideVariable := sofar.inside (.inl isLive)
  have isVariable : (middle.graph.nodes state.graph.size).type =
      .variable_ := by
    rw [unified.progress.grows.type_eq
      (opened.inside (.inl List.mem_cons_self)), TypeGraph.add_node]
  have defines : middle.errors = [] → ∃ assumptions t,
      Scopes middle.graph env assumptions ∧
        Denotes middle.graph state.graph.size t ∧
        Typing ((letId, t) :: assumptions)
          (.lambda lambdaRange lambdaId lambdaBody) t ∧
        ¬middle.graph.Unbound state.graph.size := by
    intro quiet
    rcases same quiet with ⟨untangled, t, variableTerm, defnTerm⟩
    rcases valued.defines preparedValue unified extends_
      (List.prefix_nil.mp (quiet ▸ errors)) quiet untangled variableTerm
      defnTerm with ⟨assumptions, scopes, typing, bound⟩
    exact ⟨assumptions, t, scopes, variableTerm, typing, bound⟩
  rw [wp_bind, wp_record, wp_bind]
  apply wp_onGraph (makeGenericTypeExp_spec sofar.progress.wellFormed
    sofar.progress.clean (ready.advance sofar).within fuel insideVariable)
    trivial
  intro generic graph copies
  rcases rebinding_advances ready sofar isLive (Nat.le_refl _) isVariable
    (by simp) copies letId with ⟨rebound, readyBody⟩
  have untangled : middle.errors = [] → CheckState.Untangled
      { middle with
        graph := graph.bind state.graph.size generic
        log := middle.log ++
          [.rebinding state.graph.size nonGenerics middle.graph] ++
          [.rebound (graph.bind state.graph.size generic)] } := by
    intro quiet
    rcases defines quiet with ⟨_, _, _, _, _, bound⟩
    exact untangled_rebinding (same quiet).1 bound
  have recorded := rebound.record
    (.rebound (graph.bind state.graph.size generic)) trivial
    fun untangled => ⟨rebound.progress.wellFormed, rebound.progress.clean,
      rebound.holds.ranked untangled⟩
  have readyAfter := readyBody.relog recorded.holds
  rw [wp_bind, wp_onGraph_setVarInstance, wp_bind, wp_record]
  apply wp_mono (bodySpec ⟨readyAfter, prepared.rooted_cons _, untangled⟩) ?_
    fun _ => id
  intro type after analyzed
  have whole := recorded.trans analyzed.advances fun _ => .inr
  refine ⟨whole.mono (by simp), analyzed.untangled, fun quiet => ?_⟩
  have quietMiddle : middle.errors = [] := analyzed.advances.quiet quiet
  rcases defines quietMiddle with
    ⟨assumptions, s, scopes, variableTerm, valueTyping, bound⟩
  rcases (prepared.advance unifiedWhole fun quiet => (same quiet).1).rebinds
    scopes insideVariable isVariable bound copies variableTerm
    valueTyping.plain letId with ⟨scheme, generalises, inBody⟩
  rcases analyzed.infers quiet with ⟨_, t, scopes', bodyTerm, bodyTyping⟩
  have carried := readyAfter.carry analyzed.advances quiet
    (analyzed.untangled quiet) inBody
  cases scopes'.unique carried
  rcases valueTyping.subst_recursive generalises
    (plainFor_term after.graph) with ⟨s', plain, valueTyping', generalises'⟩
  cases carried with
  | cons _ rest =>
      exact ⟨_, t, rest, bodyTerm,
        .letrec plain valueTyping' generalises' bodyTyping⟩

theorem analyzeIf_concludes {testRange : TokenRange}
    {testExpression thenExpression elseExpression : Expression}
    {test thenArm elseArm : TypeEnvironment → NonGenericTypeList →
      CheckM TypePointer} (testSpec : Concludes testExpression test)
    (thenSpec : Concludes thenExpression thenArm)
    (elseSpec : Concludes elseExpression elseArm)
    (prepared : Prepared state env nonGenerics) :
    wp (fun _ => True)
      (analyzeIf tokens fuel range testRange (test env nonGenerics)
        (thenArm env nonGenerics) (elseArm env nonGenerics))
      (Concluded env nonGenerics
        (.if_ range testExpression thenExpression elseExpression) state)
      state := by
  rw [analyzeIf, wp_bind]
  apply wp_mono (testSpec prepared) ?_ fun _ => id
  intro condType tested first
  have readyTested := prepared.ready.advance first.advances
  rw [wp_bind]
  apply wp_mono (unify_concludes fuel first.advances.boolean first.untangled
    (.inl (by simp)) (.inl List.mem_cons_self)) ?_ fun _ => id
  rintro - conditioned ⟨second, extendsTest, errorsTest, sameTest⟩
  have preparedThen := prepared.advance second fun quiet => (sameTest quiet).1
  rw [wp_bind]
  apply wp_mono (thenSpec preparedThen) ?_ fun _ => id
  intro thenType middle third
  have preparedElse := preparedThen.advance third.advances third.untangled
  rw [wp_bind]
  apply wp_mono (elseSpec preparedElse) ?_ fun _ => id
  intro elseType after fourth
  have readyAfter := preparedElse.ready.advance fourth.advances
  have sofar := (second.trans third.advances fun _ => .inr).trans
    fourth.advances fun _ => .inr
  rw [wp_bind]
  apply wp_mono (unify_concludes fuel sofar fourth.untangled (p := thenType)
    (.inl (by simp)) (q := elseType) (.inl (by simp))) ?_ fun _ => id
  rintro - final ⟨unified, extends_, errors, same⟩
  refine ⟨unified.mono (by simp), fun quiet => (same quiet).1, fun quiet => ?_⟩
  rcases same quiet with ⟨untangled, t, thenTerm, elseTerm⟩
  have ranked := unified.holds.ranked untangled
  have quietAfter : after.errors = [] := List.prefix_nil.mp (quiet ▸ errors)
  have quietMiddle := fourth.advances.quiet quietAfter
  have quietTest := third.advances.quiet quietMiddle
  have laterThen := fourth.advances.extends.trans extends_
  have laterTest := third.advances.extends.trans laterThen
  have testInfers := (first.infers
    (List.prefix_nil.mp (quietTest ▸ errorsTest))).later readyTested
    (first.advances.inside (.inl (by simp))) unified (by simp)
    (extendsTest.trans laterTest) quiet ranked
  have thenInfers := (third.infers quietMiddle).later preparedElse.ready
    (third.advances.inside (.inl (by simp))) unified (by simp) laterThen quiet
    ranked
  have elseInfers := (fourth.infers quietAfter).later readyAfter
    (fourth.advances.inside (.inl (by simp))) unified (by simp) extends_ quiet
    ranked
  -- The test still has the type that it was unified with.
  have testTerm : Denotes final.graph condType .bool := by
    rcases (sameTest quietTest).2 with ⟨u, condTerm, boolTerm⟩
    have wellFormed := second.progress.wellFormed
    cases boolTerm.unique (.bool wellFormed.boolean)
    exact laterTest.settled wellFormed (second.inside (.inl (by simp)))
      condTerm fun _ member => absurd member List.not_mem_nil
  rcases Scopes.exists_of_ranked ranked unified.progress.wellFormed
    (prepared.ready.advance unified).inside with ⟨assumptions, scopes⟩
  exact ⟨assumptions, t, scopes, thenTerm,
    .if_ (testInfers.typing scopes testTerm) (thenInfers.typing scopes thenTerm)
      (elseInfers.typing scopes elseTerm)⟩

end

section

variable {tokens : Tokens} {fuel : Nat} {range : TokenRange}
  {state : CheckState} {env : TypeEnvironment}
  {nonGenerics : NonGenericTypeList}

/-- An entry of the operator table follows the typing rule. -/
theorem operators_types {op : OperatorEntry} (member : op ∈ operators) :
    (op.left = none ∨ op.left = some integerTypeExp) ∧
      (op.right = none ∨ op.right = some integerTypeExp) ∧
      (op.left = some integerTypeExp ∧ op.result = integerTypeExp ∧
          op.token ∈ [.tokPlus, .tokMinus, .tokStar, .tokSlash] ∨
        op.token = .tokEquals ∧ op.result = booleanTypeExp) := by
  simp only [operators, List.mem_cons, List.not_mem_nil, or_false] at member
  rcases member with rfl | rfl | rfl | rfl | rfl <;> simp

theorem unifyOperand_concludes {roots live : List TypePointer}
    {before : CheckState} {operand : TypePointer}
    {required : Option TypePointer}
    (static : required = none ∨ required = some integerTypeExp)
    (sofar : Advances roots before state live)
    (untangled : state.errors = [] → state.Untangled)
    (isLive : operand ∈ live) :
    wp (fun _ => True) (unifyOperand tokens fuel range operand required)
      (fun _ after => Advances roots before after live ∧
        Extends state.graph after.graph ∧
        state.errors <+: after.errors ∧
        (after.errors = [] → after.Untangled ∧
          (required = some integerTypeExp →
            Denotes after.graph operand .int))) state := by
  rcases static with rfl | rfl
  · exact ⟨sofar, .refl sofar.progress.wellFormed sofar.progress.clean,
      List.prefix_refl _, fun quiet => ⟨untangled quiet, fun same => by simp at same⟩⟩
  · apply wp_mono (unify_concludes fuel sofar.integer untangled
      (.inl (List.mem_cons_of_mem _ isLive)) (.inl List.mem_cons_self)) ?_
      fun _ => id
    rintro - after ⟨unified, extends_, errors, same⟩
    refine ⟨unified.mono fun p member => .inl (List.mem_cons_of_mem _ member),
      extends_, errors, fun quiet => ⟨(same quiet).1, fun _ => ?_⟩⟩
    rcases (same quiet).2 with ⟨t, operandTerm, integerTerm⟩
    cases integerTerm.unique (.int unified.progress.wellFormed.integer)
    exact operandTerm

theorem analyzeBinary_concludes (operator : TokenType)
    {leftExpression rightExpression : Expression}
    {binaryLeft binaryRight : TypeEnvironment → NonGenericTypeList →
      CheckM TypePointer} (leftSpec : Concludes leftExpression binaryLeft)
    (rightSpec : Concludes rightExpression binaryRight)
    (prepared : Prepared state env nonGenerics) :
    wp (fun _ => True)
      (analyzeBinary tokens fuel range operator (binaryLeft env nonGenerics)
        (binaryRight env nonGenerics))
      (Concluded env nonGenerics
        (.binary range operator leftExpression rightExpression) state)
      state := by
  rw [analyzeBinary, wp_bind]
  apply wp_mono (leftSpec prepared) ?_ fun _ => id
  intro left middle first
  have preparedRight := prepared.advance first.advances first.untangled
  rw [wp_bind]
  apply wp_mono (rightSpec preparedRight) ?_ fun _ => id
  intro right after second
  have readyAfter := preparedRight.ready.advance second.advances
  have both := first.advances.trans second.advances fun _ => .inr
  split
  · exact trivial
  rename_i op found
  have isOperator : op.token = operator := by
    simpa using List.find?_some found
  rcases operators_types (List.mem_of_find?_eq_some found) with
    ⟨staticLeft, staticRight, rule⟩
  rw [wp_bind]
  apply wp_mono (unifyOperand_concludes staticLeft both second.untangled
    (by simp)) ?_ fun _ => id
  rintro - afterLeft ⟨third, extendsLeft, errorsLeft, sameLeft⟩
  rw [wp_bind]
  apply wp_mono (unifyOperand_concludes staticRight third
    (fun quiet => (sameLeft quiet).1) (by simp)) ?_ fun _ => id
  rintro - afterRight ⟨fourth, extendsRight, errorsRight, sameRight⟩
  rw [wp_bind]
  apply wp_mono (unify_concludes fuel fourth (fun quiet => (sameRight quiet).1)
    (p := left) (.inl (by simp)) (q := right) (.inl (by simp))) ?_ fun _ => id
  rintro - final ⟨unified, extends_, errors, same⟩
  have quietBefore : ∀ {fewer more : List ErrorReport}, fewer <+: more →
      more = [] → fewer = [] := fun prefix_ quiet =>
    List.prefix_nil.mp (quiet ▸ prefix_)
  have laterLeft := extendsRight.trans extends_
  have later := extendsLeft.trans laterLeft
  have infers : final.errors = [] → final.graph.Ranked ∧
      ∃ assumptions s, Scopes final.graph env assumptions ∧
        Denotes final.graph left s ∧ Typing assumptions leftExpression s ∧
        Typing assumptions rightExpression s := by
    intro quiet
    rcases same quiet with ⟨untangled, s, leftTerm, rightTerm⟩
    have ranked := unified.holds.ranked untangled
    have quietAfter : after.errors = [] :=
      quietBefore (errorsLeft.trans (errorsRight.trans errors)) quiet
    have leftInfers := (first.infers (second.advances.quiet quietAfter)).later
      preparedRight.ready (first.advances.inside (.inl (by simp))) unified
      (by simp) (second.advances.extends.trans later) quiet ranked
    have rightInfers := (second.infers quietAfter).later readyAfter
      (second.advances.inside (.inl (by simp))) unified (by simp) later quiet
      ranked
    rcases Scopes.exists_of_ranked ranked unified.progress.wellFormed
      (prepared.ready.advance unified).inside with ⟨assumptions, scopes⟩
    exact ⟨ranked, assumptions, s, scopes, leftTerm,
      leftInfers.typing scopes leftTerm, rightInfers.typing scopes rightTerm⟩
  have wellFormed := unified.progress.wellFormed
  change Concluded env nonGenerics _ state op.result final
  rcases rule with ⟨isInteger, result, among⟩ | ⟨isEquals, result⟩
  · rw [result]
    refine ⟨unified.integer.mono (by simp), fun quiet => (same quiet).1,
      fun quiet => ?_⟩
    rcases infers quiet with
      ⟨ranked, assumptions, s, scopes, leftTerm, leftTyping, rightTyping⟩
    have integer := (sameLeft (quietBefore (errorsRight.trans errors) quiet)).2
      isInteger
    have integerLater := laterLeft.settled third.progress.wellFormed
      (third.inside (.inl (by simp))) integer fun _ member =>
        absurd member List.not_mem_nil
    cases leftTerm.unique integerLater
    exact ⟨assumptions, .int, scopes, .int wellFormed.integer,
      .binary (.arithmetic (isOperator ▸ among)) leftTyping rightTyping⟩
  · rw [result]
    refine ⟨unified.boolean.mono (by simp), fun quiet => (same quiet).1,
      fun quiet => ?_⟩
    rcases infers quiet with
      ⟨ranked, assumptions, s, scopes, leftTerm, leftTyping, rightTyping⟩
    rw [isEquals] at isOperator
    subst isOperator
    exact ⟨assumptions, .bool, scopes, .bool wellFormed.boolean,
      .binary (.equality s) leftTyping rightTyping⟩

theorem analyzeTuple_concludes {firstExpression restExpression : Expression}
    (length : Nat)
    {tupleFirst tupleRest : TypeEnvironment → NonGenericTypeList →
      CheckM TypePointer} (firstSpec : Concludes firstExpression tupleFirst)
    (restSpec : Concludes restExpression tupleRest)
    (prepared : Prepared state env nonGenerics) :
    wp (fun _ => True)
      (analyzeTuple (tupleFirst env nonGenerics) (tupleRest env nonGenerics))
      (Concluded env nonGenerics
        (.tuple range firstExpression restExpression length) state)
      state := by
  rw [analyzeTuple, wp_bind]
  apply wp_mono (firstSpec prepared) ?_ fun _ => id
  intro first middle analyzed
  have preparedRest := prepared.advance analyzed.advances analyzed.untangled
  rw [wp_bind]
  apply wp_mono (restSpec preparedRest) ?_ fun _ => id
  intro rest after second
  have both := analyzed.advances.trans second.advances fun _ => .inr
  have made := both.addBoth .tuple (a := first) (.inl (by simp)) (b := rest)
    (.inl (by simp))
  rw [makeTupleType, wp_onGraph_allocate]
  refine ⟨made.mono (by simp), second.untangled, fun quiet => ?_⟩
  have wellFormed := second.advances.progress.wellFormed
  have ranked := both.holds.ranked (second.untangled quiet)
  have firstInfers := (analyzed.infers (second.advances.quiet quiet)).later
    preparedRest.ready (analyzed.advances.inside (.inl (by simp))) both
    (by simp) second.advances.extends quiet ranked
  rcases firstInfers with ⟨assumptions, s, scopes, firstTerm, firstTyping⟩
  rcases ranked.denotes wellFormed (both.inside (p := rest)
    (.inl (by simp))) with ⟨t, restTerm⟩
  have restTyping := (second.infers quiet).typing scopes restTerm
  have allocates := TypeGraph.add_allocates after.graph
    ⟨.tuple, some first, .type rest⟩
  exact ⟨assumptions, .tuple s t,
    scopes.allocates allocates wellFormed (prepared.ready.advance both).inside,
    .tuple (TypeGraph.add_node _ _)
      (allocates.denotes wellFormed (both.inside (.inl (by simp))) firstTerm)
      (allocates.denotes wellFormed (both.inside (.inl (by simp))) restTerm),
    .tuple firstTyping restTyping⟩

theorem analyzeTupleFinal_concludes {firstExpression : Expression}
    {tupleFirst : TypeEnvironment → NonGenericTypeList → CheckM TypePointer}
    (firstSpec : Concludes firstExpression tupleFirst)
    (prepared : Prepared state env nonGenerics) :
    wp (fun _ => True) (analyzeTupleFinal (tupleFirst env nonGenerics))
      (Concluded env nonGenerics (.tupleFinal range firstExpression) state)
      state := by
  rw [analyzeTupleFinal, wp_bind]
  apply wp_mono (firstSpec prepared) ?_ fun _ => id
  intro first after analyzed
  have made := analyzed.advances.addFinal (a := first) (.inl (by simp))
  rw [makeTupleFinalType, wp_onGraph_allocate]
  refine ⟨made.mono (by simp), analyzed.untangled, fun quiet => ?_⟩
  have wellFormed := analyzed.advances.progress.wellFormed
  rcases analyzed.infers quiet with ⟨assumptions, t, scopes, term, typing⟩
  have allocates := TypeGraph.add_allocates after.graph
    ⟨.tupleFinal, some first, .null⟩
  exact ⟨assumptions, .tupleFinal t,
    scopes.allocates allocates wellFormed
      (prepared.ready.advance analyzed.advances).inside,
    .tupleFinal (TypeGraph.add_node _ _)
      (allocates.denotes wellFormed
        (analyzed.advances.inside (.inl (by simp))) term),
    .tupleFinal typing⟩

theorem analyzeInvalid_concludes {expression : Expression}
    (prepared : Prepared state env nonGenerics) :
    wp (fun _ => True) (analyzeInvalid tokens range)
      (Concluded env nonGenerics expression state) state := by
  have reported := prepared.ready.start.report ⟨"Invalid expression structure",
    (tokens range.startToken).start,
    (tokens range.endToken).start + (tokens range.endToken).length⟩
  exact .of_reported (reported.error (by simp)) (by simp)

/-- The type that a call returns is logged. -/
theorem returning_concludes {expression : Expression}
    {result : CheckM TypePointer}
    (concludes : wp (fun _ => True) result
      (Concluded env nonGenerics expression state) state) :
    wp (fun _ => True) (returning result)
      (Concluded env nonGenerics expression state) state := by
  rw [returning, wp_bind]
  apply wp_mono concludes ?_ fun _ => id
  intro type after concluded
  rw [wp_bind, wp_record, wp_pure]
  refine ⟨concluded.advances.record (.returned type after.graph)
    (concluded.advances.noGenerics (.inl List.mem_cons_self))
    fun _ => trivial, fun quiet =>
      untangled_append (concluded.untangled quiet) trivial, concluded.infers⟩

end

/-! ## The whole analysis -/

/-- Every let rec binds a function. -/
def RecursiveFunctions : Expression → Prop
  | .lambda _ _ body => RecursiveFunctions body
  | .apply _ function argument =>
      RecursiveFunctions function ∧ RecursiveFunctions argument
  | .let_ _ _ value body => RecursiveFunctions value ∧ RecursiveFunctions body
  | .letrec _ _ value body =>
      value.IsLambda ∧ RecursiveFunctions value ∧ RecursiveFunctions body
  | .if_ _ test thenArm elseArm =>
      RecursiveFunctions test ∧ RecursiveFunctions thenArm ∧
        RecursiveFunctions elseArm
  | .binary _ _ left right => RecursiveFunctions left ∧ RecursiveFunctions right
  | .unary _ _ arg => RecursiveFunctions arg
  | .tuple _ first rest _ => RecursiveFunctions first ∧ RecursiveFunctions rest
  | .tupleFinal _ first => RecursiveFunctions first
  | .identifier _ _ | .integerConstant _ _ | .true_ _ | .false_ _ | .error _
  | .invalid _ => True

theorem analyze_concludes (tokens : Tokens) (fuel : Nat)
    (expression : Expression) (functions : RecursiveFunctions expression) :
    Concludes expression (analyze tokens fuel expression) := by
  induction expression with
  | identifier range id =>
      exact fun prepared =>
        returning_concludes (analyzeIdentifier_concludes id prepared)
  | apply range function argument functionIh argumentIh =>
      exact fun prepared => returning_concludes (analyzeApply_concludes
        (functionIh functions.1) (argumentIh functions.2) prepared)
  | lambda range id body bodyIh =>
      exact fun prepared => returning_concludes
        (analyzeLambda_concludes id (bodyIh functions) prepared)
  | let_ range id value body valueIh bodyIh =>
      exact fun prepared => returning_concludes (analyzeLet_concludes id
        (valueIh functions.1) (bodyIh functions.2) prepared)
  | letrec range id value body valueIh bodyIh =>
      rcases functions with ⟨isLambda, inValue, inBody⟩
      have valueSpec : Concludes value (analyze tokens fuel value) :=
        valueIh inValue
      cases value with
      | lambda lambdaRange lambdaId lambdaBody =>
          intro env nonGenerics state prepared
          exact returning_concludes (analyzeLetRec_concludes id valueSpec
            (bodyIh inBody) prepared)
      | _ => exact isLambda.elim
  | if_ range test thenArm elseArm testIh thenIh elseIh =>
      exact fun prepared => returning_concludes (analyzeIf_concludes
        (testIh functions.1) (thenIh functions.2.1) (elseIh functions.2.2)
        prepared)
  | binary range operator left right leftIh rightIh =>
      exact fun prepared => returning_concludes (analyzeBinary_concludes
        operator (leftIh functions.1) (rightIh functions.2) prepared)
  | unary range operator arg argIh =>
      intro env nonGenerics state prepared
      apply returning_concludes
      apply wp_mono (argIh functions prepared) ?_ fun _ => id
      intro type after concluded
      refine ⟨concluded.advances, concluded.untangled, fun quiet => ?_⟩
      rcases concluded.infers quiet with ⟨assumptions, t, scopes, term, typing⟩
      exact ⟨assumptions, t, scopes, term, .unary typing⟩
  | tuple range first rest length firstIh restIh =>
      exact fun prepared => returning_concludes (analyzeTuple_concludes length
        (firstIh functions.1) (restIh functions.2) prepared)
  | tupleFinal range first firstIh =>
      exact fun prepared => returning_concludes
        (analyzeTupleFinal_concludes (firstIh functions) prepared)
  | integerConstant range literalValue =>
      exact fun prepared => returning_concludes (prepared.constant
        (prepared.ready.start.integer.mono (by simp))
        (.int prepared.ready.wellFormed.integer) fun _ => .integerConstant)
  | true_ range =>
      exact fun prepared => returning_concludes (prepared.constant
        (prepared.ready.start.boolean.mono (by simp))
        (.bool prepared.ready.wellFormed.boolean) fun _ => .true_)
  | false_ range =>
      exact fun prepared => returning_concludes (prepared.constant
        (prepared.ready.start.boolean.mono (by simp))
        (.bool prepared.ready.wellFormed.boolean) fun _ => .false_)
  | invalid range | error range =>
      exact fun prepared =>
        returning_concludes (analyzeInvalid_concludes prepared)

/-- An expression that is analysed without a report has a typing derivation. -/
theorem getExpressionType_sound {tokens : Tokens} {fuel : Nat}
    {expression : Expression} (functions : RecursiveFunctions expression)
    {type : TypePointer} {after : CheckState}
    (returns : getExpressionType tokens fuel expression = (.ok type, after))
    (quiet : after.errors = []) :
    ∃ t, Denotes after.graph type t ∧ Typing [] expression t := by
  have concluded := of_wp (analyze_concludes tokens fuel expression functions
    ⟨ready_static, fun _ member => absurd member List.not_mem_nil,
      fun _ _ member => absurd member List.not_mem_nil⟩) returns
  rcases concluded.infers quiet with ⟨assumptions, t, scopes, term, typing⟩
  cases scopes
  exact ⟨t, term, typing⟩

end Millie.Types
