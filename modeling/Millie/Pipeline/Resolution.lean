import Millie.Compiler.Decoding
import Millie.Compiler.Occurrences
import Millie.Pipeline.Scoping

/-!
# Names of the compiler and of the type checker

A run of the type checker logs every call of `_LookupType` with its environment,
in the order of the source.  The compiler's searches are compared with the
entries of these environments that the calls answer from: the same binder is
picked unless the entry above the live bindings gets in the way, and every
identifier is searched for unless it is in a part that is never compiled.
-/

namespace Millie.Pipeline

open Weakest
open Millie.Symbols Millie.Syntax Millie.Types Millie.Compiler

/-! ## The calls of `_LookupType` -/

/-- A call of `_LookupType`: its symbol, and those that its environment binds. -/
def lookupCall : CheckEvent → Option (Symbol × List Symbol)
  | .looking id env _ => some (id, boundSymbols env)
  | _ => none

/-- The calls of `_LookupType` in a run, in order. -/
def lookupCalls (state : CheckState) : List (Symbol × List Symbol) :=
  state.log.filterMap lookupCall

/-- A step that makes certain calls of `_LookupType` when it returns. -/
abbrev LooksUp {α : Type} (calls : List (Symbol × List Symbol))
    (step : CheckM α) : Prop :=
  Adds lookupCalls calls step

section

variable {tokens : Tokens} {fuel : Nat} {range : TokenRange}

theorem looksUp_onGraph {α : Type} (step : GraphM α) :
    LooksUp [] (onGraph step) := by
  intro state
  rw [wp, onGraph]
  cases step state.graph with
  | ok result => exact (List.append_nil _).symm
  | error stop => trivial

/-- An event that is no call of `_LookupType`. -/
theorem looksUp_record {event : TypeGraph → CheckEvent}
    (other : ∀ graph, lookupCall (event graph) = none) :
    LooksUp [] (record event) := by
  intro state
  change lookupCalls (record event state).2 = _
  simp [lookupCalls, record, List.filterMap_append, other]

theorem looksUp_looking (id : Symbol) (env : TypeEnvironment) :
    LooksUp [(id, boundSymbols env)] (record (.looking id env)) := by
  intro state
  change lookupCalls (record (.looking id env) state).2 = _
  simp [lookupCalls, record, List.filterMap_append, lookupCall]

theorem looksUp_reportTypeError (message : String) :
    LooksUp [] (reportTypeError tokens range message) :=
  fun _ => (List.append_nil _).symm

theorem looksUp_reportUnificationFailure (context : UnifyContext) :
    LooksUp [] (reportUnificationFailure tokens fuel context) :=
  (looksUp_onGraph _).after fun _ => looksUp_reportTypeError _

theorem looksUp_unifyVariable (context : UnifyContext)
    (typeOne typeTwo : TypePointer) :
    LooksUp [] (unifyVariable tokens fuel context typeOne typeTwo) := by
  rw [unifyVariable]
  split
  · exact .pure _
  · refine (looksUp_onGraph _).after fun contained => ?_
    split
    · exact (looksUp_reportUnificationFailure _).after fun _ => .pure _
    · exact (looksUp_onGraph _).after fun _ => .pure _

theorem looksUp_unifyArguments
    {unify : UnifyContext → TypePointer → TypePointer → CheckM UnifyContext}
    (silent : ∀ context typeOne typeTwo,
      LooksUp [] (unify context typeOne typeTwo))
    (context : UnifyContext) (one two : TypeExp) :
    LooksUp [] (unifyArguments unify context one two) := by
  rw [unifyArguments]
  split
  case' h_1 => refine Adds.after (.pure _) fun context => ?_
  case' h_2 => refine Adds.after (silent _ _ _) fun context => ?_
  case' h_3 => refine Adds.after (looksUp_onGraph _) fun context => ?_
  all_goals
    dsimp only
    split
    · exact .pure _
    · exact silent _ _ _
    · exact looksUp_onGraph _

theorem looksUp_unifyImpl (context : UnifyContext)
    (typeOne typeTwo : TypePointer) :
    LooksUp [] (unifyImpl tokens fuel context typeOne typeTwo) := by
  induction fuel generalizing context typeOne typeTwo with
  | zero => exact looksUp_onGraph _
  | succ fuel ih =>
      rw [unifyImpl]
      refine (looksUp_onGraph _).after fun one => ?_
      refine (looksUp_onGraph _).after fun two => ?_
      refine (looksUp_onGraph _).after fun failed => ?_
      split
      · exact .pure _
      refine (looksUp_onGraph _).after fun failed => ?_
      split
      · exact .pure _
      refine (looksUp_onGraph _).after fun node => ?_
      refine (looksUp_onGraph _).after fun first => ?_
      split
      · exact looksUp_unifyVariable _ _ _
      refine (looksUp_onGraph _).after fun second => ?_
      split
      · exact (looksUp_reportUnificationFailure _).after fun _ => .pure _
      · exact looksUp_unifyArguments ih _ _ _

theorem looksUp_unify (errorCode : UnificationError)
    (typeOne typeTwo : TypePointer) :
    LooksUp [] (unify tokens fuel range errorCode typeOne typeTwo) := by
  rw [unify]
  refine (looksUp_record fun _ => rfl).after fun _ => ?_
  exact (looksUp_unifyImpl _ _ _).after fun _ =>
    looksUp_record fun _ => rfl

theorem looksUp_unifyOperand (operand : TypePointer)
    (required : Option TypePointer) :
    LooksUp [] (unifyOperand tokens fuel range operand required) := by
  cases required with
  | none => exact .pure _
  | some type => exact looksUp_unify _ _ _

theorem looksUp_returning {calls : List (Symbol × List Symbol)}
    {result : CheckM TypePointer} (looksUp : LooksUp calls result) :
    LooksUp calls (returning result) :=
  looksUp.before fun _ =>
    (looksUp_record fun _ => rfl).after fun _ => .pure _

theorem looksUp_analyzeIdentifier (id : Symbol) (env : TypeEnvironment) :
    LooksUp [(id, boundSymbols env)]
      (analyzeIdentifier tokens fuel range id env) := by
  rw [analyzeIdentifier]
  refine (looksUp_looking id env).before fun _ => ?_
  refine (looksUp_onGraph _).after fun found => ?_
  split
  · exact .pure _
  · exact (looksUp_reportTypeError _).after fun _ => .pure _

theorem looksUp_analyzeApply {first second : List (Symbol × List Symbol)}
    {function argument : CheckM TypePointer} (left : LooksUp first function)
    (right : LooksUp second argument) :
    LooksUp (first ++ second)
      (analyzeApply tokens fuel range function argument) := by
  rw [analyzeApply]
  refine left.bind fun functionType => right.before fun argType => ?_
  refine (looksUp_onGraph _).after fun failed => ?_
  split
  · exact .pure _
  refine (looksUp_onGraph _).after fun failed => ?_
  split
  · exact .pure _
  refine (looksUp_onGraph _).after fun resultType => ?_
  refine (looksUp_onGraph _).after fun wanted => ?_
  exact (looksUp_unify _ _ _).after fun _ => .pure _

theorem looksUp_analyzeBinary {first second : List (Symbol × List Symbol)}
    (operator : TokenType) {binaryLeft binaryRight : CheckM TypePointer}
    (left : LooksUp first binaryLeft) (right : LooksUp second binaryRight) :
    LooksUp (first ++ second)
      (analyzeBinary tokens fuel range operator binaryLeft binaryRight) := by
  rw [analyzeBinary]
  refine left.bind fun leftType => right.before fun rightType => ?_
  split
  · exact looksUp_onGraph _
  · exact (looksUp_unifyOperand _ _).after fun _ =>
      (looksUp_unifyOperand _ _).after fun _ =>
        (looksUp_unify _ _ _).after fun _ => .pure _

/-- The identifiers of an expression are looked up, one after the other. -/
theorem looksUp_analyze (expression : Expression) (env : TypeEnvironment)
    (nonGenerics : NonGenericTypeList) :
    LooksUp (occurrences expression (boundSymbols env))
      (analyze tokens fuel expression env nonGenerics) := by
  induction expression generalizing env nonGenerics with
  | invalid range | error range =>
      exact looksUp_returning
        ((looksUp_reportTypeError _).after fun _ => .pure _)
  | integerConstant range literalValue => exact looksUp_returning (.pure _)
  | true_ range | false_ range => exact looksUp_returning (.pure _)
  | identifier range id =>
      exact looksUp_returning (looksUp_analyzeIdentifier id env)
  | lambda range id body bodyIh =>
      exact looksUp_returning ((looksUp_onGraph _).after fun argType =>
        (bodyIh ((id, argType) :: env) _).before fun _ => looksUp_onGraph _)
  | apply range function argument functionIh argumentIh =>
      exact looksUp_returning
        (looksUp_analyzeApply (functionIh env _) (argumentIh env _))
  | let_ range id value body valueIh bodyIh =>
      exact looksUp_returning ((valueIh env _).bind fun defnType =>
        (looksUp_onGraph _).after fun generic =>
          bodyIh ((id, generic) :: env) _)
  | letrec range id value body valueIh bodyIh =>
      refine looksUp_returning ((looksUp_onGraph _).after fun newType => ?_)
      refine (valueIh ((id, newType) :: env) _).bind fun defnType => ?_
      refine (looksUp_unify _ _ _).after fun _ => ?_
      refine (looksUp_record fun _ => rfl).after fun _ => ?_
      refine (looksUp_onGraph _).after fun generic => ?_
      refine (looksUp_onGraph _).after fun _ => ?_
      refine (looksUp_record fun _ => rfl).after fun _ => ?_
      exact bodyIh ((id, newType) :: env) _
  | if_ range test thenArm elseArm testIh thenIh elseIh =>
      have arms : LooksUp (occurrences test (boundSymbols env) ++
          (occurrences thenArm (boundSymbols env) ++
            occurrences elseArm (boundSymbols env)))
          (analyzeIf tokens fuel range test.range
            (analyze tokens fuel test env nonGenerics)
            (analyze tokens fuel thenArm env nonGenerics)
            (analyze tokens fuel elseArm env nonGenerics)) := by
        refine (testIh env _).bind fun condType => ?_
        refine (looksUp_unify _ _ _).after fun _ => ?_
        refine (thenIh env _).bind fun thenType => ?_
        refine (elseIh env _).before fun elseType => ?_
        exact (looksUp_unify _ _ _).after fun _ => .pure _
      rw [← List.append_assoc] at arms
      exact looksUp_returning arms
  | binary range operator left right leftIh rightIh =>
      exact looksUp_returning
        (looksUp_analyzeBinary operator (leftIh env _) (rightIh env _))
  | unary range operator arg argIh => exact looksUp_returning (argIh env _)
  | tuple range first rest length firstIh restIh =>
      exact looksUp_returning ((firstIh env _).bind fun _ =>
        (restIh env _).before fun _ => looksUp_onGraph _)
  | tupleFinal range first firstIh =>
      exact looksUp_returning
        ((firstIh env _).before fun _ => looksUp_onGraph _)

/-- What a run of the type checker looks up when it returns. -/
theorem getExpressionType_looksUp {expression : Expression}
    {type : TypePointer} {checked : CheckState}
    (returns : getExpressionType tokens fuel expression =
      (.ok type, checked)) :
    lookupCalls checked = occurrences expression [] := by
  have run : analyze tokens fuel expression [] [] ⟨staticGraph, [], []⟩ =
      (.ok type, checked) := returns
  have looksUp := @looksUp_analyze tokens fuel expression [] []
    ⟨staticGraph, [], []⟩
  rw [wp, run] at looksUp
  exact looksUp

end

/-! ## The binder that `_LookupType` resolves -/

/-- Return a fresh instance of a type. -/
def freshInstance (fuel : Nat) (type : TypePointer) :
    GraphM (Option TypePointer) := do
  let freshType ← makeFreshTypeExp fuel type
  return some freshType

/--
`_LookupType` answers from an entry: whatever the types in an environment with
these symbols, it returns a fresh instance of that entry's.
-/
def AnswersFrom (id : Symbol) (symbols : List Symbol) (i : Nat) : Prop :=
  ∀ (fuel : Nat) (env : TypeEnvironment), boundSymbols env = symbols →
    ∃ type, env[i]? = some (id, type) ∧
      lookupType fuel id env = freshInstance fuel type

/-- `_LookupType` answers from the first entry of the symbol. -/
theorem lookupType_first_entry (fuel : Nat) {id : Symbol}
    {env : TypeEnvironment} {i : Nat}
    (first : (boundSymbols env).findIdx? (· = id) = some i) :
    ∃ type, env[i]? = some (id, type) ∧
      lookupType fuel id env = freshInstance fuel type := by
  induction env generalizing i with
  | nil => cases first
  | cons entry env ih =>
      rcases entry with ⟨symbol, type⟩
      rw [boundSymbols, List.map_cons, List.findIdx?_cons] at first
      by_cases same : symbol = id
      · rw [if_pos (by simpa using same)] at first
        cases first
        exact ⟨type, by simp [same], by rw [lookupType, if_pos same]; rfl⟩
      · rw [if_neg (by simpa using same)] at first
        rcases Option.map_eq_some_iff.mp first with ⟨j, later, rfl⟩
        rcases ih later with ⟨other, at_, answer⟩
        exact ⟨other, by simpa using at_, by rw [lookupType, if_neg same, answer]⟩

/-- The static types are their own instances, so that they tell entries apart. -/
theorem freshInstance_static :
    freshInstance 3 integerTypeExp ≠ freshInstance 3 booleanTypeExp := by
  intro same
  have result := congrArg (fun step : GraphM (Option TypePointer) =>
    (step staticGraph).toOption.map Prod.fst) same
  exact absurd result (by decide +kernel)

/-- An environment with one integer among truth values. -/
def markedEnvironment (symbols : List Symbol) (i : Nat) : TypeEnvironment :=
  symbols.mapIdx fun j symbol =>
    (symbol, if j = i then integerTypeExp else booleanTypeExp)

theorem answersFrom_iff {id : Symbol} {symbols : List Symbol} {i : Nat} :
    AnswersFrom id symbols i ↔ symbols.findIdx? (· = id) = some i := by
  constructor
  · intro answers
    have bound : boundSymbols (markedEnvironment symbols i) = symbols := by
      refine List.ext_getElem? fun j => ?_
      simp [boundSymbols, markedEnvironment, Function.comp_def]
    have entry : ∀ {j type}, (markedEnvironment symbols i)[j]? =
        some (id, type) → symbols[j]? = some id ∧
          (if j = i then integerTypeExp else booleanTypeExp) = type := by
      intro j type at_
      simpa [markedEnvironment, List.getElem?_mapIdx] using at_
    rcases answers 3 _ bound with ⟨type, at_, answer⟩
    rcases entry at_ with ⟨here, marked⟩
    rw [if_pos rfl] at marked
    cases first : symbols.findIdx? (· = id) with
    | none =>
        have absent := List.findIdx?_eq_none_iff.mp first id
          (List.mem_of_getElem? here)
        simp at absent
    | some j =>
        rcases lookupType_first_entry 3 (bound.symm ▸ first) with
          ⟨other, at', answer'⟩
        by_contra different
        have other_ : j ≠ i := fun same => different (congrArg some same)
        rcases entry at' with ⟨-, unmarked⟩
        rw [if_neg other_] at unmarked
        rw [answer, ← marked, ← unmarked] at answer'
        exact freshInstance_static answer'
  · rintro first fuel env rfl
    exact lookupType_first_entry fuel first

/-! ## Agreement -/

/-- The visits of a whole expression. -/
def entryVisits (input : CompileInput) (expression : Expression) :
    List Visit :=
  visits input expression 0 (entryView input) .entry

/--
The compiler's location is the innermost place of the binder that `_LookupType`
resolves: its register in the current function, or a closure slot if there is
none.
-/
def PicksBinder (visit : Visit) : Prop :=
  ∃ i binder, AnswersFrom visit.id visit.around.symbols i ∧
    visit.around.place i = some binder ∧
    View.search visit.view.bindings visit.id visit.view.top =
      if binder.depth = visit.around.depth then some binder.reg else none

/-- What the two passes left behind of the names that they resolved. -/
structure NamesRecorded (input : CompileInput) (expression : Expression)
    (checked : CheckState) (after : CompileState) : Prop where
  searched : after.searched = (entryVisits input expression).map fun visit =>
    (visit.id, View.search visit.view.bindings visit.id visit.view.top)
  lookedUp : ∀ visit ∈ entryVisits input expression, ∀ k,
    visit.occurrence = some k →
      (lookupCalls checked)[k]? = some (visit.id, visit.around.symbols)
  closures : after.finished.map (·.2.closedSymbols) =
    (entryTrace input expression).filterMap Event.closure ++ [[]]

/--
The compiler and the type checker resolve names alike: every identifier that was
looked up is searched for, every search picks the binder that the lookup
resolves, and the closure list of every function holds each of its free symbols
once.
-/
structure NamesAgree (input : CompileInput) (expression : Expression)
    (checked : CheckState) : Prop where
  visited : ∀ k < (lookupCalls checked).length,
    ∃ visit ∈ entryVisits input expression, visit.occurrence = some k
  picks : ∀ visit ∈ entryVisits input expression, PicksBinder visit
  closures : ∀ event ∈ entryTrace input expression,
    event.isSearch = false → event.Resolved

section

variable {input : CompileInput} {expression : Expression} {fuel : Nat}
  {type : TypePointer} {checked : CheckState}

theorem entryVisits_lists (input : CompileInput) (expression : Expression) :
    Lists (entryVisits input expression) (entryTrace input expression) :=
  visits_lists input expression 0 (entryView input) .entry

/-- A visit is an event of the trace. -/
theorem event_mem_trace {visit : Visit}
    (member : visit ∈ entryVisits input expression) :
    visit.event ∈ entryTrace input expression := by
  have listed : visit.event ∈ (entryVisits input expression).map Visit.event :=
    List.mem_map_of_mem member
  rw [entryVisits_lists input expression] at listed
  exact (List.mem_filter.mp listed).1

/-- A visit's binder is picked exactly when its search is not obstructed. -/
theorem picksBinder_iff (closed : freeSymbols expression = []) {visit : Visit}
    (member : visit ∈ entryVisits input expression) :
    PicksBinder visit ↔ visit.event.Unobstructed := by
  have traced := entry_traced closed input
  rcases traced.sound _ (event_mem_trace member) with ⟨tracks, bound⟩
  have stands := visits_stand input expression 0 (entryView input)
    Surroundings.paired_entry visit member
  refine Iff.trans ?_ (search_resolved_iff tracks)
  rcases Option.isSome_iff_exists.mp bound with ⟨binder, resolved⟩
  have first := (stands.paired visit.id).symm.trans resolved
  rcases Option.bind_eq_some_iff.mp first with ⟨i, index, place⟩
  constructor
  · rintro ⟨j, other, answers, at_, picked⟩ binder' resolved'
    cases (answersFrom_iff.mp answers).symm.trans index
    cases place.symm.trans at_
    cases resolved.symm.trans resolved'
    exact picked
  · intro holds
    exact ⟨i, binder, answersFrom_iff.mpr index, place, holds binder resolved⟩

/-- Every identifier is visited exactly if the expression is fully compiled. -/
theorem visited_iff (checks : getExpressionType input.tokens fuel expression =
    (.ok type, checked)) :
    (∀ k < (lookupCalls checked).length,
      ∃ visit ∈ entryVisits input expression, visit.occurrence = some k) ↔
        FullyCompiled expression := by
  rw [getExpressionType_looksUp checks, occurrences_length,
    ← covered_iff expression 0]
  refine forall_congr' fun k => imp_congr_right fun below => ?_
  rw [Nat.zero_add, ← visits_occurrence input expression 0 (entryView input)
    .entry, List.mem_filterMap]
  rfl

/-- When the names of a closed expression are resolved alike. -/
theorem agree_iff (checks : getExpressionType input.tokens fuel expression =
    (.ok type, checked)) (closed : freeSymbols expression = []) :
    NamesAgree input expression checked ↔ FullyCompiled expression ∧
      ∀ visit ∈ entryVisits input expression, visit.event.Unobstructed := by
  have traced := entry_traced closed input
  constructor
  · rintro ⟨visited, picks, -⟩
    exact ⟨(visited_iff checks).mp visited,
      fun visit member => (picksBinder_iff closed member).mp (picks _ member)⟩
  · rintro ⟨full, clear⟩
    have bodies := trace_fullyCompiled input full (entryView input) .entry
    have unobstructed : ∀ event ∈ entryTrace input expression,
        event.Unobstructed := by
      intro event member
      cases event with
      | search view scope id =>
          have listed : Event.search view scope id ∈
              (entryTrace input expression).filter Event.isSearch :=
            List.mem_filter.mpr ⟨member, rfl⟩
          rw [← entryVisits_lists input expression] at listed
          rcases List.mem_map.mp listed with ⟨visit, inside, same⟩
          exact same ▸ clear visit inside
      | function lambdaId selfId body closure =>
          have compiled : freeSymbols body ⊆ compiledSymbols body :=
            FullyCompiled.compiled (bodies _ member)
          exact List.filter_subset _ compiled
    refine ⟨(visited_iff checks).mpr full, fun visit member =>
      (picksBinder_iff closed member).mpr (clear visit member), ?_⟩
    intro event member other
    cases event with
    | search view scope id => cases other
    | function lambdaId selfId body closure =>
        have sound := traced.sound _ member
        have covers := traced.covers unobstructed _ member
        refine ⟨sound.1, fun symbol => ⟨fun inClosure => ?_, fun free => ?_⟩⟩
        · rcases mem_functionSymbols.mp (sound.2 inClosure) with
            ⟨inside, other⟩
          exact mem_functionSymbols.mpr
            ⟨compiledSymbols_subset body inside, other⟩
        · exact covers (unobstructed _ member free)

/--
For an expression that the type checker accepts, the two passes leave a record of
every call of `_LookupType`, of every search of the compiler and of every closure
list; and they resolve its names alike if and only if every identifier is in a
part that the compiler visits and no search is obstructed.
-/
theorem names_agree_iff {funcId : Nat} {after : CompileState}
    (checks : getExpressionType input.tokens fuel expression =
      (.ok type, checked)) (accepts : checked.errors = [])
    (returns : compileModule input expression = .ok (funcId, after)) :
    NamesRecorded input expression checked after ∧
      (NamesAgree input expression checked ↔ FullyCompiled expression ∧
        ∀ visit ∈ entryVisits input expression,
          visit.event.Unobstructed) := by
  have accepted : Accepts input.tokens expression :=
    ⟨fuel, type, checked, checks, accepts⟩
  have closed := accepted.closed
  rcases compileModule_recorded returns closed with ⟨searched, closures⟩
  refine ⟨⟨searched.trans (entryVisits_lists input expression).searched, ?_,
    closures⟩, agree_iff checks closed⟩
  intro visit member k numbered
  have stands := visits_stand input expression 0 (entryView input)
    Surroundings.paired_entry visit member
  rcases stands.numbered k numbered with ⟨i, rfl, found⟩
  rw [getExpressionType_looksUp checks, Nat.zero_add]
  exact found

end

/-- `let y = 5 in fn x => x + y`. -/
def capturingFunction : Expression :=
  .let_ ⟨0, 0⟩ 1 (.integerConstant ⟨0, 0⟩ 5)
    (.lambda ⟨0, 0⟩ 2
      (.binary ⟨0, 0⟩ .tokPlus (.identifier ⟨0, 0⟩ 2) (.identifier ⟨0, 0⟩ 1)))

/-- Acceptance by both passes, as their runs. -/
theorem accepted_runs {fuel : Nat} {expression : Expression}
    (both : accepted fuel expression = true) :
    ∃ type checked funcId after,
      getExpressionType zeroedInput.tokens fuel expression =
        (.ok type, checked) ∧ checked.errors = [] ∧
      compileModule zeroedInput expression = .ok (funcId, after) ∧
      after.errors = [] := by
  unfold accepted at both
  simp only [Bool.and_eq_true, decide_eq_true_eq] at both
  rcases both with ⟨⟨returns, quiet⟩, compiled⟩
  rcases compiledErrors_ok compiled with ⟨funcId, after, compiles⟩
  rcases run : getExpressionType zeroedInput.tokens fuel expression with
    ⟨result, checked⟩
  rw [run] at returns quiet
  cases result with
  | error stop => cases returns
  | ok type =>
      exact ⟨type, checked, funcId, after, rfl, List.isEmpty_iff.mp quiet,
        compiles⟩

/-- The names of `let y = 5 in fn x => x + y` are resolved alike. -/
theorem names_agree_capturing : ∃ type checked funcId after,
    getExpressionType zeroedInput.tokens 20 capturingFunction =
        (.ok type, checked) ∧
      compileModule zeroedInput capturingFunction = .ok (funcId, after) ∧
      NamesAgree zeroedInput capturingFunction checked := by
  have both : accepted 20 capturingFunction = true := by decide +kernel
  rcases accepted_runs both with
    ⟨type, checked, funcId, after, checks, quiet, compiles, -⟩
  have full : FullyCompiled capturingFunction := ⟨trivial, trivial, trivial⟩
  exact ⟨type, checked, funcId, after, checks, compiles,
    (names_agree_iff checks quiet compiles).2.mpr
      ⟨full, by decide +kernel⟩⟩

/-- `let y = 5 in (let y = 1 in y) + y`. -/
def endedShadow : Expression :=
  .let_ ⟨0, 0⟩ 1 (.integerConstant ⟨0, 0⟩ 5)
    (.binary ⟨0, 0⟩ .tokPlus
      (.let_ ⟨0, 0⟩ 1 (.integerConstant ⟨0, 0⟩ 1) (.identifier ⟨0, 0⟩ 1))
      (.identifier ⟨0, 0⟩ 1))

/-- `fn x => fn y => (y, x)`. -/
def capturingTuple : Expression :=
  .lambda ⟨0, 0⟩ 1 (.lambda ⟨0, 0⟩ 2
    (.tuple ⟨0, 0⟩ (.identifier ⟨0, 0⟩ 2)
      (.tupleFinal ⟨0, 0⟩ (.identifier ⟨0, 0⟩ 1)) 2))

/-- `let x = 1 in (2, x)`. -/
def droppedComponent : Expression :=
  .let_ ⟨0, 0⟩ 1 (.integerConstant ⟨0, 0⟩ 1)
    (.tuple ⟨0, 0⟩ (.integerConstant ⟨0, 0⟩ 2)
      (.tupleFinal ⟨0, 0⟩ (.identifier ⟨0, 0⟩ 1)) 2)

/--
The last `y` of `let y = 5 in (let y = 1 in y) + y` is looked up in the ended
inner binding, `x` is missing from the inner closure list of
`fn x => fn y => (y, x)`, and the `x` of `let x = 1 in (2, x)` has no location.
-/
theorem names_disagree :
    (accepted 20 endedShadow = true ∧
      ∃ visit ∈ entryVisits zeroedInput endedShadow,
        visit.occurrence = some 1 ∧ ¬PicksBinder visit) ∧
    (accepted 20 capturingTuple = true ∧
      ∃ event ∈ entryTrace zeroedInput capturingTuple,
        event.closure = some [] ∧ ¬event.Resolved) ∧
    (accepted 20 droppedComponent = true ∧
      ∀ visit ∈ entryVisits zeroedInput droppedComponent,
        visit.occurrence ≠ some 0) := by
  refine ⟨⟨by decide +kernel, ?_⟩, by decide +kernel, by decide +kernel⟩
  have obstructed : ∃ visit ∈ entryVisits zeroedInput endedShadow,
      visit.occurrence = some 1 ∧ ¬visit.event.Unobstructed := by
    decide +kernel
  rcases obstructed with ⟨visit, member, second, obstructed⟩
  exact ⟨visit, member, second,
    fun picks => obstructed ((picksBinder_iff rfl member).mp picks)⟩

end Millie.Pipeline
