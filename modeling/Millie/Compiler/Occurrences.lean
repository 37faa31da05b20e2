import Millie.Compiler.Resolution

/-!
# Identifiers and their binders

The environment of the type checker and the scope of the compiler list the same
binders, innermost first.  `visits` is the trace's searches again, each beside
the symbols that the type checker's environment binds there and, for an
identifier, its number in the order of the source.  An identifier that is in no
compiled part of the expression has a number and no visit.
-/

namespace Millie.Compiler

open Millie.Symbols Millie.Syntax Millie.Machine

/-! ## Surroundings -/

/--
The binders around an expression: the symbols of the type checker's environment,
innermost first, and the places of the compiler, each with the number of binders
that are outside its own.  The function of a let rec has two places while its
body is compiled, one of them its closure in register 0.
-/
structure Surroundings where
  depth : Nat
  symbols : List Symbol
  places : List (Nat × Binder)

namespace Surroundings

/-- What is around a whole expression. -/
def entry : Surroundings :=
  ⟨0, [], []⟩

/-- The scope that the compiler has there. -/
def scope (around : Surroundings) : Scope :=
  ⟨around.depth, around.places.map Prod.snd⟩

/-- Bind a symbol in the current function. -/
def bind (around : Surroundings) (symbol : Symbol) (reg : UInt8) :
    Surroundings :=
  ⟨around.depth, symbol :: around.symbols,
    (around.symbols.length, ⟨symbol, around.depth, reg⟩) :: around.places⟩

/-- Enter a function, whose own name is the innermost binder if it has one. -/
def enter (around : Surroundings) (lambdaId selfId : Symbol) : Surroundings :=
  let depth := around.depth + 1
  let self : Nat × Binder := (around.symbols.length - 1, ⟨selfId, depth, 0⟩)
  let places :=
    if selfId ≠ invalidSymbol then self :: around.places else around.places
  bind ⟨depth, around.symbols, places⟩ lambdaId 1

/-- The innermost place of the binder at an index of the environment. -/
def place (around : Surroundings) (i : Nat) : Option Binder :=
  (around.places.find? fun place =>
    place.1 + i + 1 = around.symbols.length).map Prod.snd

/-- The first place of a symbol is the innermost one of its first binder. -/
def Paired (around : Surroundings) : Prop :=
  ∀ id, around.scope.resolve id =
    (around.symbols.findIdx? (· = id)).bind around.place

theorem paired_entry : entry.Paired :=
  fun _ => rfl

theorem scope_enter (around : Surroundings) (lambdaId selfId : Symbol) :
    (around.enter lambdaId selfId).scope =
      around.scope.enter lambdaId selfId := by
  unfold enter Scope.enter
  by_cases named : selfId ≠ invalidSymbol
  · simp only [if_pos named]
    rfl
  · simp only [if_neg named]
    rfl

theorem resolve_cons (depth : Nat) (symbols : List Symbol)
    (place : Nat × Binder) (places : List (Nat × Binder)) (id : Symbol) :
    (scope ⟨depth, symbols, place :: places⟩).resolve id =
      if place.2.symbol = id then some place.2
      else (scope ⟨depth, symbols, places⟩).resolve id := by
  unfold scope Scope.resolve
  rw [List.map_cons, List.find?_cons]
  by_cases same : place.2.symbol = id
  · simp [same]
  · simp [same]

theorem place_cons (depth : Nat) (symbols : List Symbol)
    (place : Nat × Binder) (places : List (Nat × Binder)) (i : Nat) :
    Surroundings.place ⟨depth, symbols, place :: places⟩ i =
      if place.1 + i + 1 = symbols.length then some place.2
      else Surroundings.place ⟨depth, symbols, places⟩ i := by
  unfold Surroundings.place
  rw [List.find?_cons]
  by_cases here : place.1 + i + 1 = symbols.length
  · simp [here]
  · simp [here]

/-- Binding a symbol moves the binders around it one index up. -/
theorem Paired.bind {around : Surroundings} (paired : around.Paired)
    (symbol : Symbol) (reg : UInt8) : (around.bind symbol reg).Paired := by
  intro id
  have places : ∀ i, (around.bind symbol reg).place (i + 1) =
      around.place i := by
    intro i
    rw [Surroundings.bind, place_cons, if_neg (by simp)]
    unfold Surroundings.place
    refine congrArg (Option.map Prod.snd) (congrArg (List.find? · _) ?_)
    funext place
    exact decide_eq_decide.mpr (by simp; omega)
  rw [Surroundings.bind, resolve_cons, List.findIdx?_cons]
  by_cases same : symbol = id
  · simp [same, place_cons]
  · rw [if_neg same, if_neg (by simpa using same)]
    have outer := paired id
    cases found : around.symbols.findIdx? (· = id) with
    | none =>
        rw [found] at outer
        exact outer
    | some i =>
        rw [found] at outer
        exact outer.trans (places i).symm

/-- A function's own name is bound just outside it. -/
theorem Paired.enter {around : Surroundings} (paired : around.Paired)
    {lambdaId selfId : Symbol}
    (self : selfId ≠ invalidSymbol → around.symbols.head? = some selfId) :
    (around.enter lambdaId selfId).Paired := by
  have deeper : Paired { around with depth := around.depth + 1 } := paired
  unfold Surroundings.enter
  by_cases named : selfId ≠ invalidSymbol
  · simp only [if_pos named]
    refine Paired.bind (fun id => ?_) lambdaId 1
    rcases List.head?_eq_some_iff.mp (self named) with ⟨outer, symbols⟩
    have here := paired id
    rw [symbols] at here ⊢
    rw [resolve_cons]
    by_cases same : selfId = id
    · simp [same, List.findIdx?_cons, place_cons]
    · rw [if_neg same]
      refine here.trans ?_
      rw [List.findIdx?_cons, if_neg (by simpa using same)]
      cases outer.findIdx? (· = id) with
      | none => rfl
      | some i =>
          refine Eq.symm ((place_cons ..).trans ((if_neg ?_).trans ?_))
          · simp
          · simp [Surroundings.place, symbols]
  · simp only [if_neg named]
    exact deeper.bind lambdaId 1

end Surroundings

/-! ## Visits -/

/--
A search of the compiler: for an identifier, with its number in the order of the
source, or for a captured value that is loaded into a new closure.
-/
structure Visit where
  occurrence : Option Nat
  view : View
  around : Surroundings
  id : Symbol

/-- The search as an event of the trace. -/
def Visit.event (visit : Visit) : Event :=
  .search visit.view visit.around.scope visit.id

/-- The identifiers of an expression. -/
def identifierCount : Expression → Nat
  | .identifier _ _ => 1
  | .lambda _ _ body => identifierCount body
  | .apply _ first second | .binary _ _ first second
  | .let_ _ _ first second | .letrec _ _ first second
  | .tuple _ first second _ => identifierCount first + identifierCount second
  | .unary _ _ arg => identifierCount arg
  | .if_ _ test thenArm elseArm =>
      identifierCount test + identifierCount thenArm + identifierCount elseArm
  | .tupleFinal _ first => identifierCount first
  | .integerConstant _ _ | .true_ _ | .false_ _ | .error _ | .invalid _ => 0

/-- The searches for the captured values of a new closure. -/
def closedVisits (around : Surroundings) : List Symbol → View → List Visit
  | [], _ => []
  | symbol :: symbols, view =>
      ⟨none, view, around, symbol⟩ ::
        closedVisits around symbols (emitIdentifier symbol view).view

/-- The visits of a function's body and of its closure. -/
def lambdaVisits (input : CompileInput) (lambdaId selfId : Symbol)
    (body : Expression) (bodyVisits : View → Surroundings → List Visit)
    (view : View) (around : Surroundings) : List Visit :=
  let added := addFunction view.module
  let emitted := emitBody input lambdaId selfId (emit input body) view
  bodyVisits (functionView input lambdaId selfId added.2.1
      { view with module := added.2.2 }) (around.enter lambdaId selfId) ++
    closedVisits around emitted.view.closure
      (closureView input lambdaId selfId (emit input body) view)

/-- The visits of the rounds of a tuple. -/
def tupleVisits (first : View → Emission) (firstVisits : View → List Visit) :
    Nat → View → List Visit
  | 0, _ => []
  | count + 1, view =>
      firstVisits view ++ tupleVisits first firstVisits count (first view).view

/-- The visits of an expression whose first identifier has a number. -/
def visits (input : CompileInput) :
    Expression → Nat → View → Surroundings → List Visit
  | .identifier _ id, n, view, around => [⟨some n, view, around, id⟩]
  | .let_ _ id value body, n, view, around =>
      let emitted := emit input value view
      visits input value n view around ++
        visits input body (n + identifierCount value)
          (emitted.view.push id emitted.reg) (around.bind id emitted.reg)
  | .letrec _ id value body, n, view, around =>
      match value with
      | .lambda _ lambdaId lambdaBody =>
          let inner := view.take.push id view.nextReg
          let innerAround := around.bind id view.nextReg
          lambdaVisits input lambdaId id lambdaBody
              (visits input lambdaBody n) inner innerAround ++
            visits input body (n + identifierCount lambdaBody)
              (emitLambdaImpl input lambdaId (emit input lambdaBody) id
                view.nextReg inner).view innerAround
      | _ => []
  | .lambda _ id body, n, view, around =>
      lambdaVisits input id invalidSymbol body (visits input body n) view.take
        around
  | .apply _ first second, n, view, around
  | .binary _ _ first second, n, view, around =>
      visits input first n view around ++
        visits input second (n + identifierCount first)
          (emit input first view).view around
  | .unary _ _ arg, n, view, around => visits input arg n view around
  | .if_ _ test thenArm elseArm, n, view, around =>
      let tested := (emit input test view).view
      visits input test n view around ++
        visits input thenArm (n + identifierCount test) tested around ++
        visits input elseArm
          (n + identifierCount test + identifierCount thenArm)
          (emit input thenArm tested).view around
  | .tuple _ first _ length, n, view, around =>
      tupleVisits (emit input first) (visits input first n · around) length
        view.take.take
  | .integerConstant _ _, _, _, _ | .true_ _, _, _, _ | .false_ _, _, _, _
  | .error _, _, _, _ | .invalid _, _, _, _ | .tupleFinal _ _, _, _, _ => []

theorem visits_letrec_other {value : Expression}
    (notLambda : ¬value.IsLambda) (input : CompileInput) (range : TokenRange)
    (id : Symbol) (body : Expression) (n : Nat) (view : View)
    (around : Surroundings) :
    visits input (.letrec range id value body) n view around = [] := by
  cases value with
  | lambda range id body => exact absurd trivial notLambda
  | _ => rfl

/-! ## Visits and the trace -/

/-- The searches among the events of a trace. -/
def Event.isSearch : Event → Bool
  | search _ _ _ => true
  | function _ _ _ _ => false

/-- Visits are the searches of a trace. -/
def Lists (visited : List Visit) (events : List Event) : Prop :=
  visited.map Visit.event = events.filter Event.isSearch

namespace Lists

theorem nil : Lists [] [] :=
  rfl

theorem append {first second : List Visit} {firstEvents secondEvents : List Event}
    (left : Lists first firstEvents) (right : Lists second secondEvents) :
    Lists (first ++ second) (firstEvents ++ secondEvents) := by
  rw [Lists, List.map_append, List.filter_append, left, right]

theorem function {visited : List Visit} {events : List Event}
    (lists : Lists visited events) (lambdaId selfId : Symbol)
    (body : Expression) (closure : List Symbol) :
    Lists visited (.function lambdaId selfId body closure :: events) :=
  lists

/-- What the searches of a trace find. -/
theorem searched {visited : List Visit} {events : List Event}
    (lists : Lists visited events) :
    events.filterMap Event.searched = visited.map fun visit =>
      (visit.id, View.search visit.view.bindings visit.id visit.view.top) := by
  have only : events.filterMap Event.searched =
      (events.filter Event.isSearch).filterMap Event.searched := by
    rw [List.filterMap_filter]
    refine congrArg (List.filterMap · events) (funext fun event => ?_)
    cases event <;> rfl
  rw [only, ← lists, List.filterMap_map]
  exact congrFun List.filterMap_eq_map visited

end Lists

theorem closedVisits_lists (around : Surroundings) (symbols : List Symbol)
    (view : View) :
    Lists (closedVisits around symbols view)
      (closedSearches around.scope symbols view) := by
  induction symbols generalizing view with
  | nil => exact .nil
  | cons symbol symbols ih =>
      exact congrArg (.search view around.scope symbol :: ·) (ih _)

theorem lambdaVisits_lists {input : CompileInput} {body : Expression}
    {bodyVisits : View → Surroundings → List Visit}
    (bodyLists : ∀ view around,
      Lists (bodyVisits view around) (trace input body view around.scope))
    (lambdaId selfId : Symbol) (view : View) (around : Surroundings) :
    Lists (lambdaVisits input lambdaId selfId body bodyVisits view around)
      (lambdaTrace input lambdaId selfId body (trace input body) view
        around.scope) := by
  have inner := bodyLists (functionView input lambdaId selfId
      (addFunction view.module).2.1
      { view with module := (addFunction view.module).2.2 })
    (around.enter lambdaId selfId)
  rw [around.scope_enter] at inner
  exact inner.append ((closedVisits_lists around _ _).function ..)

theorem tupleVisits_lists {first : View → Emission}
    {firstVisits : View → List Visit} {firstTrace : View → List Event}
    (firstLists : ∀ view, Lists (firstVisits view) (firstTrace view))
    (count : Nat) (view : View) :
    Lists (tupleVisits first firstVisits count view)
      (tupleTrace first firstTrace count view) := by
  induction count generalizing view with
  | zero => exact .nil
  | succ count ih => exact (firstLists view).append (ih _)

/-- The visits are the searches of the trace, in order. -/
theorem visits_lists (input : CompileInput) (expression : Expression) (n : Nat)
    (view : View) (around : Surroundings) :
    Lists (visits input expression n view around)
      (trace input expression view around.scope) := by
  induction expression using Expression.functionInduction
    generalizing n view around with
  | integerConstant range literalValue => exact .nil
  | true_ range => exact .nil
  | false_ range => exact .nil
  | error range => exact .nil
  | invalid range => exact .nil
  | tupleFinal range first firstIh => exact .nil
  | identifier range id => rfl
  | let_ range id value body valueIh bodyIh =>
      exact (valueIh ..).append (bodyIh _ _ (around.bind id _))
  | letrecFunction range id lambdaRange lambdaId lambdaBody body valueIh
      bodyIh =>
      exact (lambdaVisits_lists (valueIh n) lambdaId id _ (around.bind id _))
        |>.append (bodyIh _ _ (around.bind id _))
  | letrecOther range id value body notLambda valueIh bodyIh =>
      rw [visits_letrec_other notLambda, trace_letrec_other notLambda]
      exact .nil
  | lambda range id body bodyIh =>
      exact lambdaVisits_lists (bodyIh n) id invalidSymbol _ around
  | apply range function argument functionIh argumentIh =>
      exact (functionIh ..).append (argumentIh ..)
  | binary range operator left right leftIh rightIh =>
      exact (leftIh ..).append (rightIh ..)
  | unary range operator arg argIh => exact argIh ..
  | if_ range test thenArm elseArm testIh thenIh elseIh =>
      exact ((testIh ..).append (thenIh ..)).append (elseIh ..)
  | tuple range first rest length firstIh restIh =>
      exact tupleVisits_lists (firstIh n · around) length _

/-! ## What surrounds an identifier -/

/--
The identifiers of an expression in the order of the source, each with the
symbols that are bound around it, innermost first.
-/
def occurrences : Expression → List Symbol → List (Symbol × List Symbol)
  | .identifier _ id, symbols => [(id, symbols)]
  | .lambda _ id body, symbols => occurrences body (id :: symbols)
  | .let_ _ id value body, symbols =>
      occurrences value symbols ++ occurrences body (id :: symbols)
  | .letrec _ id value body, symbols =>
      occurrences value (id :: symbols) ++ occurrences body (id :: symbols)
  | .apply _ first second, symbols | .binary _ _ first second, symbols
  | .tuple _ first second _, symbols =>
      occurrences first symbols ++ occurrences second symbols
  | .unary _ _ arg, symbols => occurrences arg symbols
  | .if_ _ test thenArm elseArm, symbols =>
      occurrences test symbols ++ occurrences thenArm symbols ++
        occurrences elseArm symbols
  | .tupleFinal _ first, symbols => occurrences first symbols
  | .integerConstant _ _, _ | .true_ _, _ | .false_ _, _ | .error _, _
  | .invalid _, _ => []

theorem occurrences_length (expression : Expression) (symbols : List Symbol) :
    (occurrences expression symbols).length = identifierCount expression := by
  induction expression generalizing symbols <;>
    simp_all [occurrences, identifierCount, Nat.add_assoc]

/--
A visit stands among the identifiers that are numbered from `n` on, with the
binders that are around it.
-/
structure Visit.Stands (known : List (Symbol × List Symbol)) (n : Nat)
    (visit : Visit) : Prop where
  paired : visit.around.Paired
  numbered : ∀ k, visit.occurrence = some k → ∃ i, k = n + i ∧
    known[i]? = some (visit.id, visit.around.symbols)

namespace Visit.Stands

variable {first second known : List (Symbol × List Symbol)} {n : Nat}
  {visit : Visit}

theorem left (stands : Stands first n visit) :
    Stands (first ++ second) n visit := by
  refine ⟨stands.paired, fun k numbered => ?_⟩
  rcases stands.numbered k numbered with ⟨i, number, found⟩
  have inside := (List.getElem?_eq_some_iff.mp found).1
  exact ⟨i, number, (List.getElem?_append_left inside).trans found⟩

theorem right {m : Nat} (stands : Stands second m visit)
    (next : m = n + first.length) : Stands (first ++ second) n visit := by
  refine ⟨stands.paired, fun k numbered => ?_⟩
  rcases stands.numbered k numbered with ⟨i, number, found⟩
  refine ⟨first.length + i, by omega, ?_⟩
  rw [List.getElem?_append_right (Nat.le_add_right ..),
    Nat.add_sub_cancel_left]
  exact found

/-- The visits of two expressions, the second after the first. -/
theorem append {left right : List Visit} {m : Nat}
    (firstStands : ∀ visit ∈ left, Stands first n visit)
    (secondStands : ∀ visit ∈ right, Stands second m visit)
    (next : m = n + first.length) :
    ∀ visit ∈ left ++ right, Stands (first ++ second) n visit := by
  intro visit member
  rcases List.mem_append.mp member with inFirst | inSecond
  · exact (firstStands visit inFirst).left
  · exact (secondStands visit inSecond).right next

end Visit.Stands

theorem closedVisits_stand {around : Surroundings} (paired : around.Paired)
    (known : List (Symbol × List Symbol)) (n : Nat) (symbols : List Symbol)
    (view : View) :
    ∀ visit ∈ closedVisits around symbols view, visit.Stands known n := by
  induction symbols generalizing view with
  | nil => exact List.forall_mem_nil _
  | cons symbol symbols ih =>
      exact List.forall_mem_cons.mpr
        ⟨⟨paired, fun k numbered => by cases numbered⟩, ih _⟩

theorem lambdaVisits_stand {input : CompileInput} {body : Expression} {n : Nat}
    {bodyVisits : View → Surroundings → List Visit}
    (bodyStand : ∀ view around, around.Paired → ∀ visit ∈ bodyVisits view around,
      visit.Stands (occurrences body around.symbols) n)
    {around : Surroundings} (paired : around.Paired) {lambdaId selfId : Symbol}
    (self : selfId ≠ invalidSymbol → around.symbols.head? = some selfId)
    (view : View) :
    ∀ visit ∈ lambdaVisits input lambdaId selfId body bodyVisits view around,
      visit.Stands (occurrences body (lambdaId :: around.symbols)) n :=
  List.forall_mem_append.mpr ⟨bodyStand _ _ (paired.enter self),
    closedVisits_stand paired _ n _ _⟩

theorem tupleVisits_stand {first : View → Emission}
    {firstVisits : View → List Visit} {known : List (Symbol × List Symbol)}
    {n : Nat} (stand : ∀ view, ∀ visit ∈ firstVisits view, visit.Stands known n)
    (count : Nat) (view : View) :
    ∀ visit ∈ tupleVisits first firstVisits count view,
      visit.Stands known n := by
  induction count generalizing view with
  | zero => exact List.forall_mem_nil _
  | succ count ih =>
      exact List.forall_mem_append.mpr ⟨stand view, ih _⟩

/-- Every visit of an expression stands among its identifiers. -/
theorem visits_stand (input : CompileInput) (expression : Expression) (n : Nat)
    (view : View) {around : Surroundings} (paired : around.Paired) :
    ∀ visit ∈ visits input expression n view around,
      visit.Stands (occurrences expression around.symbols) n := by
  have next : ∀ (first : Expression) (symbols : List Symbol) (n : Nat),
      n + identifierCount first = n + (occurrences first symbols).length :=
    fun first symbols n => by rw [occurrences_length]
  induction expression using Expression.functionInduction
    generalizing n view around with
  | integerConstant range literalValue => exact List.forall_mem_nil _
  | true_ range => exact List.forall_mem_nil _
  | false_ range => exact List.forall_mem_nil _
  | error range => exact List.forall_mem_nil _
  | invalid range => exact List.forall_mem_nil _
  | tupleFinal range first firstIh => exact List.forall_mem_nil _
  | identifier range id =>
      refine List.forall_mem_singleton.mpr ⟨paired, fun k numbered => ?_⟩
      cases numbered
      exact ⟨0, rfl, rfl⟩
  | let_ range id value body valueIh bodyIh =>
      exact Visit.Stands.append (valueIh n view paired)
        (bodyIh _ _ (paired.bind id _)) (next ..)
  | letrecFunction range id lambdaRange lambdaId lambdaBody body valueIh
      bodyIh =>
      have inner := paired.bind id view.nextReg
      exact Visit.Stands.append
        (lambdaVisits_stand (fun view _ => valueIh n view) inner (fun _ => rfl) _)
        (bodyIh _ _ inner) (next ..)
  | letrecOther range id value body notLambda valueIh bodyIh =>
      rw [visits_letrec_other notLambda]
      exact List.forall_mem_nil _
  | lambda range id body bodyIh =>
      exact lambdaVisits_stand (fun view _ => bodyIh n view) paired
        (fun named => absurd rfl named) _
  | apply range function argument functionIh argumentIh =>
      exact Visit.Stands.append (functionIh n view paired)
        (argumentIh _ _ paired) (next ..)
  | binary range operator left right leftIh rightIh =>
      exact Visit.Stands.append (leftIh n view paired) (rightIh _ _ paired)
        (next ..)
  | unary range operator arg argIh => exact argIh n view paired
  | if_ range test thenArm elseArm testIh thenIh elseIh =>
      refine Visit.Stands.append (Visit.Stands.append (testIh n view paired)
        (thenIh _ _ paired) (next ..)) (elseIh _ _ paired) ?_
      rw [List.length_append, occurrences_length, occurrences_length,
        Nat.add_assoc]
  | tuple range first rest length firstIh restIh =>
      intro visit member
      exact (tupleVisits_stand (firstIh n · paired) length _ visit member).left

/-! ## Fully compiled expressions -/

/-- The numbers of the identifiers that the compiler visits. -/
def compiledOccurrences : Expression → Nat → List Nat
  | .identifier _ _, n => [n]
  | .lambda _ _ body, n => compiledOccurrences body n
  | .apply _ first second, n | .binary _ _ first second, n
  | .let_ _ _ first second, n =>
      compiledOccurrences first n ++
        compiledOccurrences second (n + identifierCount first)
  | .letrec _ _ value body, n =>
      match value with
      | .lambda _ _ lambdaBody =>
          compiledOccurrences lambdaBody n ++
            compiledOccurrences body (n + identifierCount lambdaBody)
      | _ => []
  | .unary _ _ arg, n => compiledOccurrences arg n
  | .if_ _ test thenArm elseArm, n =>
      compiledOccurrences test n ++
        compiledOccurrences thenArm (n + identifierCount test) ++
        compiledOccurrences elseArm
          (n + identifierCount test + identifierCount thenArm)
  | .tuple _ first _ length, n =>
      (List.replicate length (compiledOccurrences first n)).flatten
  | .integerConstant _ _, _ | .true_ _, _ | .false_ _, _ | .error _, _
  | .invalid _, _ | .tupleFinal _ _, _ => []

/--
Every identifier is in a part that the compiler visits: no component of a tuple
after the first, no let rec of anything but a function and no end of a tuple has
one.
-/
def FullyCompiled : Expression → Prop
  | .lambda _ _ body => FullyCompiled body
  | .apply _ first second | .binary _ _ first second
  | .let_ _ _ first second => FullyCompiled first ∧ FullyCompiled second
  | .letrec _ _ value body =>
      match value with
      | .lambda _ _ lambdaBody =>
          FullyCompiled lambdaBody ∧ FullyCompiled body
      | _ => identifierCount value + identifierCount body = 0
  | .unary _ _ arg => FullyCompiled arg
  | .if_ _ test thenArm elseArm =>
      (FullyCompiled test ∧ FullyCompiled thenArm) ∧ FullyCompiled elseArm
  | .tuple _ first rest length =>
      if length = 0 then identifierCount first + identifierCount rest = 0
      else FullyCompiled first ∧ identifierCount rest = 0
  | .tupleFinal _ first => identifierCount first = 0
  | .identifier _ _ | .integerConstant _ _ | .true_ _ | .false_ _ | .error _
  | .invalid _ => True

theorem compiledOccurrences_letrec_other {value : Expression}
    (notLambda : ¬value.IsLambda) (range : TokenRange) (id : Symbol)
    (body : Expression) (n : Nat) :
    compiledOccurrences (.letrec range id value body) n = [] := by
  cases value with
  | lambda range id body => exact absurd trivial notLambda
  | _ => rfl

theorem fullyCompiled_letrec_other {value : Expression}
    (notLambda : ¬value.IsLambda) {range : TokenRange} {id : Symbol}
    {body : Expression} :
    FullyCompiled (.letrec range id value body) ↔
      identifierCount value + identifierCount body = 0 := by
  cases value with
  | lambda range id body => exact absurd trivial notLambda
  | _ => rfl

theorem closedVisits_occurrence (around : Surroundings) (symbols : List Symbol)
    (view : View) :
    (closedVisits around symbols view).filterMap Visit.occurrence = [] := by
  induction symbols generalizing view with
  | nil => rfl
  | cons symbol symbols ih => exact ih _

theorem lambdaVisits_occurrence {input : CompileInput} {body : Expression}
    {bodyVisits : View → Surroundings → List Visit} {numbers : List Nat}
    (bodyNumbers : ∀ view around,
      (bodyVisits view around).filterMap Visit.occurrence = numbers)
    (lambdaId selfId : Symbol) (view : View) (around : Surroundings) :
    (lambdaVisits input lambdaId selfId body bodyVisits view around).filterMap
      Visit.occurrence = numbers := by
  rw [lambdaVisits, List.filterMap_append, closedVisits_occurrence,
    List.append_nil]
  exact bodyNumbers ..

theorem tupleVisits_occurrence {first : View → Emission}
    {firstVisits : View → List Visit} {numbers : List Nat}
    (firstNumbers : ∀ view,
      (firstVisits view).filterMap Visit.occurrence = numbers)
    (count : Nat) (view : View) :
    (tupleVisits first firstVisits count view).filterMap Visit.occurrence =
      (List.replicate count numbers).flatten := by
  induction count generalizing view with
  | zero => rfl
  | succ count ih =>
      rw [tupleVisits, List.filterMap_append, firstNumbers, ih,
        List.replicate_succ, List.flatten_cons]

/-- Which identifiers are visited depends on the expression alone. -/
theorem visits_occurrence (input : CompileInput) (expression : Expression)
    (n : Nat) (view : View) (around : Surroundings) :
    (visits input expression n view around).filterMap Visit.occurrence =
      compiledOccurrences expression n := by
  induction expression using Expression.functionInduction
    generalizing n view around with
  | integerConstant range literalValue => rfl
  | true_ range => rfl
  | false_ range => rfl
  | error range => rfl
  | invalid range => rfl
  | tupleFinal range first firstIh => rfl
  | identifier range id => rfl
  | let_ range id value body valueIh bodyIh =>
      rw [visits, List.filterMap_append, valueIh, bodyIh, compiledOccurrences]
  | letrecFunction range id lambdaRange lambdaId lambdaBody body valueIh
      bodyIh =>
      rw [visits, List.filterMap_append, bodyIh,
        lambdaVisits_occurrence fun view around => valueIh n view around,
        compiledOccurrences]
  | letrecOther range id value body notLambda valueIh bodyIh =>
      rw [visits_letrec_other notLambda,
        compiledOccurrences_letrec_other notLambda]
      rfl
  | lambda range id body bodyIh =>
      exact lambdaVisits_occurrence (fun view around => bodyIh n view around) ..
  | apply range function argument functionIh argumentIh =>
      rw [visits, List.filterMap_append, functionIh, argumentIh,
        compiledOccurrences]
  | binary range operator left right leftIh rightIh =>
      rw [visits, List.filterMap_append, leftIh, rightIh, compiledOccurrences]
  | unary range operator arg argIh => exact argIh ..
  | if_ range test thenArm elseArm testIh thenIh elseIh =>
      rw [visits, List.filterMap_append, List.filterMap_append, testIh, thenIh,
        elseIh, compiledOccurrences]
  | tuple range first rest length firstIh restIh =>
      exact tupleVisits_occurrence (fun view => firstIh n view around) length _

/-- All numbers of an interval are listed. -/
def Covered (numbers : List Nat) (n count : Nat) : Prop :=
  ∀ i < count, n + i ∈ numbers

/-- Only numbers of an interval are listed. -/
def Within (numbers : List Nat) (n count : Nat) : Prop :=
  ∀ k ∈ numbers, n ≤ k ∧ k < n + count

section

variable {first second : List Nat} {n a b : Nat}

theorem Within.append (left : Within first n a) (right : Within second (n + a) b) :
    Within (first ++ second) n (a + b) := by
  intro k member
  rcases List.mem_append.mp member with inFirst | inSecond
  · have := left k inFirst
    omega
  · have := right k inSecond
    omega

theorem covered_append (left : Within first n a)
    (right : Within second (n + a) b) :
    Covered (first ++ second) n (a + b) ↔
      Covered first n a ∧ Covered second (n + a) b := by
  constructor
  · intro all
    constructor
    · intro i below
      rcases List.mem_append.mp (all i (by omega)) with inFirst | inSecond
      · exact inFirst
      · have := right _ inSecond
        omega
    · intro i below
      rcases List.mem_append.mp (all (a + i) (by omega)) with
        inFirst | inSecond
      · have := left _ inFirst
        omega
      · rwa [Nat.add_assoc]
  · rintro ⟨allFirst, allSecond⟩ i below
    by_cases inFirst : i < a
    · exact List.mem_append_left _ (allFirst i inFirst)
    · have found := allSecond (i - a) (by omega)
      rw [Nat.add_assoc, Nat.add_sub_cancel' (by omega)] at found
      exact List.mem_append_right _ found

theorem covered_nil : Covered [] n a ↔ a = 0 := by
  constructor
  · intro all
    by_contra some_
    cases all 0 (Nat.pos_of_ne_zero some_)
  · rintro rfl i below
    exact absurd below (Nat.not_lt_zero i)

end

/-- The rounds of a tuple visit what one of them does. -/
theorem mem_rounds {numbers : List Nat} {length k : Nat} :
    k ∈ (List.replicate length numbers).flatten ↔ length ≠ 0 ∧ k ∈ numbers := by
  simp [List.mem_flatten, List.mem_replicate]

theorem compiledOccurrences_within (expression : Expression) (n : Nat) :
    Within (compiledOccurrences expression n) n
      (identifierCount expression) := by
  induction expression using Expression.functionInduction
    generalizing n with
  | integerConstant range literalValue => exact List.forall_mem_nil _
  | true_ range => exact List.forall_mem_nil _
  | false_ range => exact List.forall_mem_nil _
  | error range => exact List.forall_mem_nil _
  | invalid range => exact List.forall_mem_nil _
  | tupleFinal range first firstIh => exact List.forall_mem_nil _
  | identifier range id =>
      exact List.forall_mem_singleton.mpr ⟨Nat.le_refl n, Nat.lt_succ_self n⟩
  | let_ range id value body valueIh bodyIh => exact (valueIh n).append (bodyIh _)
  | letrecFunction range id lambdaRange lambdaId lambdaBody body valueIh
      bodyIh => exact (valueIh n).append (bodyIh _)
  | letrecOther range id value body notLambda valueIh bodyIh =>
      rw [compiledOccurrences_letrec_other notLambda]
      exact List.forall_mem_nil _
  | lambda range id body bodyIh => exact bodyIh n
  | apply range function argument functionIh argumentIh =>
      exact (functionIh n).append (argumentIh _)
  | binary range operator left right leftIh rightIh =>
      exact (leftIh n).append (rightIh _)
  | unary range operator arg argIh => exact argIh n
  | if_ range test thenArm elseArm testIh thenIh elseIh =>
      have last : Within (compiledOccurrences elseArm
          (n + identifierCount test + identifierCount thenArm))
          (n + (identifierCount test + identifierCount thenArm))
          (identifierCount elseArm) := by
        rw [← Nat.add_assoc]
        exact elseIh _
      exact ((testIh n).append (thenIh _)).append last
  | tuple range first rest length firstIh restIh =>
      intro k member
      have inside := firstIh n k (mem_rounds.mp member).2
      rw [identifierCount]
      omega

/-- The compiler visits every identifier of exactly the fully compiled ones. -/
theorem covered_iff (expression : Expression) (n : Nat) :
    Covered (compiledOccurrences expression n) n (identifierCount expression) ↔
      FullyCompiled expression := by
  have both : ∀ {first second : Expression} {left right : Prop},
      (∀ n, Covered (compiledOccurrences first n) n (identifierCount first) ↔
        left) →
      (∀ n, Covered (compiledOccurrences second n) n (identifierCount second) ↔
        right) → ∀ n, Covered (compiledOccurrences first n ++
          compiledOccurrences second (n + identifierCount first)) n
          (identifierCount first + identifierCount second) ↔ left ∧ right :=
    fun left right n => (covered_append (compiledOccurrences_within _ n)
      (compiledOccurrences_within _ _)).trans (and_congr (left n) (right _))
  have none_ : ∀ {n count : Nat} {holds : Prop}, holds → count = 0 →
      (Covered [] n count ↔ holds) :=
    fun holds zero => iff_of_true (covered_nil.mpr zero) holds
  induction expression using Expression.functionInduction
    generalizing n with
  | integerConstant range literalValue => exact none_ trivial rfl
  | true_ range => exact none_ trivial rfl
  | false_ range => exact none_ trivial rfl
  | error range => exact none_ trivial rfl
  | invalid range => exact none_ trivial rfl
  | tupleFinal range first firstIh => exact covered_nil
  | identifier range id =>
      refine iff_of_true (fun i below => ?_) trivial
      rw [Nat.lt_one_iff.mp below]
      exact List.mem_singleton_self n
  | let_ range id value body valueIh bodyIh =>
      exact both valueIh bodyIh n
  | letrecFunction range id lambdaRange lambdaId lambdaBody body valueIh
      bodyIh => exact both valueIh bodyIh n
  | letrecOther range id value body notLambda valueIh bodyIh =>
      rw [compiledOccurrences_letrec_other notLambda, covered_nil,
        fullyCompiled_letrec_other notLambda]
      rfl
  | lambda range id body bodyIh => exact bodyIh n
  | apply range function argument functionIh argumentIh =>
      exact both functionIh argumentIh n
  | binary range operator left right leftIh rightIh =>
      exact both leftIh rightIh n
  | unary range operator arg argIh => exact argIh n
  | if_ range test thenArm elseArm testIh thenIh elseIh =>
      have arms := both testIh thenIh n
      refine (covered_append ((compiledOccurrences_within test n).append
        (compiledOccurrences_within thenArm _)) ?_).trans
          (and_congr arms ?_)
      · rw [← Nat.add_assoc]
        exact compiledOccurrences_within elseArm _
      · rw [← Nat.add_assoc]
        exact elseIh _
  | tuple range first rest length firstIh restIh =>
      unfold FullyCompiled
      by_cases none_ : length = 0
      · rw [if_pos none_, none_]
        exact covered_nil
      · rw [if_neg none_]
        refine Iff.trans ?_ (and_congr (firstIh n)
          (covered_nil (n := n + identifierCount first)))
        have last : Within [] (n + identifierCount first)
            (identifierCount rest) := List.forall_mem_nil _
        rw [← covered_append (compiledOccurrences_within first n) last,
          List.append_nil]
        exact forall_congr' fun i => imp_congr_right fun below =>
          mem_rounds.trans (and_iff_right none_)

/-! ## The free symbols of fully compiled expressions -/

theorem freeSymbols_of_no_identifiers {expression : Expression}
    (none_ : identifierCount expression = 0) : freeSymbols expression = [] := by
  induction expression with
  | integerConstant | true_ | false_ | error | invalid => rfl
  | identifier => cases none_
  | lambda range id body bodyIh =>
      rw [freeSymbols, bodyIh none_]
      rfl
  | apply range first second firstIh secondIh
  | binary range operator first second firstIh secondIh
  | tuple range first second length firstIh secondIh =>
      rcases Nat.add_eq_zero_iff.mp none_ with ⟨inFirst, inSecond⟩
      rw [freeSymbols, firstIh inFirst, secondIh inSecond]
      rfl
  | let_ range id first second firstIh secondIh
  | letrec range id first second firstIh secondIh =>
      rcases Nat.add_eq_zero_iff.mp none_ with ⟨inFirst, inSecond⟩
      rw [freeSymbols, firstIh inFirst, secondIh inSecond]
      rfl
  | unary range operator arg argIh => exact argIh none_
  | if_ range test thenArm elseArm testIh thenIh elseIh =>
      rcases Nat.add_eq_zero_iff.mp none_ with ⟨inArms, inElse⟩
      rcases Nat.add_eq_zero_iff.mp inArms with ⟨inTest, inThen⟩
      rw [freeSymbols, testIh inTest, thenIh inThen, elseIh inElse]
      rfl
  | tupleFinal range first firstIh => exact firstIh none_

/-- A fully compiled expression has no free symbol that is not visited. -/
theorem FullyCompiled.compiled {expression : Expression}
    (full : FullyCompiled expression) :
    freeSymbols expression ⊆ compiledSymbols expression := by
  induction expression using Expression.functionInduction with
  | integerConstant range literalValue => exact List.Subset.refl _
  | true_ range => exact List.Subset.refl _
  | false_ range => exact List.Subset.refl _
  | error range => exact List.Subset.refl _
  | invalid range => exact List.Subset.refl _
  | tupleFinal range first firstIh =>
      rw [freeSymbols, freeSymbols_of_no_identifiers full]
      exact List.nil_subset _
  | identifier range id => exact List.Subset.refl _
  | lambda range id body bodyIh => exact List.filter_subset _ (bodyIh full)
  | apply range function argument functionIh argumentIh =>
      exact append_mono (functionIh full.1) (argumentIh full.2)
  | binary range operator left right leftIh rightIh =>
      exact append_mono (leftIh full.1) (rightIh full.2)
  | let_ range id value body valueIh bodyIh =>
      exact append_mono (valueIh full.1) (List.filter_subset _ (bodyIh full.2))
  | letrecFunction range id lambdaRange lambdaId lambdaBody body valueIh
      bodyIh =>
      intro symbol member
      rcases List.mem_filter.mp member with ⟨inside, notSelf⟩
      refine List.mem_filter.mpr ⟨?_, notSelf⟩
      rcases List.mem_append.mp inside with inFunction | inBody
      · rcases mem_functionSymbols.mp inFunction with ⟨inBody, other, -⟩
        exact List.mem_append_left _ (mem_functionSymbols.mpr
          ⟨valueIh full.1 inBody, other, .inr (by simpa using notSelf)⟩)
      · exact List.mem_append_right _ (bodyIh full.2 inBody)
  | letrecOther range id value body notLambda valueIh bodyIh =>
      have none_ := (fullyCompiled_letrec_other notLambda).mp full
      have whole : identifierCount (.letrec range id value body) = 0 := none_
      rw [freeSymbols_of_no_identifiers whole]
      exact List.nil_subset _
  | unary range operator arg argIh => exact argIh full
  | if_ range test thenArm elseArm testIh thenIh elseIh =>
      exact append_mono (append_mono (testIh full.1.1) (thenIh full.1.2))
        (elseIh full.2)
  | tuple range first rest length firstIh restIh =>
      unfold FullyCompiled at full
      split at full
      · have whole : identifierCount (.tuple range first rest length) = 0 :=
          full
        rw [freeSymbols_of_no_identifiers whole]
        exact List.nil_subset _
      · rename_i some_
        rw [freeSymbols, freeSymbols_of_no_identifiers full.2, List.append_nil]
        unfold compiledSymbols
        rw [if_neg some_]
        exact firstIh full.1

/-- The functions that a fully compiled expression has are fully compiled. -/
def Event.FullyCompiled : Event → Prop
  | search _ _ _ => True
  | function _ _ body _ => Compiler.FullyCompiled body

theorem closedSearches_fullyCompiled (scope : Scope) (symbols : List Symbol)
    (view : View) :
    ∀ event ∈ closedSearches scope symbols view, event.FullyCompiled := by
  induction symbols generalizing view with
  | nil => exact List.forall_mem_nil _
  | cons symbol symbols ih => exact List.forall_mem_cons.mpr ⟨trivial, ih _⟩

theorem lambdaTrace_fullyCompiled {input : CompileInput} {body : Expression}
    (full : FullyCompiled body)
    (bodyFull : ∀ view scope, ∀ event ∈ trace input body view scope,
      event.FullyCompiled) (lambdaId selfId : Symbol) (view : View)
    (scope : Scope) :
    ∀ event ∈ lambdaTrace input lambdaId selfId body (trace input body) view
      scope, event.FullyCompiled :=
  List.forall_mem_append.mpr ⟨bodyFull _ _,
    List.forall_mem_cons.mpr ⟨full, closedSearches_fullyCompiled _ _ _⟩⟩

theorem tupleTrace_fullyCompiled {first : View → Emission}
    {firstTrace : View → List Event}
    (firstFull : ∀ view, ∀ event ∈ firstTrace view, event.FullyCompiled)
    (count : Nat) (view : View) :
    ∀ event ∈ tupleTrace first firstTrace count view, event.FullyCompiled := by
  induction count generalizing view with
  | zero => exact List.forall_mem_nil _
  | succ count ih => exact List.forall_mem_append.mpr ⟨firstFull view, ih _⟩

theorem trace_fullyCompiled (input : CompileInput) {expression : Expression}
    (full : FullyCompiled expression) (view : View) (scope : Scope) :
    ∀ event ∈ trace input expression view scope, event.FullyCompiled := by
  induction expression using Expression.functionInduction
    generalizing view scope with
  | integerConstant range literalValue => exact List.forall_mem_nil _
  | true_ range => exact List.forall_mem_nil _
  | false_ range => exact List.forall_mem_nil _
  | error range => exact List.forall_mem_nil _
  | invalid range => exact List.forall_mem_nil _
  | tupleFinal range first firstIh => exact List.forall_mem_nil _
  | identifier range id => exact List.forall_mem_singleton.mpr trivial
  | let_ range id value body valueIh bodyIh =>
      exact List.forall_mem_append.mpr
        ⟨valueIh full.1 _ _, bodyIh full.2 _ _⟩
  | letrecFunction range id lambdaRange lambdaId lambdaBody body valueIh
      bodyIh =>
      exact List.forall_mem_append.mpr
        ⟨lambdaTrace_fullyCompiled full.1 (valueIh full.1) _ _ _ _,
          bodyIh full.2 _ _⟩
  | letrecOther range id value body notLambda valueIh bodyIh =>
      rw [trace_letrec_other notLambda]
      exact List.forall_mem_nil _
  | lambda range id body bodyIh =>
      have inner : FullyCompiled body := full
      exact lambdaTrace_fullyCompiled inner (bodyIh inner) _ _ _ _
  | apply range function argument functionIh argumentIh =>
      exact List.forall_mem_append.mpr
        ⟨functionIh full.1 _ _, argumentIh full.2 _ _⟩
  | binary range operator left right leftIh rightIh =>
      exact List.forall_mem_append.mpr
        ⟨leftIh full.1 _ _, rightIh full.2 _ _⟩
  | unary range operator arg argIh => exact argIh full _ _
  | if_ range test thenArm elseArm testIh thenIh elseIh =>
      exact List.forall_mem_append.mpr ⟨List.forall_mem_append.mpr
        ⟨testIh full.1.1 _ _, thenIh full.1.2 _ _⟩, elseIh full.2 _ _⟩
  | tuple range first rest length firstIh restIh =>
      unfold FullyCompiled at full
      split at full
      · rename_i none_
        subst none_
        exact List.forall_mem_nil _
      · exact tupleTrace_fullyCompiled (firstIh full.1 · scope) length _

end Millie.Compiler
