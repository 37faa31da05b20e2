import Millie.Compiler.Layout

/-!
# The trace of a compilation

`trace` lists what emitting an expression does that the claims about it turn on:
every search of the binding memory, for an identifier or for a captured value
that is loaded into a new closure, and every function that is compiled.  Each
search carries its scope, the binders that enclose it and the register each of
them lives in.  `Continues` collects what emission never undoes.
-/

namespace Millie.Compiler

open Millie.Symbols Millie.Syntax Millie.Machine

/-! ## What emission preserves -/

/-- A closure list only grows at its end. -/
theorem View.close_prefix (closure : List Symbol) (id : Symbol) :
    closure <+: View.close closure id := by
  unfold View.close
  split
  · exact List.prefix_rfl
  · exact List.prefix_append _ _

/-- What every emission preserves of the state it starts from. -/
structure Continues (view after : View) : Prop where
  top : after.top = view.top
  bindings : ∀ i < view.top, after.bindings i = view.bindings i
  registers : view.registers ≤ after.registers
  closure : view.closure <+: after.closure
  errors : view.errors <+: after.errors
  finished : view.finished <+: after.finished

namespace Continues

theorem refl (view : View) : Continues view view :=
  ⟨rfl, fun _ _ => rfl, Nat.le_refl _, List.prefix_rfl, List.prefix_rfl,
    List.prefix_rfl⟩

theorem trans {view middle after : View} (first : Continues view middle)
    (second : Continues middle after) : Continues view after where
  top := second.top.trans first.top
  bindings i below :=
    (second.bindings i (first.top ▸ below)).trans (first.bindings i below)
  registers := Nat.le_trans first.registers second.registers
  closure := first.closure.trans second.closure
  errors := first.errors.trans second.errors
  finished := first.finished.trans second.finished

theorem take (view : View) : Continues view view.take :=
  ⟨rfl, fun _ _ => rfl, Nat.le_succ _, List.prefix_rfl, List.prefix_rfl,
    List.prefix_rfl⟩

theorem report (input : CompileInput) (range : TokenRange) (error : String)
    (view : View) : Continues view (view.report input range error) :=
  ⟨rfl, fun _ _ => rfl, Nat.le_refl _, List.prefix_rfl,
    List.prefix_append _ _, List.prefix_rfl⟩

/-- A binding's scope leaves the bindings below it alone. -/
theorem scope {view after : View} {symbol : Symbol} {reg : UInt8}
    (inner : Continues (view.push symbol reg) after) :
    Continues view after.pop where
  top := by simp [View.pop, inner.top, View.push]
  bindings i below := by
    have kept := inner.bindings i (Nat.lt_succ_of_lt below)
    simpa [View.pop, View.push, Function.update_of_ne (Nat.ne_of_lt below)]
      using kept
  registers := inner.registers
  closure := inner.closure
  errors := inner.errors
  finished := inner.finished

end Continues

theorem emitLiteral_continues (value : UInt64) (view : View) :
    Continues view (emitLiteral value view).view :=
  .take view

theorem emitIdentifier_continues (id : Symbol) (view : View) :
    Continues view (emitIdentifier id view).view := by
  cases found : View.search view.bindings id view.top with
  | some reg =>
      rw [emitIdentifier_bound found]
      have same := Continues.refl view
      exact ⟨same.top, same.bindings, same.registers, same.closure,
        same.errors, same.finished⟩
  | none =>
      rw [emitIdentifier_closed found]
      have taken := Continues.take view
      exact ⟨taken.top, taken.bindings, taken.registers,
        View.close_prefix view.closure id, taken.errors, taken.finished⟩

theorem emitClosedValues_continues (closureRegister : UInt8)
    (symbols : List Symbol) (i : Nat) (view : View) :
    Continues view (emitClosedValues closureRegister i symbols view).2 := by
  induction symbols generalizing i view with
  | nil => exact .refl view
  | cons symbol symbols ih =>
      exact (emitIdentifier_continues symbol view).trans (ih (i + 1) _)

theorem functionView_errors (input : CompileInput) (lambdaId selfId : Symbol)
    (funcId : Nat) (view : View) :
    (functionView input lambdaId selfId funcId view).errors = view.errors ∧
      (functionView input lambdaId selfId funcId view).finished =
        view.finished := by
  unfold functionView
  by_cases named : selfId ≠ invalidSymbol
  · simp only [if_pos named]
    exact ⟨rfl, rfl⟩
  · simp only [if_neg named]
    exact ⟨rfl, rfl⟩

/-- A function compiled between two states leaves the outer one running. -/
theorem finishFunction_continues (input : CompileInput)
    {lambdaId selfId : Symbol} {body : View → Emission}
    (continues : ∀ view, Continues view (body view).view)
    (funcId : Nat) (result : EntryPointer) (view : View) :
    Continues view
      (finishFunction funcId result
        (emitBody input lambdaId selfId body view) view) := by
  let added := addFunction view.module
  have inner := continues (functionView input lambdaId selfId added.2.1
    { view with module := added.2.2 })
  rcases functionView_errors input lambdaId selfId added.2.1
    { view with module := added.2.2 } with ⟨errors, finished⟩
  refine ⟨rfl, fun _ _ => rfl, Nat.le_refl _, List.prefix_rfl, ?_, ?_⟩
  · have grows := inner.errors
    rw [errors] at grows
    exact grows
  · have grows := inner.finished
    rw [finished] at grows
    exact grows.trans (List.prefix_append _ _)

theorem emitLambdaImpl_continues (input : CompileInput)
    {body : View → Emission}
    (continues : ∀ view, Continues view (body view).view)
    (lambdaId selfId : Symbol) (closureRegister : UInt8) (view : View) :
    Continues view
      (emitLambdaImpl input lambdaId body selfId closureRegister view).view :=
  ((finishFunction_continues input continues _ _ view).trans
    (emitLiteral_continues _ _)).trans
    (emitClosedValues_continues closureRegister _ 0 _)

theorem emitTupleMembers_continues {first : View → Emission}
    (continues : ∀ view, Continues view (first view).view)
    (outReg : UInt8) (count i : Nat) (view : View) :
    Continues view (emitTupleMembers first outReg i count view).2 := by
  induction count generalizing i view with
  | zero => exact .refl view
  | succ count ih => exact (continues view).trans (ih (i + 1) _)

theorem emitBinary_continues (input : CompileInput) (range : TokenRange)
    (operator : TokenType) (left right : View → Emission) (view : View) :
    Continues (right (left view).view).view
      (emitBinary input range operator left right view).view := by
  have taken := Continues.take (right (left view).view).view
  unfold emitBinary
  dsimp only
  split
  · exact taken
  · exact taken.trans (.report input range _ _)

theorem emitUnary_continues (input : CompileInput) (range : TokenRange)
    (operator : TokenType) (arg : View → Emission) (view : View) :
    Continues (arg view).view
      (emitUnary input range operator arg view).view := by
  have taken := Continues.take (arg view).view
  unfold emitUnary
  dsimp only
  split
  · exact taken
  · exact taken.trans (.report input range _ _)

theorem emit_continues (input : CompileInput) (expression : Expression)
    (view : View) : Continues view (emit input expression view).view := by
  induction expression using Expression.functionInduction generalizing view with
  | integerConstant range literalValue => exact .take view
  | true_ range => exact .take view
  | false_ range => exact .take view
  | error range => exact .refl view
  | invalid range => exact .report input range _ view
  | tupleFinal range first firstIh => exact .report input range _ view
  | identifier range id => exact emitIdentifier_continues id view
  | let_ range id value body valueIh bodyIh =>
      exact (valueIh view).trans (bodyIh _).scope
  | letrecFunction range id lambdaRange lambdaId lambdaBody body valueIh
      bodyIh =>
      let inner := view.take.push id view.nextReg
      have value := emitLambdaImpl_continues input valueIh lambdaId id
        view.nextReg inner
      exact (Continues.take view).trans (value.trans (bodyIh _)).scope
  | letrecOther range id value body notLambda valueIh bodyIh =>
      rw [emit_letrec_other notLambda]
      exact (Continues.take view).trans (.report input value.range _ view.take)
  | lambda range id body bodyIh =>
      exact (Continues.take view).trans
        (emitLambdaImpl_continues input bodyIh id invalidSymbol _ view.take)
  | apply range function argument functionIh argumentIh =>
      exact ((functionIh view).trans (argumentIh _)).trans (.take _)
  | binary range operator left right leftIh rightIh =>
      exact ((leftIh view).trans (rightIh _)).trans
        (emitBinary_continues input range operator _ _ view)
  | unary range operator arg argIh =>
      exact (argIh view).trans
        (emitUnary_continues input range operator _ view)
  | if_ range test thenArm elseArm testIh thenIh elseIh =>
      exact ((testIh view).trans (thenIh _)).trans (elseIh _)
  | tuple range first rest length firstIh restIh =>
      exact ((Continues.take view).trans (.take _)).trans
        (emitTupleMembers_continues firstIh _ length 0 _)

/-! ## Scopes -/

/-- An enclosing binder: the function it is in, and its register there. -/
structure Binder where
  symbol : Symbol
  depth : Nat
  reg : UInt8
deriving DecidableEq

/-- The nesting depth of a function and the binders in scope, innermost first. -/
structure Scope where
  depth : Nat
  binders : List Binder
deriving DecidableEq

namespace Scope

/-- The scope of an entry function. -/
def entry : Scope :=
  ⟨0, []⟩

/-- Bind a symbol in the current function. -/
def bind (scope : Scope) (symbol : Symbol) (reg : UInt8) : Scope :=
  { scope with binders := ⟨symbol, scope.depth, reg⟩ :: scope.binders }

/-- Enter a function: its own name, if it has one, and its parameter. -/
def enter (scope : Scope) (lambdaId selfId : Symbol) : Scope :=
  let inner : Scope := { scope with depth := scope.depth + 1 }
  let inner := if selfId ≠ invalidSymbol then inner.bind selfId 0 else inner
  inner.bind lambdaId 1

/-- The innermost enclosing binder of a symbol. -/
def resolve (scope : Scope) (id : Symbol) : Option Binder :=
  scope.binders.find? fun binder => binder.symbol = id

end Scope

/-! ## Traces -/

/-- What a compilation does that a claim turns on. -/
inductive Event where
  | search (view : View) (scope : Scope) (id : Symbol)
  | function (lambdaId selfId : Symbol) (body : Expression)
      (closure : List Symbol)

/-- The searches for the captured values of a new closure. -/
def closedSearches (scope : Scope) : List Symbol → View → List Event
  | [], _ => []
  | symbol :: symbols, view =>
      .search view scope symbol ::
        closedSearches scope symbols (emitIdentifier symbol view).view

/-- The state in which the slots of a new closure are filled. -/
def closureView (input : CompileInput) (lambdaId selfId : Symbol)
    (body : View → Emission) (view : View) : View :=
  let added := addFunction view.module
  (emitLiteral (UInt64.ofNat added.2.1)
    (finishFunction added.2.1 added.1
      (emitBody input lambdaId selfId body view) view)).view

/-- The trace of a function's body, of the function, and of its closure. -/
def lambdaTrace (input : CompileInput) (lambdaId selfId : Symbol)
    (body : Expression) (bodyTrace : View → Scope → List Event)
    (view : View) (scope : Scope) : List Event :=
  let added := addFunction view.module
  let emitted := emitBody input lambdaId selfId (emit input body) view
  bodyTrace (functionView input lambdaId selfId added.2.1
      { view with module := added.2.2 }) (scope.enter lambdaId selfId) ++
    .function lambdaId selfId body emitted.view.closure ::
      closedSearches scope emitted.view.closure
        (closureView input lambdaId selfId (emit input body) view)

/-- The trace of the rounds of a tuple. -/
def tupleTrace (first : View → Emission) (firstTrace : View → List Event) :
    Nat → View → List Event
  | 0, _ => []
  | count + 1, view =>
      firstTrace view ++ tupleTrace first firstTrace count (first view).view

/-- What emitting an expression does, in order. -/
def trace (input : CompileInput) :
    Expression → View → Scope → List Event
  | .identifier _ id, view, scope => [.search view scope id]
  | .let_ _ id value body, view, scope =>
      let emitted := emit input value view
      trace input value view scope ++
        trace input body (emitted.view.push id emitted.reg)
          (scope.bind id emitted.reg)
  | .letrec _ id value body, view, scope =>
      match value with
      | .lambda _ lambdaId lambdaBody =>
          let inner := view.take.push id view.nextReg
          let innerScope := scope.bind id view.nextReg
          lambdaTrace input lambdaId id lambdaBody (trace input lambdaBody)
              inner innerScope ++
            trace input body
              (emitLambdaImpl input lambdaId (emit input lambdaBody) id
                view.nextReg inner).view innerScope
      | _ => []
  | .lambda _ id body, view, scope =>
      lambdaTrace input id invalidSymbol body (trace input body) view.take scope
  | .apply _ function argument, view, scope =>
      trace input function view scope ++
        trace input argument (emit input function view).view scope
  | .binary _ _ left right, view, scope =>
      trace input left view scope ++
        trace input right (emit input left view).view scope
  | .unary _ _ arg, view, scope => trace input arg view scope
  | .if_ _ test thenArm elseArm, view, scope =>
      let tested := (emit input test view).view
      trace input test view scope ++ trace input thenArm tested scope ++
        trace input elseArm (emit input thenArm tested).view scope
  | .tuple _ first _ length, view, scope =>
      tupleTrace (emit input first) (trace input first · scope) length
        view.take.take
  | .integerConstant _ _, _, _ | .true_ _, _, _ | .false_ _, _, _
  | .error _, _, _ | .invalid _, _, _ | .tupleFinal _ _, _, _ => []

/-- The search an event records: its symbol and what it finds. -/
def Event.searched : Event → Option (Symbol × Option UInt8)
  | search view _ id => some (id, View.search view.bindings id view.top)
  | function _ _ _ _ => none

/-- The closure list of a function that an event records. -/
def Event.closure : Event → Option (List Symbol)
  | search _ _ _ => none
  | function _ _ _ closure => some closure

theorem trace_letrec_other {value : Expression}
    (notLambda : ¬value.IsLambda) (input : CompileInput) (range : TokenRange)
    (id : Symbol) (body : Expression) (view : View) (scope : Scope) :
    trace input (.letrec range id value body) view scope = [] := by
  cases value with
  | lambda range id body => exact absurd trivial notLambda
  | _ => rfl

end Millie.Compiler
