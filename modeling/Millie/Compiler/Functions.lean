import Millie.Compiler.GeneratorSound
import Millie.Compiler.Trace

/-!
# The functions of a module

`functions` lists the functions that compiling an expression finishes, each with
the state and the scope in which its body is emitted.  What the compilation
records about finished functions are the entries of these functions, in order.
-/

namespace Millie.Compiler

open Millie.Symbols Millie.Syntax Millie.Machine

/-! ## Functions -/

/-- A function: its id, its body, and where the body is emitted. -/
structure Function where
  id : Nat
  body : Expression
  view : View
  scope : Scope

namespace Function

/-- What emitting the body of a function yields. -/
def emission (input : CompileInput) (function : Function) : Emission :=
  emit input function.body function.view

/-- The closure symbols of a function when it is finished. -/
def closure (input : CompileInput) (function : Function) : List Symbol :=
  (function.emission input).view.closure

/-- The instructions emitted for the body of a function. -/
def instructions (input : CompileInput) (function : Function) :
    List Instruction :=
  (function.emission input).code.instructions

/-- The entry that a function gets in the function table. -/
def entry (input : CompileInput) (function : Function) :
    CompiledExpression :=
  finishedEntry function.id (function.emission input)

end Function

/-- The function of a lambda. -/
def lambdaFunction (input : CompileInput) (lambdaId selfId : Symbol)
    (body : Expression) (view : View) (scope : Scope) : Function :=
  let added := addFunction view.module
  ⟨added.2.1, body, functionView input lambdaId selfId added.2.1
    { view with module := added.2.2 }, scope.enter lambdaId selfId⟩

/-- The functions in a lambda's body, and the lambda's own. -/
def lambdaFunctions (bodyFunctions : View → Scope → List Function)
    (function : Function) : List Function :=
  bodyFunctions function.view function.scope ++ [function]

/-- The functions of the rounds of a tuple. -/
def tupleFunctions (first : View → Emission)
    (firstFunctions : View → List Function) : Nat → View → List Function
  | 0, _ => []
  | count + 1, view =>
      firstFunctions view ++
        tupleFunctions first firstFunctions count (first view).view

/-- The functions that compiling an expression finishes, in order. -/
def functions (input : CompileInput) :
    Expression → View → Scope → List Function
  | .let_ _ id value body, view, scope =>
      let emitted := emit input value view
      functions input value view scope ++
        functions input body (emitted.view.push id emitted.reg)
          (scope.bind id emitted.reg)
  | .letrec _ id value body, view, scope =>
      match value with
      | .lambda _ lambdaId lambdaBody =>
          let inner := view.take.push id view.nextReg
          let innerScope := scope.bind id view.nextReg
          lambdaFunctions (functions input lambdaBody)
              (lambdaFunction input lambdaId id lambdaBody inner innerScope) ++
            functions input body
              (emitLambdaImpl input lambdaId (emit input lambdaBody) id
                view.nextReg inner).view innerScope
      | _ => []
  | .lambda _ id body, view, scope =>
      lambdaFunctions (functions input body)
        (lambdaFunction input id invalidSymbol body view.take scope)
  | .apply _ function argument, view, scope =>
      functions input function view scope ++
        functions input argument (emit input function view).view scope
  | .binary _ _ left right, view, scope =>
      functions input left view scope ++
        functions input right (emit input left view).view scope
  | .unary _ _ arg, view, scope => functions input arg view scope
  | .if_ _ test thenArm elseArm, view, scope =>
      let tested := (emit input test view).view
      functions input test view scope ++
        functions input thenArm tested scope ++
        functions input elseArm (emit input thenArm tested).view scope
  | .tuple _ first _ length, view, scope =>
      tupleFunctions (emit input first) (functions input first · scope) length
        view.take.take
  | .identifier _ _, _, _ | .integerConstant _ _, _, _ | .true_ _, _, _
  | .false_ _, _, _ | .error _, _, _ | .invalid _, _, _
  | .tupleFinal _ _, _, _ => []

theorem functions_letrec_other {value : Expression}
    (notLambda : ¬value.IsLambda) (input : CompileInput) (range : TokenRange)
    (id : Symbol) (body : Expression) (view : View) (scope : Scope) :
    functions input (.letrec range id value body) view scope = [] := by
  cases value with
  | lambda range id body => exact absurd trivial notLambda
  | _ => rfl

/-- The entry function of an expression. -/
def entryFunction (input : CompileInput) (expression : Expression) :
    Function :=
  ⟨0, expression, entryView input, .entry⟩

/-- The functions of the module that compiling an expression yields. -/
def moduleFunctions (input : CompileInput) (expression : Expression) :
    List Function :=
  functions input expression (entryView input) .entry ++
    [entryFunction input expression]

/-! ## Facts about every function -/

section

variable {input : CompileInput} {fact : Function → Prop}

/-- What holds of the functions in a lambda's body and of the lambda's own. -/
theorem lambdaFunctions_all {body : Expression} {f : Function}
    (inBody : ∀ view scope, ∀ g ∈ functions input body view scope, fact g)
    (own : fact f) : ∀ g ∈ lambdaFunctions (functions input body) f, fact g :=
  List.forall_mem_append.mpr
    ⟨inBody f.view f.scope, List.forall_mem_singleton.mpr own⟩

theorem tupleFunctions_all {first : Expression} {scope : Scope}
    (inFirst : ∀ view, ∀ g ∈ functions input first view scope, fact g)
    (count : Nat) (view : View) :
    ∀ g ∈ tupleFunctions (emit input first) (functions input first · scope)
      count view, fact g := by
  induction count generalizing view with
  | zero => exact nofun
  | succ count ih => exact List.forall_mem_append.mpr ⟨inFirst view, ih _⟩

/-- What holds of the function of every lambda holds of every function. -/
theorem functions_all
    (lambdas : ∀ lambdaId selfId body view scope,
      fact (lambdaFunction input lambdaId selfId body view scope))
    (expression : Expression) (view : View) (scope : Scope) :
    ∀ f ∈ functions input expression view scope, fact f := by
  induction expression using Expression.functionInduction
    generalizing view scope with
  | integerConstant | true_ | false_ | error | invalid | tupleFinal
  | identifier => exact nofun
  | let_ range id value body valueIh bodyIh =>
      exact List.forall_mem_append.mpr ⟨valueIh view scope, bodyIh _ _⟩
  | letrecFunction range id lambdaRange lambdaId lambdaBody body valueIh
      bodyIh =>
      exact List.forall_mem_append.mpr
        ⟨lambdaFunctions_all valueIh (lambdas _ _ _ _ _), bodyIh _ _⟩
  | letrecOther range id value body notLambda valueIh bodyIh =>
      rw [functions_letrec_other notLambda]
      exact nofun
  | lambda range id body bodyIh =>
      exact lambdaFunctions_all bodyIh (lambdas _ _ _ _ _)
  | apply range function argument functionIh argumentIh =>
      exact List.forall_mem_append.mpr ⟨functionIh view scope, argumentIh _ _⟩
  | binary range operator left right leftIh rightIh =>
      exact List.forall_mem_append.mpr ⟨leftIh view scope, rightIh _ _⟩
  | unary range operator arg argIh => exact argIh view scope
  | if_ range test thenArm elseArm testIh thenIh elseIh =>
      exact List.forall_mem_append.mpr
        ⟨List.forall_mem_append.mpr ⟨testIh view scope, thenIh _ _⟩,
          elseIh _ _⟩
  | tuple range first rest length firstIh restIh =>
      exact tupleFunctions_all (fun view => firstIh view scope) length _

theorem moduleFunctions_all
    (lambdas : ∀ lambdaId selfId body view scope,
      fact (lambdaFunction input lambdaId selfId body view scope))
    {expression : Expression} (entry : fact (entryFunction input expression)) :
    ∀ f ∈ moduleFunctions input expression, fact f :=
  List.forall_mem_append.mpr
    ⟨functions_all lambdas expression _ _, List.forall_mem_singleton.mpr entry⟩

end

/-! ## What a compilation records of its functions -/

section

variable {input : CompileInput}

/-- The functions between two states are what the compilation recorded. -/
def Finishes (input : CompileInput) (view after : View)
    (functions : List Function) : Prop :=
  after.finished =
    view.finished ++ functions.map fun f => (f.id, f.entry input)

namespace Finishes

theorem silent {view after : View} (same : after.finished = view.finished) :
    Finishes input view after [] := by
  rw [Finishes, same, List.map_nil, List.append_nil]

theorem trans {view middle after : View} {first second : List Function}
    (firstRun : Finishes input view middle first)
    (secondRun : Finishes input middle after second) :
    Finishes input view after (first ++ second) := by
  rw [Finishes, secondRun, firstRun, List.map_append, List.append_assoc]

/-- A state with the same record after it. -/
theorem congr {view after later : View} {functions : List Function}
    (run : Finishes input view after functions)
    (same : later.finished = after.finished) :
    Finishes input view later functions :=
  same.trans run

end Finishes

theorem emitIdentifier_finished (id : Symbol) (view : View) :
    (emitIdentifier id view).view.finished = view.finished := by
  unfold emitIdentifier
  split <;> rfl

theorem emitClosedValues_finished (closureRegister : UInt8)
    (symbols : List Symbol) (i : Nat) (view : View) :
    (emitClosedValues closureRegister i symbols view).2.finished =
      view.finished := by
  induction symbols generalizing i view with
  | nil => rfl
  | cons symbol symbols ih =>
      exact (ih (i + 1) _).trans (emitIdentifier_finished symbol view)

/-- An expression records its functions. -/
def EmitsFunctions (input : CompileInput) (expression : Expression) : Prop :=
  ∀ view scope, Finishes input view (emit input expression view).view
    (functions input expression view scope)

theorem EmitsFunctions.lambdaImpl {body : Expression}
    (bodyFinishes : EmitsFunctions input body) (lambdaId selfId : Symbol)
    (closureRegister : UInt8) (view : View) (scope : Scope) :
    Finishes input view
      (emitLambdaImpl input lambdaId (emit input body) selfId closureRegister
        view).view
      (lambdaFunctions (functions input body)
        (lambdaFunction input lambdaId selfId body view scope)) := by
  let function := lambdaFunction input lambdaId selfId body view scope
  have inner := bodyFinishes function.view function.scope
  have start : function.view.finished = view.finished :=
    (functionView_errors input lambdaId selfId _ _).2
  have closed := emitClosedValues_finished closureRegister
    (function.emission input).view.closure 0
    (emitLiteral (UInt64.ofNat function.id)
      (finishFunction function.id (addFunction view.module).1
        (function.emission input) view)).view
  apply Finishes.congr ?_ closed
  change _ ++ [(function.id, function.entry input)] = _
  rw [lambdaFunctions, List.map_append, ← List.append_assoc, ← start]
  exact congrArg (· ++ [_]) inner

theorem emitTupleMembers_functions {first : Expression}
    (firstFinishes : EmitsFunctions input first) (scope : Scope)
    (outReg : UInt8) (count i : Nat) (view : View) :
    Finishes input view
      (emitTupleMembers (emit input first) outReg i count view).2
      (tupleFunctions (emit input first) (functions input first · scope) count
        view) := by
  induction count generalizing i view with
  | zero => exact .silent rfl
  | succ count ih => exact (firstFinishes view scope).trans (ih (i + 1) _)

theorem emit_functions (input : CompileInput) (expression : Expression) :
    EmitsFunctions input expression := by
  induction expression using Expression.functionInduction with
  | integerConstant | true_ | false_ | error | invalid | tupleFinal =>
      exact fun _ _ => .silent rfl
  | identifier range id =>
      exact fun view _ => .silent (emitIdentifier_finished id view)
  | let_ range id value body valueIh bodyIh =>
      intro view scope
      let emitted := emit input value view
      have inner : Finishes input emitted.view _ _ :=
        bodyIh (emitted.view.push id emitted.reg) (scope.bind id emitted.reg)
      exact ((valueIh view scope).trans inner).congr rfl
  | letrecFunction range id lambdaRange lambdaId lambdaBody body valueIh
      bodyIh =>
      intro view scope
      have function := valueIh.lambdaImpl lambdaId id view.nextReg
        (view.take.push id view.nextReg) (scope.bind id view.nextReg)
      exact (function.trans (bodyIh _ _)).congr rfl
  | letrecOther range id value body notLambda valueIh bodyIh =>
      intro view scope
      rw [emit_letrec_other notLambda, functions_letrec_other notLambda]
      exact .silent rfl
  | lambda range id body bodyIh =>
      exact fun view scope =>
        bodyIh.lambdaImpl id invalidSymbol view.nextReg view.take scope
  | apply range function argument functionIh argumentIh =>
      exact fun view scope =>
        ((functionIh view scope).trans (argumentIh _ scope)).congr rfl
  | binary range operator left right leftIh rightIh =>
      intro view scope
      have both := (leftIh view scope).trans (rightIh _ scope)
      simp only [emit, emitBinary]
      split <;> exact both.congr rfl
  | unary range operator arg argIh =>
      intro view scope
      simp only [emit, emitUnary]
      split <;> exact (argIh view scope).congr rfl
  | if_ range test thenArm elseArm testIh thenIh elseIh =>
      exact fun view scope =>
        ((testIh view scope).trans (thenIh _ scope)).trans (elseIh _ scope)
  | tuple range first rest length firstIh restIh =>
      exact fun view scope =>
        emitTupleMembers_functions firstIh scope view.take.nextReg length 0
          view.take.take

/-- A compilation records the entries of exactly the module's functions. -/
theorem compileModule_functions {expression : Expression} {funcId : Nat}
    {after : CompileState}
    (returns : compileModule input expression = .ok (funcId, after)) :
    after.finished = (moduleFunctions input expression).map fun f =>
      (f.id, f.entry input) := by
  rcases compileModule_ok returns with ⟨-, -, -, finishedIs, -⟩
  have inner := emit_functions input expression (entryView input) .entry
  rw [finishedIs, moduleFunctions, List.map_append]
  exact congrArg (· ++ [_]) inner

/-! ## What a function's body leaves is kept -/

/-- The errors and the finished functions of a state are part of a later one's. -/
def Kept (view after : View) : Prop :=
  view.errors <+: after.errors ∧ view.finished <+: after.finished

theorem Kept.trans {view middle after : View} (first : Kept view middle)
    (second : Kept middle after) : Kept view after :=
  ⟨first.1.trans second.1, first.2.trans second.2⟩

theorem Continues.kept {view after : View} (continues : Continues view after) :
    Kept view after :=
  ⟨continues.errors, continues.finished⟩

/-- What emitting an expression's functions leaves, the expression keeps. -/
def KeepsFunctions (input : CompileInput) (expression : Expression) : Prop :=
  ∀ view scope, ∀ f ∈ functions input expression view scope,
    Kept (f.emission input).view (emit input expression view).view

/-- The functions of an earlier emission, seen from a later state. -/
theorem KeepsFunctions.earlier {expression : Expression}
    (keeps : KeepsFunctions input expression) {view after : View}
    (scope : Scope) (continues : Continues (emit input expression view).view
      after) :
    ∀ f ∈ functions input expression view scope,
      Kept (f.emission input).view after :=
  fun f member => (keeps view scope f member).trans continues.kept

theorem KeepsFunctions.lambdaImpl {body : Expression}
    (bodyKeeps : KeepsFunctions input body) (lambdaId selfId : Symbol)
    (closureRegister : UInt8) (view : View) (scope : Scope) :
    ∀ f ∈ lambdaFunctions (functions input body)
        (lambdaFunction input lambdaId selfId body view scope),
      Kept (f.emission input).view
        (emitLambdaImpl input lambdaId (emit input body) selfId closureRegister
          view).view := by
  let function := lambdaFunction input lambdaId selfId body view scope
  let literal := emitLiteral (UInt64.ofNat function.id)
    (finishFunction function.id (addFunction view.module).1
      (function.emission input) view)
  have closed : Kept literal.view
      (emitLambdaImpl input lambdaId (emit input body) selfId closureRegister
        view).view :=
    (emitClosedValues_continues closureRegister
      (function.emission input).view.closure 0 literal.view).kept
  have own : Kept (function.emission input).view literal.view :=
    ⟨List.prefix_rfl, List.prefix_append _ _⟩
  have whole := own.trans closed
  intro f member
  rcases List.mem_append.mp member with nested | own
  · exact (bodyKeeps function.view function.scope f nested).trans whole
  · rw [List.mem_singleton.mp own]
    exact whole

theorem tupleFunctions_kept {first : Expression}
    (firstKeeps : KeepsFunctions input first) (scope : Scope)
    (outReg : UInt8) (count i : Nat) (view : View) :
    ∀ f ∈ tupleFunctions (emit input first) (functions input first · scope)
        count view,
      Kept (f.emission input).view
        (emitTupleMembers (emit input first) outReg i count view).2 := by
  induction count generalizing i view with
  | zero => exact nofun
  | succ count ih =>
      have later := emitTupleMembers_continues (emit_continues input first)
        outReg count (i + 1) (emit input first view).view
      intro f member
      rcases List.mem_append.mp member with inFirst | inRest
      · exact firstKeeps.earlier scope later f inFirst
      · exact ih (i + 1) _ f inRest

theorem functions_kept (input : CompileInput) (expression : Expression) :
    KeepsFunctions input expression := by
  induction expression using Expression.functionInduction with
  | integerConstant | true_ | false_ | error | invalid | tupleFinal
  | identifier => exact nofun
  | let_ range id value body valueIh bodyIh =>
      intro view scope f member
      let emitted := emit input value view
      rcases List.mem_append.mp member with inValue | inBody
      · have bodyKept := emit_continues input body
          (emitted.view.push id emitted.reg)
        exact valueIh.earlier scope bodyKept.scope f inValue
      · exact bodyIh (emitted.view.push id emitted.reg)
          (scope.bind id emitted.reg) f inBody
  | letrecFunction range id lambdaRange lambdaId lambdaBody body valueIh
      bodyIh =>
      intro view scope f member
      let inner := view.take.push id view.nextReg
      have bodyKept := emit_continues input body
        (emitLambdaImpl input lambdaId (emit input lambdaBody) id view.nextReg
          inner).view
      rcases List.mem_append.mp member with inFunction | inBody
      · exact (valueIh.lambdaImpl lambdaId id view.nextReg inner _ f
          inFunction).trans bodyKept.kept
      · exact bodyIh _ _ f inBody
  | letrecOther range id value body notLambda valueIh bodyIh =>
      intro view scope
      rw [functions_letrec_other notLambda]
      exact nofun
  | lambda range id body bodyIh =>
      exact fun view scope =>
        bodyIh.lambdaImpl id invalidSymbol view.nextReg view.take scope
  | apply range function argument functionIh argumentIh =>
      intro view scope f member
      rcases List.mem_append.mp member with inFunction | inArgument
      · exact functionIh.earlier scope (emit_continues input argument _) f
          inFunction
      · exact argumentIh _ scope f inArgument
  | binary range operator left right leftIh rightIh =>
      intro view scope f member
      have out := emitBinary_continues input range operator
        (emit input left) (emit input right) view
      rcases List.mem_append.mp member with inLeft | inRight
      · exact (leftIh.earlier scope (emit_continues input right _) f
          inLeft).trans out.kept
      · exact (rightIh _ scope f inRight).trans out.kept
  | unary range operator arg argIh =>
      intro view scope f member
      have out := emitUnary_continues input range operator (emit input arg) view
      exact (argIh view scope f member).trans out.kept
  | if_ range test thenArm elseArm testIh thenIh elseIh =>
      intro view scope f member
      have elseKept := emit_continues input elseArm
        (emit input thenArm (emit input test view).view).view
      rcases List.mem_append.mp member with member | inElse
      · rcases List.mem_append.mp member with inTest | inThen
        · exact testIh.earlier scope
            ((emit_continues input thenArm _).trans elseKept) f inTest
        · exact thenIh.earlier scope elseKept f inThen
      · exact elseIh _ scope f inElse
  | tuple range first rest length firstIh restIh =>
      exact fun view scope => tupleFunctions_kept firstIh scope
        view.take.nextReg length 0 view.take.take

/-- No function of a module whose compilation reports nothing has an error. -/
theorem moduleFunctions_quiet {expression : Expression} {funcId : Nat}
    {after : CompileState}
    (returns : compileModule input expression = .ok (funcId, after))
    (quiet : after.errors = []) :
    ∀ f ∈ moduleFunctions input expression,
      (f.emission input).view.errors = [] := by
  rcases compileModule_ok returns with ⟨-, -, errorsIs, -, -⟩
  have entryQuiet : (emitEntry input expression).view.errors = [] :=
    errorsIs.symm.trans quiet
  intro f member
  rcases List.mem_append.mp member with nested | own
  · have kept := (functions_kept input expression _ _ f nested).1
    exact List.prefix_nil.mp (entryQuiet ▸ kept)
  · rw [List.mem_singleton.mp own]
    exact entryQuiet

end

end Millie.Compiler
