import Millie.Compiler.Compile
import Millie.Foundation.Emission
import Millie.Syntax.Parsing

/-!
# Where the compiler reports

Every report of the compiler is at the token range of a node of the expression
that it compiles, in a run that returns and in one that stops.
-/

namespace Millie.Compiler

open Weakest
open Millie.Symbols Millie.Syntax Millie.Machine

/-- The steps that add one report at most, which are not looked into. -/
inductive Atomic : ∀ ⦃α : Type⦄, CompileM α → Prop where
  | onContext {α : Type}
      (step : CompileContext → Except Stop (α × CompileContext)) :
      Atomic (onContext step)
  | searchBindings (id : Symbol) : Atomic (searchBindings id)
  | addFunction : Atomic fun state =>
      .ok (((addFunction state.module).1, (addFunction state.module).2.1),
        { state with module := (addFunction state.module).2.2 })
  | loadEntry (result : EntryPointer) : Atomic fun state => do
      let entry ← state.module.load result
      return (entry, state)
  | finishCompile (resultRegister : UInt8) (funcId : Nat)
      (result : EntryPointer) :
      Atomic (finishCompile resultRegister funcId result)
  | reportCompileError (input : CompileInput) (range : TokenRange)
      (error : String) : Atomic (reportCompileError input range error)

/-- Reports at a token range are fine. -/
def Reportable (input : CompileInput) (fine : ErrorReport → Prop)
    (range : TokenRange) : Prop :=
  ∀ message, fine ⟨message, (input.tokens range.startToken).start,
    (input.tokens range.endToken).start + (input.tokens range.endToken).length⟩

section

variable {input : CompileInput} {fine : ErrorReport → Prop}
  {range : TokenRange}

/-- A step of the compiler reports fine errors only. -/
abbrev Reports {α : Type} (fine : ErrorReport → Prop) (step : CompileM α) :
    Prop :=
  EmitsExcept CompileState.errors fine Atomic step

/-! ## Steps that report nothing -/

/-- A step that leaves the errors alone. -/
theorem reports_same {α : Type} {step : CompileM α} (isAtomic : Atomic step)
    (same : ∀ state value after, step state = .ok (value, after) →
      after.errors = state.errors) : Reports fine step := by
  refine .step isAtomic fun state => ?_
  rw [wpExcept]
  cases run : step state with
  | error stop => exact trivial
  | ok result =>
      show Appends fine state.errors result.2.errors
      rw [same state result.1 result.2 run]
      exact .refl _

theorem reports_onContext {α : Type}
    (step : CompileContext → Except Stop (α × CompileContext)) :
    Reports fine (onContext step) := by
  refine reports_same (.onContext step) fun state value after returns => ?_
  rw [onContext] at returns
  split at returns
  · cases returns
  · cases returns
    rfl

theorem reports_writeCode (more : Nat) (bytes : List UInt8) :
    Reports fine (writeCode more bytes) :=
  reports_onContext _

theorem reports_writeCodeU8 (value : UInt8) :
    Reports fine (writeCodeU8 value) :=
  reports_writeCode _ _

theorem reports_writeCodeU16 (value : UInt16) :
    Reports fine (writeCodeU16 value) :=
  reports_writeCode _ _

theorem reports_writeOpcode (opcode : Opcode) :
    Reports fine (writeOpcode opcode) :=
  reports_writeCodeU8 _

theorem reports_getFreeIntRegister : Reports fine getFreeIntRegister :=
  reports_onContext _

theorem reports_pushBinding (symbol : Symbol) (reg : UInt8) :
    Reports fine (pushBinding symbol reg) :=
  reports_onContext _

theorem reports_popBinding : Reports fine popBinding :=
  reports_onContext _

theorem reports_writeLoadLiteral (value : UInt64) :
    Reports fine (writeLoadLiteral value) := by
  rw [writeLoadLiteral]
  refine .bind (reports_onContext _) fun reg => ?_
  split_ifs
  all_goals
    refine .bind (reports_writeOpcode _) fun _ => ?_
    refine .bind (reports_writeCode _ _) fun _ => ?_
    exact .bind (reports_writeCodeU8 _) fun _ => .pure _

theorem reports_searchBindings (id : Symbol) :
    Reports fine (searchBindings id) := by
  refine reports_same (.searchBindings id) fun state value after returns => ?_
  rw [searchBindings] at returns
  cases found : findBinding state.context.bindings id
    state.context.bindingTop with
  | error stop =>
      rw [found] at returns
      cases returns
  | ok bound =>
      rw [found] at returns
      cases returns
      rfl

theorem reports_compileIdentifierImpl (id : Symbol) :
    Reports fine (compileIdentifierImpl id) := by
  rw [compileIdentifierImpl]
  refine .bind (reports_searchBindings id) fun bound => ?_
  split
  · exact .pure _
  · refine .bind (reports_onContext _) fun offset => ?_
    refine .bind reports_getFreeIntRegister fun loadTarget => ?_
    refine .bind (reports_writeOpcode _) fun _ => ?_
    refine .bind (reports_writeCodeU8 _) fun _ => ?_
    refine .bind (reports_writeCodeU16 _) fun _ => ?_
    exact .bind (reports_writeCodeU8 _) fun _ => .pure _

theorem reports_storeClosedValues (closureRegister : UInt8)
    (symbols : List Symbol) (i : Nat) :
    Reports fine (storeClosedValues closureRegister i symbols) := by
  induction symbols generalizing i with
  | nil => exact .pure _
  | cons symbol symbols ih =>
      rw [storeClosedValues]
      refine .bind (reports_compileIdentifierImpl symbol) fun idReg => ?_
      refine .bind (reports_writeOpcode _) fun _ => ?_
      refine .bind (reports_writeCodeU8 _) fun _ => ?_
      refine .bind (reports_writeCodeU16 _) fun _ => ?_
      exact .bind (reports_writeCodeU8 _) fun _ => ih (i + 1)

theorem reports_addFunction : Reports fine (α := EntryPointer × Nat)
    fun state => .ok
      (((addFunction state.module).1, (addFunction state.module).2.1),
        { state with module := (addFunction state.module).2.2 }) := by
  refine reports_same .addFunction fun state value after returns => ?_
  cases returns
  rfl

theorem reports_loadEntry (result : EntryPointer) :
    Reports fine fun state => do
      let entry ← state.module.load result
      return (entry, state) := by
  refine reports_same (.loadEntry result) fun state value after returns => ?_
  cases loaded : state.module.load result with
  | error stop =>
      rw [loaded] at returns
      cases returns
  | ok entry =>
      rw [loaded] at returns
      cases returns
      rfl

theorem reports_finishCompile (resultRegister : UInt8) (funcId : Nat)
    (result : EntryPointer) :
    Reports fine (finishCompile resultRegister funcId result) := by
  refine reports_same (.finishCompile resultRegister funcId result)
    fun state value after returns => ?_
  rw [finishCompile] at returns
  cases written : writeOpcode .ret state with
  | error stop =>
      rw [bind_stopped written] at returns
      cases returns
  | ok result =>
      rw [bind_returned written] at returns
      cases returns
      rw [writeOpcode, writeCodeU8, writeCode, onContext] at written
      split at written
      · cases written
      · cases written
        rfl

/-! ## Steps that report what a part of them reports -/

theorem reports_reportCompileError (reportable : Reportable input fine range)
    (error : String) : Reports fine (reportCompileError input range error) :=
  .step (.reportCompileError input range error) fun state =>
    .single (reportable error) state.errors

theorem reports_writeOperator (reportable : Reportable input fine range)
    (error : String) (opcode : Option Opcode) :
    Reports fine (writeOperator input range error opcode) := by
  cases opcode with
  | some opcode => exact reports_writeOpcode opcode
  | none => exact reports_reportCompileError reportable error

theorem reports_compileFrame (lambdaId selfId : Symbol)
    {lambdaBody : CompileM UInt8} (bodyReports : Reports fine lambdaBody) :
    Reports fine (compileFrame lambdaId lambdaBody selfId) := by
  have inner (argRegister : UInt8) (rest : UInt8 → CompileM UInt8)
      (restReports : ∀ reg, Reports fine (rest reg)) :
      Reports fine (do
        pushBinding lambdaId argRegister
        let retRegister ← lambdaBody
        popBinding
        rest retRegister) :=
    .bind (reports_pushBinding _ _) fun _ => .bind bodyReports fun reg =>
      .bind reports_popBinding fun _ => restReports reg
  rw [compileFrame]
  refine .bind reports_getFreeIntRegister fun selfRegister => ?_
  by_cases named : selfId ≠ invalidSymbol
  · simp only [if_pos named]
    refine .bind (reports_pushBinding _ _) fun _ => ?_
    exact .bind reports_getFreeIntRegister fun _ => inner _ _ fun reg =>
      .bind reports_popBinding fun _ => .pure _
  · simp only [if_neg named]
    exact .bind reports_getFreeIntRegister fun _ => inner _ _ fun _ => .pure _

theorem reports_compileFunction (lambdaId selfId : Symbol)
    {lambdaBody : CompileM UInt8} (bodyReports : Reports fine lambdaBody) :
    Reports fine (compileFunction input lambdaId lambdaBody selfId) := by
  rw [compileFunction]
  refine .bind reports_addFunction fun entry => ?_
  refine .bind (reports_onContext _) fun parent => ?_
  refine .bind (reports_compileFrame _ _ bodyReports) fun retRegister => ?_
  refine .bind (reports_finishCompile _ _ _) fun _ => ?_
  exact .bind (reports_onContext _) fun _ => .pure _

theorem reports_compileLambdaImpl (lambdaId selfId : Symbol)
    (closureRegister : UInt8) {lambdaBody : CompileM UInt8}
    (bodyReports : Reports fine lambdaBody) :
    Reports fine (compileLambdaImpl input lambdaId lambdaBody selfId
      closureRegister) := by
  rw [compileLambdaImpl]
  refine .bind (reports_compileFunction _ _ bodyReports) fun compiled => ?_
  refine .bind (reports_writeLoadLiteral _) fun idReg => ?_
  refine .bind (reports_writeOpcode _) fun _ => ?_
  refine .bind (reports_writeCodeU8 _) fun _ => ?_
  refine .bind (reports_writeCodeU8 _) fun _ => ?_
  refine .bind (reports_loadEntry _) fun entry => ?_
  exact .bind (reports_storeClosedValues _ _ _) fun _ => .pure _

theorem reports_compileLetRec {valueRange : TokenRange} (id : Symbol)
    (reportable : Reportable input fine valueRange)
    {letValue : Option (Symbol × CompileM UInt8)} {letBody : CompileM UInt8}
    (valueReports : ∀ lambda ∈ letValue, Reports fine lambda.2)
    (bodyReports : Reports fine letBody) :
    Reports fine (compileLetRec input id valueRange letValue letBody) := by
  rw [compileLetRec]
  refine .bind reports_getFreeIntRegister fun destReg => ?_
  split
  · exact .bind (reports_reportCompileError reportable _) fun _ => .pure _
  · rename_i lambdaId lambdaBody
    refine .bind (reports_pushBinding _ _) fun _ => ?_
    refine .bind (reports_compileLambdaImpl _ _ _ (valueReports _ rfl))
      fun _ => ?_
    refine .bind bodyReports fun bodyReg => ?_
    exact .bind reports_popBinding fun _ => .pure _

theorem reports_compileBinary (reportable : Reportable input fine range)
    (operator : TokenType) {left right : CompileM UInt8}
    (leftReports : Reports fine left) (rightReports : Reports fine right) :
    Reports fine (compileBinary input range operator left right) := by
  rw [compileBinary]
  refine .bind leftReports fun leftRegister => ?_
  refine .bind rightReports fun rightRegister => ?_
  refine .bind reports_getFreeIntRegister fun outRegister => ?_
  refine .bind (reports_writeOperator reportable _ _) fun _ => ?_
  refine .bind (reports_writeCodeU8 _) fun _ => ?_
  refine .bind (reports_writeCodeU8 _) fun _ => ?_
  exact .bind (reports_writeCodeU8 _) fun _ => .pure _

theorem reports_compileUnary (reportable : Reportable input fine range)
    (operator : TokenType) {arg : CompileM UInt8}
    (argReports : Reports fine arg) :
    Reports fine (compileUnary input range operator arg) := by
  rw [compileUnary]
  refine .bind argReports fun argRegister => ?_
  refine .bind reports_getFreeIntRegister fun outRegister => ?_
  refine .bind (reports_writeOperator reportable _ _) fun _ => ?_
  refine .bind (reports_writeCodeU8 _) fun _ => ?_
  exact .bind (reports_writeCodeU8 _) fun _ => .pure _

theorem reports_patchOffset (target location : Nat) :
    Reports fine (patchOffset target location) :=
  .bind (reports_onContext _) fun _ => .bind (reports_writeCodeU16 _)
    fun _ => reports_onContext _

theorem reports_writeMoveResult (falseReg trueReg : UInt8) :
    Reports fine (writeMoveResult falseReg trueReg) := by
  rw [writeMoveResult]
  split
  · refine .bind (reports_writeOpcode _) fun _ => ?_
    exact .bind (reports_writeCodeU8 _) fun _ => reports_writeCodeU8 _
  · exact .pure _

theorem reports_compileIf {test thenArm elseArm : CompileM UInt8}
    (testReports : Reports fine test) (thenReports : Reports fine thenArm)
    (elseReports : Reports fine elseArm) :
    Reports fine (compileIf test thenArm elseArm) := by
  rw [compileIf]
  refine .bind testReports fun resultReg => ?_
  refine .bind (reports_writeOpcode _) fun _ => ?_
  refine .bind (reports_writeCodeU8 _) fun _ => ?_
  refine .bind (reports_onContext _) fun falseTargetLoc => ?_
  refine .bind (reports_onContext _) fun _ => ?_
  refine .bind thenReports fun trueReg => ?_
  refine .bind (reports_writeOpcode _) fun _ => ?_
  refine .bind (reports_onContext _) fun endTargetLoc => ?_
  refine .bind (reports_onContext _) fun _ => ?_
  refine .bind (reports_onContext _) fun falseLoc => ?_
  refine .bind (reports_patchOffset _ _) fun _ => ?_
  refine .bind elseReports fun falseReg => ?_
  refine .bind (reports_writeMoveResult _ _) fun _ => ?_
  refine .bind (reports_onContext _) fun endLoc => ?_
  exact .bind (reports_patchOffset _ _) fun _ => .pure _

theorem reports_compileTupleMembers {tupleFirst : CompileM UInt8}
    (firstReports : Reports fine tupleFirst) (outReg : UInt8) (count i : Nat) :
    Reports fine (compileTupleMembers tupleFirst outReg i count) := by
  induction count generalizing i with
  | zero => exact .pure _
  | succ count ih =>
      rw [compileTupleMembers]
      refine .bind firstReports fun memberReg => ?_
      refine .bind (reports_writeOpcode _) fun _ => ?_
      refine .bind (reports_writeCodeU8 _) fun _ => ?_
      refine .bind (reports_writeCodeU16 _) fun _ => ?_
      exact .bind (reports_writeCodeU8 _) fun _ => ih (i + 1)

theorem reports_compileTuple (tupleLength : Nat) {tupleFirst : CompileM UInt8}
    (firstReports : Reports fine tupleFirst) :
    Reports fine (compileTuple tupleLength tupleFirst) := by
  rw [compileTuple]
  refine .bind (reports_writeLoadLiteral _) fun lenReg => ?_
  refine .bind reports_getFreeIntRegister fun outReg => ?_
  refine .bind (reports_writeOpcode _) fun _ => ?_
  refine .bind (reports_writeCodeU8 _) fun _ => ?_
  refine .bind (reports_writeCodeU8 _) fun _ => ?_
  exact .bind (reports_compileTupleMembers firstReports _ _ _) fun _ => .pure _

/-- The compiler reports at the ranges of the nodes of its expression. -/
theorem reports_compileExpression (expression : Expression)
    (reportable : Everywhere (fun node => Reportable input fine node.range)
      expression) :
    Reports fine (compileExpression input expression) := by
  induction expression using Expression.functionInduction with
  | integerConstant range literalValue => exact reports_writeLoadLiteral _
  | true_ range | false_ range => exact reports_writeLoadLiteral _
  | error range => exact .pure _
  | invalid range | tupleFinal range first =>
      rcases reportable with ⟨_, here, below⟩
      exact .bind (reports_reportCompileError here _) fun _ => .pure _
  | identifier range id => exact reports_compileIdentifierImpl id
  | lambda range id body bodyIh =>
      rcases reportable with ⟨_, here, below⟩
      exact .bind reports_getFreeIntRegister fun _ =>
        reports_compileLambdaImpl _ _ _
          (bodyIh (below _ (by simp [Expression.children])))
  | apply range function argument functionIh argumentIh =>
      rcases reportable with ⟨_, here, below⟩
      refine .bind (functionIh (below _ (by simp [Expression.children])))
        fun lambdaRegister => ?_
      refine .bind (argumentIh (below _ (by simp [Expression.children])))
        fun argRegister => ?_
      refine .bind reports_getFreeIntRegister fun retRegister => ?_
      refine .bind (reports_writeOpcode _) fun _ => ?_
      refine .bind (reports_writeCodeU8 _) fun _ => ?_
      refine .bind (reports_writeCodeU8 _) fun _ => ?_
      exact .bind (reports_writeCodeU8 _) fun _ => .pure _
  | let_ range id value body valueIh bodyIh =>
      rcases reportable with ⟨_, here, below⟩
      refine .bind (valueIh (below _ (by simp [Expression.children])))
        fun destReg => ?_
      refine .bind (reports_pushBinding _ _) fun _ => ?_
      refine .bind (bodyIh (below _ (by simp [Expression.children])))
        fun result => ?_
      exact .bind reports_popBinding fun _ => .pure _
  | letrecFunction range id lambdaRange lambdaId lambdaBody body lambdaIh bodyIh =>
      rcases reportable with ⟨_, here, below⟩
      rcases below (.lambda lambdaRange lambdaId lambdaBody)
        (by simp [Expression.children]) with ⟨_, valueHere, valueBelow⟩
      refine reports_compileLetRec id valueHere ?_
        (bodyIh (below _ (by simp [Expression.children])))
      rintro _ ⟨⟩
      exact lambdaIh (valueBelow _ (by simp [Expression.children]))
  | letrecOther range id value body notFunction valueIh bodyIh =>
      rcases reportable with ⟨_, here, below⟩
      rcases below value (by simp [Expression.children]) with
        ⟨_, valueHere, valueBelow⟩
      have bodyReports := bodyIh (below _ (by simp [Expression.children]))
      cases value with
      | lambda => exact absurd trivial notFunction
      | _ => exact reports_compileLetRec id valueHere nofun bodyReports
  | if_ range test thenArm elseArm testIh thenIh elseIh =>
      rcases reportable with ⟨_, here, below⟩
      exact reports_compileIf
        (testIh (below _ (by simp [Expression.children])))
        (thenIh (below _ (by simp [Expression.children])))
        (elseIh (below _ (by simp [Expression.children])))
  | binary range operator left right leftIh rightIh =>
      rcases reportable with ⟨_, here, below⟩
      exact reports_compileBinary here operator
        (leftIh (below _ (by simp [Expression.children])))
        (rightIh (below _ (by simp [Expression.children])))
  | unary range operator arg argIh =>
      rcases reportable with ⟨_, here, below⟩
      exact reports_compileUnary here operator
        (argIh (below _ (by simp [Expression.children])))
  | tuple range first rest length firstIh restIh =>
      rcases reportable with ⟨_, here, below⟩
      exact reports_compileTuple length
        (firstIh (below _ (by simp [Expression.children])))

/-- The state in which `CompileExpression` starts. -/
def compileStart (input : CompileInput) : CompileState where
  context := initCompileContext (input.uninit 0)
  module := moduleInit
  errors := []
  finished := []
  searched := []

/-- What `CompileExpression` reports, up to where it ends. -/
theorem compileEntry_reports {expression : Expression}
    (reportable : Everywhere (fun node => Reportable input fine node.range)
      expression) :
    throughoutExcept Atomic (fun moment => ∀ report ∈ moment.errors, fine report)
      (compileEntry input expression)
      (fun _ after => ∀ report ∈ after.errors, fine report)
      (compileStart input) := by
  have reports : Reports fine (compileEntry input expression) := by
    rw [compileEntry]
    refine .bind reports_addFunction fun entry => ?_
    refine .bind (reports_onContext _) fun _ => ?_
    refine .bind (reports_compileExpression expression reportable)
      fun resultRegister => ?_
    exact .bind (reports_finishCompile _ _ _) fun _ => .pure _
  exact reports.always rfl

/-- What `CompileExpression` has reported when it returns. -/
theorem compileModule_reports {expression : Expression} {funcId : Nat}
    {state : CompileState}
    (reportable : Everywhere (fun node => Reportable input fine node.range)
      expression)
    (returns : compileModule input expression = .ok (funcId, state)) :
    ∀ report ∈ state.errors, fine report := by
  rcases compileEntry_reports reportable with ⟨_, _, _, holds⟩
  exact of_wpExcept holds returns

end

end Millie.Compiler
