import Millie.Pipeline.Correctness
import Millie.Pipeline.Printing
import Millie.Pipeline.Ranges
import Millie.Types.Principal

/-!
# The driver

Translation of `main` in `millie.c` from the contents of the input file on: the
stages one after the other, each on the output of the one before it, up to the
first that reports errors.  What the driver prints for an expression without
defects is the text of the value that the expression evaluates to.
-/

namespace Millie.Pipeline

open Relation FirstOccurrences
open Millie.Symbols Millie.Syntax Millie.Types Millie.Machine Millie.Compiler

/-! ## `main` -/

/-- Fuel for the loops of the stages. -/
structure DriverFuel where
  symbols : Nat
  types : Nat
  evaluation : Nat
  printing : Nat

/-- What is given to `PrintErrors`, or the line on the standard output. -/
inductive Output where
  | errors (reports : List ErrorReport)
  | line (text : String)
deriving DecidableEq

/-- Why the program stops when its parser does. -/
def ParseStop.stop : ParseStop → Stop
  | .outOfFuel => .outOfFuel
  | .tokenOutside | .textOutside => .undefinedBehaviour
  | .symbolTable stop => stop

/-- The last part of `main`, when nothing has been reported. -/
def printResult (fuel : DriverFuel) (printType : Bool) (input : CompileInput)
    (expression : Expression) (type : TypePointer) (graph : TypeGraph) :
    Except Stop Output :=
  if printType then do
    let (typeExp, _) ← formatTypeExpression fuel.printing type graph
    return .line typeExp
  else do
    let (funcId, compiled) ← compileModule input expression
    if compiled.errors ≠ [] then return .errors compiled.errors
    let (result, memory) ← evaluateCode compiled.module fuel.evaluation funcId
      (.int 0) (.int 0) []
    let resultStr ← formatValue graph compiled.module memory fuel.printing
      result type
    return .line resultStr

/-- `main`, on the contents of its input file. -/
def main (hash32 : ByteString → UInt32) (uninit : Nat → Nat → CompileBinding)
    (fuel : DriverFuel) (printType : Bool) (buffer : ByteString) :
    Except Stop Output := do
  let (tokens, errors) ← lexBuffer buffer
  if errors ≠ [] then return .errors errors
  match parseExpression hash32 fuel.symbols tokens symbolTableCreate [] with
  | .error stop => .error (ParseStop.stop stop)
  | .ok (expression, context) =>
      if context.errors ≠ [] then return .errors context.errors
      match getExpressionType (getToken tokens) fuel.types expression with
      | (.error stop, _) => .error stop
      | (.ok type, checked) =>
          if checked.errors ≠ [] then return .errors checked.errors
          printResult fuel printType ⟨getToken tokens, uninit⟩ expression type
            checked.graph

/-! ## The text of a value -/

/-- The text of a value; compiled code has no tuples. -/
def valueText : Value → Option String
  | .int value => some (formatSigned value)
  | .bool value => some (formatBool (!value))
  | .closure _ _ _ _ => some "A FUNCTION"
  | .tuple _ _ | .tupleFinal _ => none

section

variable {input : CompileInput} {functions : List Function}
  {graph : TypeGraph} {module : Module} {memory : Memory} {word : Word}
  {type : TypePointer} {value : Value} {t : Ty Leaf}

/-- A word prints as the value that it stands for, at the value's type. -/
theorem Represents.prints
    (represents : Represents input functions memory word value)
    (denotes : Denotes graph type t) (typed : ValueTyped value t) :
    ∃ text, valueText value = some text ∧
      Prints graph module memory word type text := by
  induction denotes with
  | @bound p q scratch t node instance_ ih =>
      rcases ih typed with ⟨text, isText, prints⟩
      have path : ReflTransGen graph.Bound p q :=
        .single ⟨by rw [node], by rw [node]⟩
      exact ⟨text, isText, (prints_bound_iff path).mpr prints⟩
  | unbound node | generic node | error node => cases typed
  | int node =>
      cases typed
      cases represents
      refine ⟨_, rfl, 1, ?_⟩
      simp only [formatValue, node]
      rfl
  | bool node =>
      cases typed
      cases represents
      rename_i truth
      refine ⟨_, rfl, 1, ?_⟩
      simp only [formatValue, node]
      cases truth <;> rfl
  | func node first second =>
      cases typed
      refine ⟨_, rfl, 1, ?_⟩
      simp only [formatValue, node]
      rfl
  | tuple | tupleFinal =>
      cases typed
      cases represents

/-- A value prints as one text. -/
theorem Prints.unique {first second : String}
    (left : Prints graph module memory word type first)
    (right : Prints graph module memory word type second) :
    first = second := by
  rcases left with ⟨fuel, left⟩
  rcases right with ⟨more, right⟩
  have leftMore := formatValue_mono (Nat.le_max_left fuel more) _ _ _ left
  have rightMore := formatValue_mono (Nat.le_max_right fuel more) _ _ _ right
  exact Except.ok.inj (leftMore.symm.trans rightMore)

end

/-! ## What the driver prints -/

section

variable {hash32 : ByteString → UInt32} {uninit : Nat → Nat → CompileBinding}
  {buffer : ByteString} {tokens : MillieTokens} {expression : Expression}
  {context : ParseContext} {text : String}

/-- The stages up to the type checker. -/
theorem main_checked (fuel : DriverFuel) {printType : Bool}
    (lexed : lexBuffer buffer = .ok (tokens, []))
    (parsed : parseExpression hash32 fuel.symbols tokens symbolTableCreate [] =
      .ok (expression, context)) (parsedQuiet : context.errors = []) :
    main hash32 uninit fuel printType buffer = .ok (.line text) ↔
      ∃ type checked,
        getExpressionType (getToken tokens) fuel.types expression =
            (.ok type, checked) ∧ checked.errors = [] ∧
          printResult fuel printType ⟨getToken tokens, uninit⟩ expression type
            checked.graph = .ok (.line text) := by
  have noErrors : ¬(([] : List ErrorReport) ≠ []) := fun differs => differs rfl
  rw [main, lexed, Stop.ok_bind]
  simp only [parsed, if_neg noErrors, parsedQuiet]
  rcases run : getExpressionType (getToken tokens) fuel.types expression with
    ⟨result, checked⟩
  cases result with
  | error stop => simp
  | ok type =>
      by_cases quiet : checked.errors = []
      · simp [quiet]
      · have reports : (pure (.errors checked.errors) : Except Stop Output) ≠
            .ok (.line text) := fun same => by cases same
        simp [quiet, reports]

/-- The stages after the type checker. -/
theorem printResult_line (fuel : DriverFuel) {type : TypePointer}
    {graph : TypeGraph} {input : CompileInput} {funcId : Nat}
    {after : CompileState}
    (returns : compileModule input expression = .ok (funcId, after))
    (quiet : after.errors = []) :
    printResult fuel false input expression type graph = .ok (.line text) ↔
      ∃ result memory,
        evaluateCode after.module fuel.evaluation funcId (.int 0) (.int 0) [] =
            .ok (result, memory) ∧
          formatValue graph after.module memory fuel.printing result type =
            .ok text := by
  have noErrors : ¬(after.errors ≠ []) := fun differs => differs quiet
  simp only [printResult, returns, Stop.ok_bind, if_neg noErrors,
    if_neg Bool.false_ne_true]
  constructor
  · intro printed
    rcases Stop.bind_eq_ok_iff.mp printed with ⟨⟨result, memory⟩, ran, shown⟩
    rcases Stop.bind_eq_ok_iff.mp shown with ⟨line, formats, same⟩
    cases same
    exact ⟨result, memory, ran, formats⟩
  · rintro ⟨result, memory, ran, formats⟩
    simp only [ran, formats, Stop.ok_bind]
    rfl

/--
For an expression without defects the driver prints exactly the text of the
value that the expression evaluates to.
-/
theorem main_prints_iff {symbols funcId : Nat} {after : CompileState}
    {equal : Value → Value → Bool} (standard : Standard equal)
    (lexed : lexBuffer buffer = .ok (tokens, []))
    (parsed : parseExpression hash32 symbols tokens symbolTableCreate [] =
      .ok (expression, context)) (parsedQuiet : context.errors = [])
    (accepts : Accepts (getToken tokens) expression)
    (returns : compileModule ⟨getToken tokens, uninit⟩ expression =
      .ok (funcId, after)) (quiet : after.errors = [])
    (spotless : Spotless ⟨getToken tokens, uninit⟩ expression)
    (settled : ∀ configuration,
      Reaches equal (start expression) configuration →
      ¬configuration.NegatesOther ∧ ¬configuration.ComparesOthers) :
    (∃ types evaluation printing,
        main hash32 uninit ⟨symbols, types, evaluation, printing⟩ false buffer =
          .ok (.line text)) ↔
      ∃ value, Reaches equal (start expression) (.returning value []) ∧
        valueText value = some text := by
  have none_ := skippedComponents_plain spotless.plain
  constructor
  · rintro ⟨types, evaluation, printing, printed⟩
    let fuel : DriverFuel := ⟨symbols, types, evaluation, printing⟩
    rcases (main_checked fuel lexed parsed parsedQuiet).mp printed with
      ⟨type, checked, typed, checkedQuiet, last⟩
    rcases (printResult_line fuel returns quiet).mp last with
      ⟨word, memory, ran, formats⟩
    rcases spotless.run standard accepts returns quiet settled (.int 0) (.int 0)
      [] evaluation with stops | ⟨value, word', larger, ends, run, represents⟩
    · rw [stops] at ran
      cases ran
    · rw [ends] at ran
      cases ran
      rcases reached_typed typed checkedQuiet returns quiet (none_ ▸ nofun) run
        with ⟨t, denotes, fits⟩
      rcases represents.prints denotes fits.result with ⟨line, isText, prints⟩
      have same : line = text := prints.unique ⟨printing, formats⟩
      exact ⟨value, run, same ▸ isText⟩
  · rintro ⟨value, run, isText⟩
    rcases accepts with ⟨types, type, checked, typed, checkedQuiet⟩
    rcases spotless.ends standard ⟨types, type, checked, typed, checkedQuiet⟩
      returns quiet (fun configuration reached =>
        (settled configuration reached).2) (.int 0) (.int 0) [] run with
      ⟨evaluation, word, memory, ran, represents⟩
    rcases reached_typed typed checkedQuiet returns quiet (none_ ▸ nofun) run
      with ⟨t, denotes, fits⟩
    rcases represents.prints denotes fits.result with
      ⟨line, isLine, printing, formats⟩
    have same : line = text := Option.some.inj (isLine.symm.trans isText)
    let fuel : DriverFuel := ⟨symbols, types, evaluation, printing⟩
    have last := (printResult_line fuel returns quiet).mpr
      ⟨word, memory, ran, same ▸ formats⟩
    exact ⟨types, evaluation, printing,
      (main_checked fuel lexed parsed parsedQuiet).mpr
        ⟨type, checked, typed, checkedQuiet, last⟩⟩

/--
Asked for the type, the driver prints exactly the text of the principal type, if
there are names enough.
-/
theorem main_prints_type_iff {symbols types evaluation : Nat}
    {type : TypePointer} {checked : CheckState}
    (lexed : lexBuffer buffer = .ok (tokens, []))
    (parsed : parseExpression hash32 symbols tokens symbolTableCreate [] =
      .ok (expression, context)) (parsedQuiet : context.errors = [])
    (functions : RecursiveFunctions expression)
    (typed : getExpressionType (getToken tokens) types expression =
      (.ok type, checked)) :
    (∃ printing,
        main hash32 uninit ⟨symbols, types, evaluation, printing⟩ true buffer =
          .ok (.line text)) ↔
      ∃ s, PrincipalType expression s ∧
        (firsts [] s.leaves).length ≤ typeNames.length ∧
        text = s.named.print := by
  constructor
  · rintro ⟨printing, printed⟩
    let fuel : DriverFuel := ⟨symbols, types, evaluation, printing⟩
    rcases (main_checked fuel lexed parsed parsedQuiet).mp printed with
      ⟨type', checked', typed', checkedQuiet, last⟩
    rw [typed] at typed'
    cases typed'
    rcases getExpressionType_instances functions typed checkedQuiet with
      ⟨s, -, principal⟩
    rw [printResult, if_pos rfl] at last
    rcases Stop.bind_eq_ok_iff.mp last with ⟨⟨line, graph⟩, formats, same⟩
    cases same
    exact ⟨s, principal, (PrincipalType.formats_iff principal functions typed
      checkedQuiet).mp ⟨printing, graph, formats⟩⟩
  · rintro ⟨s, principal, texts⟩
    have checkedQuiet := (getExpressionType_quiet_iff functions typed).mpr
      ⟨s, principal.typing⟩
    rcases (principal.formats_iff functions typed checkedQuiet).mpr texts with
      ⟨printing, graph, formats⟩
    let fuel : DriverFuel := ⟨symbols, types, evaluation, printing⟩
    have last : printResult fuel true ⟨getToken tokens, uninit⟩ expression type
        checked.graph = .ok (.line text) := by
      rw [printResult, if_pos rfl, formats]
      rfl
    exact ⟨printing, (main_checked fuel lexed parsed parsedQuiet).mpr
      ⟨type, checked, typed, checkedQuiet, last⟩⟩

end

/-- The tokens of `(fn x => x + 1) 41`. -/
def incrementTokens : MillieTokens :=
  ⟨[⟨.tokLParen, 0, 1⟩, ⟨.tokFn, 1, 2⟩, ⟨.tokId, 4, 1⟩, ⟨.tokArrow, 6, 2⟩,
    ⟨.tokId, 9, 1⟩, ⟨.tokPlus, 11, 1⟩, ⟨.tokIntLiteral, 13, 1⟩,
    ⟨.tokRParen, 14, 1⟩, ⟨.tokIntLiteral, 16, 2⟩, ⟨.tokEof, 18, 0⟩], [],
    "(fn x => x + 1) 41".toList.map byte⟩

/-- The expression of `(fn x => x + 1) 41`. -/
def increment : Expression :=
  .apply ⟨1, 8⟩
    (.lambda ⟨1, 6⟩ 1
      (.binary ⟨4, 6⟩ .tokPlus (.identifier ⟨4, 4⟩ 1)
        (.integerConstant ⟨6, 6⟩ 1)))
    (.integerConstant ⟨8, 8⟩ 41)

/-- The input of the compiler for `(fn x => x + 1) 41`. -/
def incrementInput : CompileInput :=
  ⟨getToken incrementTokens, fun _ _ => ⟨0, 0⟩⟩

theorem spotless_increment : Spotless incrementInput increment := by
  constructor <;> decide +kernel

/-- The driver prints 42 for `(fn x => x + 1) 41`. -/
theorem main_prints_increment : ∃ types evaluation printing,
    main (fun _ => 0) (fun _ _ => ⟨0, 0⟩) ⟨4, types, evaluation, printing⟩ false
      incrementTokens.buffer = .ok (.line "42") := by
  have lexed : lexBuffer incrementTokens.buffer = .ok (incrementTokens, []) :=
    rfl
  have parsed : parseExpression (fun _ => 0) 4 incrementTokens symbolTableCreate
      [] = .ok (increment, _) := rfl
  have checked : (getExpressionType incrementInput.tokens 60 increment).1.isOk ∧
      (getExpressionType incrementInput.tokens 60
        increment).2.errors.isEmpty := by decide +kernel
  have accepts : Accepts incrementInput.tokens increment := by
    rcases run : getExpressionType incrementInput.tokens 60 increment with
      ⟨result, after⟩
    rw [run] at checked
    cases result with
    | error stop => exact absurd checked.1 Bool.false_ne_true
    | ok type => exact ⟨60, type, after, run, List.isEmpty_iff.mp checked.2⟩
  have compiled : compiledErrors incrementInput increment = some [] := by
    decide +kernel
  rcases compiledErrors_ok compiled with ⟨funcId, after, returns, quiet⟩
  have standard : Standard groundEqual := ⟨fun _ _ => rfl, fun _ _ => rfl⟩
  have ends : runFor groundEqual 20 (start increment) =
      .returning (.int 42) [] := rfl
  have stops : step groundEqual (runFor groundEqual 20 (start increment)) =
      none := by
    rw [ends]
    rfl
  have settled : ∀ configuration,
      Reaches groundEqual (start increment) configuration →
      ¬configuration.NegatesOther ∧ ¬configuration.ComparesOthers :=
    reached_along (by decide +kernel) stops
  have run : Reaches groundEqual (start increment) (.returning (.int 42) []) :=
    ends ▸ reaches_runFor groundEqual 20 (start increment)
  exact (main_prints_iff standard lexed parsed rfl accepts returns quiet
    spotless_increment settled).mpr ⟨.int 42, run, rfl⟩

/-- The tokens of `fn x => x`. -/
def identityTokens : MillieTokens :=
  ⟨[⟨.tokFn, 0, 2⟩, ⟨.tokId, 3, 1⟩, ⟨.tokArrow, 5, 2⟩, ⟨.tokId, 8, 1⟩,
    ⟨.tokEof, 9, 0⟩], [], "fn x => x".toList.map byte⟩

/-- The driver prints the principal type of `fn x => x`. -/
theorem main_prints_type_identity :
    main (fun _ => 0) (fun _ _ => ⟨0, 0⟩) ⟨4, 20, 0, 20⟩ true
        identityTokens.buffer = .ok (.line "( 'A -> 'A )") ∧
      ∃ s, PrincipalType (.lambda ⟨0, 3⟩ 1 (.identifier ⟨3, 3⟩ 1)) s ∧
        (firsts [] s.leaves).length ≤ typeNames.length ∧
        "( 'A -> 'A )" = s.named.print := by
  have printed : main (fun _ => 0) (fun _ _ => ⟨0, 0⟩) ⟨4, 20, 0, 20⟩ true
      identityTokens.buffer = .ok (.line "( 'A -> 'A )") := by decide +kernel
  have lexed : lexBuffer identityTokens.buffer = .ok (identityTokens, []) := rfl
  have parsed : parseExpression (fun _ => 0) 4 identityTokens symbolTableCreate
      [] = .ok (.lambda ⟨0, 3⟩ 1 (.identifier ⟨3, 3⟩ 1), _) := rfl
  have checked : (getExpressionType (getToken identityTokens) 20
      (.lambda ⟨0, 3⟩ 1 (.identifier ⟨3, 3⟩ 1))).1.isOk := by decide +kernel
  rcases typed : getExpressionType (getToken identityTokens) 20
      (.lambda ⟨0, 3⟩ 1 (.identifier ⟨3, 3⟩ 1)) with ⟨result, after⟩
  rw [typed] at checked
  cases result with
  | error stop => exact absurd checked Bool.false_ne_true
  | ok type =>
      exact ⟨printed, (main_prints_type_iff lexed parsed rfl trivial typed).mp
        ⟨20, printed⟩⟩

end Millie.Pipeline
