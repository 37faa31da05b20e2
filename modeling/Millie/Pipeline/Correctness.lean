import Millie.Compiler.FunctionTable
import Millie.Pipeline.Preservation
import Millie.Pipeline.TypeSafety

/-!
# Correctness of the compiler

Running the module of an accepted expression computes what the expression
evaluates to: every run with some fuel gives a word for the value or runs out of
fuel, and enough fuel gives it where the evaluation ends.  Where the compiler is
known to go wrong is excluded: nothing gets in the way of finding a symbol, the
function table has not moved, registers and jump distances fit, the entry
function has room for its parameter, and no arm of an `if` loses a register.
-/

namespace Millie.Pipeline

open Relation
open Millie.Symbols Millie.Syntax Millie.Types Millie.Machine Millie.Compiler

/-! ## Functions -/

/-- A frame of a function does what an interpretation says. -/
def FrameSimulates (input : CompileInput) (module : Module)
    (functions : List Function) (bound : Nat) (code : CompiledExpression)
    (entry : List Word) (memory : Memory) : Except Stop Value → Prop
  | .ok value => ∃ retval larger,
      Evaluates module code ⟨entry, 0, memory⟩ (retval, larger) ∧
        memory <+: larger ∧ Represents input functions larger retval value
  | .error .outOfFuel => Exhausts module code ⟨entry, 0, memory⟩ bound
  | .error .undefinedBehaviour => True
  | .error .failed => False

section

variable {input : CompileInput} {module : Module} {functions : List Function}
  {bound : Nat} {entry : List Word} {memory : Memory}
  {result : Except Stop Value}

/-- A function runs its body and returns its value. -/
theorem Simulates.frame {body : Emission} {funcId : Nat}
    (simulates : Simulates input module functions bound body.code [] body.reg
      ⟨entry, memory⟩ result)
    (structured : body.code.Structured) (short : body.code.Short) :
    FrameSimulates input module functions (bound + 1)
      (finishedEntry funcId body) entry memory result := by
  cases result with
  | ok value =>
      rcases simulates with ⟨after, runs, leaves⟩
      rcases leaves.result with ⟨word, read, represents⟩
      exact ⟨word, after.memory, runs.evaluates structured short read,
        leaves.memory, represents⟩
  | error stop =>
      cases stop with
      | outOfFuel => exact Stalls.function simulates structured short
      | undefinedBehaviour => exact trivial
      | failed => exact simulates.elim

/-- A call runs the function that its closure points to. -/
theorem FrameSimulates.call {code : CompiledExpression}
    {function argument : Word}
    (simulates : FrameSimulates input module functions bound code entry memory
      result)
    (calls : calledFunction module memory function = .ok code)
    (enters : enterFrame code function argument = .ok entry) :
    CallSimulates input module functions bound memory function argument
      result := by
  cases result with
  | ok value =>
      rcases simulates with ⟨retval, larger, evaluates, grows, represents⟩
      exact ⟨code, entry, retval, larger, calls, enters, evaluates, grows,
        represents⟩
  | error stop =>
      cases stop with
      | outOfFuel => exact ⟨code, entry, calls, enters, simulates⟩
      | undefinedBehaviour => exact trivial
      | failed => exact simulates.elim

end

/-! ## Entering a function -/

section

variable {input : CompileInput} {module : Module} {functions : List Function}
  {memory : Memory} {function argument : Word}

/-- A frame of at least two registers receives the closure and the argument. -/
theorem enterFrame_ok (code : CompiledExpression)
    (room : 1 < code.registerCount) (function argument : Word) : ∃ entry,
    enterFrame code function argument = .ok entry ∧
      entry.length = code.registerCount ∧ readReg entry 0 = .ok function ∧
      readReg entry 1 = .ok argument := by
  let zeros := List.replicate code.registerCount (Word.int 0)
  have length : zeros.length = code.registerCount := List.length_replicate
  have first : (0 : UInt8).toNat < zeros.length := by
    rw [length]
    exact Nat.zero_lt_of_lt room
  rcases writeReg_ok function first with ⟨called, writes⟩
  have second : (1 : UInt8).toNat < called.length := by
    rw [writeReg_length writes, length]
    exact room
  rcases writeReg_ok argument second with ⟨entry, writesArg⟩
  refine ⟨entry, ?_, ?_, ?_, readReg_written writesArg⟩
  · rw [enterFrame, writes]
    exact writesArg
  · exact (writeReg_length writesArg).trans ((writeReg_length writes).trans
      length)
  · rw [readReg_writeReg writesArg, if_neg (by decide)]
    exact readReg_written writes

section

variable {env : Environment} {selfId : Option Symbol} {id : Symbol}
  {body : Expression} {view : View} {scope : Scope} {cells : Symbol → Word}
  {values : Symbol → Value} {entry : List Word} {value : Value}

theorem lookup_entered_self {symbol : Symbol} (param : symbol ≠ id)
    (self : selfId = some symbol) :
    (entered env selfId id body value).lookup symbol =
      some (.closure env selfId id body) := by
  subst self
  unfold entered
  rw [List.lookup_cons, beq_false_of_ne param]
  exact List.lookup_cons_self

theorem lookup_entered_outer {symbol : Symbol} (param : symbol ≠ id)
    (self : selfId ≠ some symbol) :
    (entered env selfId id body value).lookup symbol = env.lookup symbol := by
  unfold entered
  rw [List.lookup_cons, beq_false_of_ne param]
  cases selfId with
  | none => rfl
  | some name =>
      have other : symbol ≠ name := fun same => self (congrArg some same.symm)
      exact List.lookup_cons.trans (by rw [beq_false_of_ne other])

/-- A function's code finds its parameter, its own name and what it captured. -/
theorem framed_enter (named : selfId ≠ some invalidSymbol)
    (enclosed : Enclosed input functions id (selfSymbol selfId) body view scope)
    (points : Points input memory
      (lambdaFunction input id (selfSymbol selfId) body view scope) cells
      function)
    (bound : ∀ symbol ∈ (lambdaFunction input id (selfSymbol selfId) body view
      scope).closure input, env.lookup symbol = some (values symbol))
    (held : ∀ symbol ∈ (lambdaFunction input id (selfSymbol selfId) body view
      scope).closure input,
      Represents input functions memory (cells symbol) (values symbol))
    (stands : Represents input functions memory argument value)
    (functionRead : readReg entry 0 = .ok function)
    (argumentRead : readReg entry 1 = .ok argument) :
    Framed input module functions
      ((lambdaFunction input id (selfSymbol selfId) body view scope).closure
        input)
      (lambdaFunction input id (selfSymbol selfId) body view scope).scope
      (entered env selfId id body value) (compiledSymbols body)
      ⟨entry, memory⟩ := by
  have itself : Represents input functions memory function
      (.closure env selfId id body) :=
    .closure named enclosed points bound held
  intro symbol member
  have register := register_enter enclosed.tracks id (selfSymbol selfId) symbol
  unfold Reads
  change (lambdaFunction input id (selfSymbol selfId) body view
    scope).scope.register symbol = _ at register
  rw [register]
  by_cases param : symbol = id
  · subst param
    exact ⟨value, argument, List.lookup_cons_self, by rwa [if_pos rfl], stands⟩
  · rw [if_neg param]
    by_cases self : selfId = some symbol
    · have own : selfSymbol selfId ≠ invalidSymbol ∧
          symbol = selfSymbol selfId := by
        subst self
        exact ⟨fun same => named (congrArg some same), rfl⟩
      rw [if_pos own]
      exact ⟨_, function, lookup_entered_self param self, functionRead, itself⟩
    · have other : ¬(selfSymbol selfId ≠ invalidSymbol ∧
          symbol = selfSymbol selfId) := by
        rintro ⟨valid, rfl⟩
        cases selfId with
        | none => exact valid rfl
        | some name => exact self rfl
      have captured := enclosed.mem_closure_iff.mpr
        (mem_functionSymbols.mpr ⟨member, param, by
          by_contra both
          exact other ⟨fun same => both (.inl same),
            by_contra fun differs => both (.inr differs)⟩⟩)
      rw [if_neg other]
      exact ⟨_, _, (lookup_entered_outer param self).trans (bound _ captured),
        ⟨captured, function, functionRead, points.loads captured⟩,
        held _ captured⟩

/-- What a function's code finds when it is called with an argument. -/
structure Starts (input : CompileInput) (module : Module)
    (functions : List Function) (memory : Memory) (function argument : Word)
    (f : Function) (env : Environment) (entry : List Word) : Prop where
  calls : calledFunction module memory function = .ok (f.entry input)
  enters : enterFrame (f.entry input) function argument = .ok entry
  length : entry.length = (f.emission input).view.registers
  visited : Visited input functions f.body f.view f.scope
  fits : Fitting input (f.closure input) (f.emission input).view.registers
    f.body [] f.view f.scope
  framed : Framed input module functions (f.closure input) f.scope env
    (compiledSymbols f.body) ⟨entry, memory⟩

/-- The call of a function value starts the body of the function. -/
theorem Represents.starts (linked : Linked input module functions)
    (represents : Represents input functions memory function
      (.closure env selfId id body))
    (stands : Represents input functions memory argument value) :
    ∃ f ∈ functions, f.body = body ∧ ∃ entry,
      Starts input module functions memory function argument f
        (entered env selfId id body value) entry := by
  cases represents with
  | @closure _ _ _ _ view scope _ cells values named enclosed points bound
      held =>
    let f := lambdaFunction input id (selfSymbol selfId) body view scope
    have member : f ∈ functions := enclosed.member
    have started : f.view.registers = 2 := functionView_registers input _ _ _ _
    have room : 1 < (f.entry input).registerCount :=
      Nat.lt_of_lt_of_le (started ▸ Nat.one_lt_two)
        (emit_continues input body f.view).registers
    rcases enterFrame_ok (f.entry input) room function argument with
      ⟨entry, enters, length, functionRead, argumentRead⟩
    refine ⟨f, member, rfl, entry, points.calls linked member, enters, length,
      enclosed.visited, ?_,
      framed_enter named enclosed points bound held stands functionRead
        argumentRead⟩
    exact {
      room := Nat.le_refl _
      kept := List.prefix_rfl
      held := functionView_live (started ▸ Nat.one_lt_two)
      taken := nofun
      pointer := .inr (started ▸ Nat.two_pos)
      spared := linked.spared f member }

/-- Every call does what its interpretation says. -/
theorem called_interpret (linked : Linked input module functions)
    (depth : Nat) :
    Called input module functions depth (callWith (interpret depth)) := by
  induction depth with
  | zero =>
      intro memory functionValue argumentValue function argument represents
        stands
      cases functionValue with
      | closure env selfId id body =>
          rcases represents.starts linked stands with
            ⟨f, -, -, entry, receives⟩
          refine ⟨_, entry, receives.calls, receives.enters,
            fun fuel enough => ?_⟩
          rw [Nat.le_zero.mp enough]
          rfl
      | _ => exact trivial
  | succ depth ih =>
      intro memory functionValue argumentValue function argument represents
        stands
      cases functionValue with
      | closure env selfId id body =>
          rcases represents.starts linked stands with
            ⟨f, member, rfl, entry, receives⟩
          have small := linked.registers f member
          have runs := emit_simulates linked ih (linked.slots f member) small
            f.body receives.visited receives.fits receives.framed
            receives.length
          exact (runs.frame (emit_structured small receives.visited.quiet)
            (linked.short f member)).call receives.calls receives.enters
      | _ => exact trivial

end

end

/-! ## Whole expressions -/

/-- Nothing about the code of an expression goes wrong. -/
structure Spotless (input : CompileInput) (expression : Expression) :
    Prop where
  plain : Plain expression
  few : lambdasCompiled expression + 1 ≤ 10
  clear : ∀ event ∈ entryTrace input expression, event.Unobstructed
  entered : 1 < (emitEntry input expression).view.registers
  registers : ∀ f ∈ moduleFunctions input expression,
    (f.emission input).view.registers ≤ 256
  short : ∀ f ∈ moduleFunctions input expression, (f.emission input).code.Short
  spared : ∀ f ∈ moduleFunctions input expression,
    Spared input f.body [] f.view f.scope

section

variable {input : CompileInput} {expression : Expression} {funcId : Nat}
  {after : CompileState}

/-- The module of an expression holds its functions. -/
theorem Spotless.linked (spotless : Spotless input expression)
    (returns : compileModule input expression = .ok (funcId, after)) :
    Linked input after.module (moduleFunctions input expression) := by
  rcases compileModule_ok returns with ⟨-, moduleIs, -, finishedIs, -⟩
  have complete : (finalTable input expression).Complete :=
    finalTable_complete spotless.few
  have recorded := finalTable_recorded input expression
  have total := (emitEntry_compiles input expression).functionCount
  have listed : ∀ f ∈ moduleFunctions input expression,
      (f.id, f.entry input) ∈ (finalTable input expression).finished := by
    intro f member
    change _ ∈ (emitModule input expression).finished
    rw [← finishedIs, compileModule_functions returns]
    exact List.mem_map_of_mem member
  have below := fun f member => recorded _ (listed f member)
  constructor
  · intro f member
    rcases complete f.id (below f member) with ⟨entry, once, stored⟩
    have allocated : f.id < after.module.functionCount :=
      moduleIs ▸ below f member
    have recordedEntry : after.module.entry f.id = some entry :=
      moduleIs ▸ stored
    rw [(once _).mp (listed f member), functionAt, if_pos allocated,
      recordedEntry]
  · intro f member
    have few := spotless.few
    have inside : f.id <
        (emitEntry input expression).view.table.module.functionCount :=
      below f member
    rw [total] at inside
    change f.id < 1 + _ at inside
    omega
  · exact fun f member => (moduleFunctions_perform returns f member).1
  · exact spotless.registers
  · exact spotless.short
  · exact spotless.spared

/-- The entry function does what the interpretation says. -/
theorem Spotless.simulates (spotless : Spotless input expression)
    (accepts : Accepts input.tokens expression)
    (returns : compileModule input expression = .ok (funcId, after))
    (quiet : after.errors = []) (depth : Nat) (closure argument : Word)
    (memory : Memory) : ∃ code entry,
      functionAt after.module funcId = .ok code ∧
        enterFrame code closure argument = .ok entry ∧
        FrameSimulates input after.module (moduleFunctions input expression)
          depth code entry memory (interpret depth expression []) := by
  have linked := spotless.linked returns
  rcases compileModule_ok returns with ⟨funcIs, -, errors, -, -⟩
  have none_ : compiledSymbols expression = [] :=
    List.subset_nil.mp (accepts.closed ▸ compiledSymbols_subset expression)
  let f := entryFunction input expression
  have member : f ∈ moduleFunctions input expression :=
    List.mem_append_right _ (List.mem_singleton_self f)
  have entryQuiet : (emitEntry input expression).view.errors = [] :=
    errors.symm.trans quiet
  have visited : Visited input (moduleFunctions input expression) expression
      (entryView input) .entry := {
    plain := spotless.plain
    tracks := Tracks.entry input
    bound := none_ ▸ nofun
    clear := spotless.clear
    quiet := entryQuiet
    compiled := List.subset_append_left _ _ }
  have fits : Fitting input (f.closure input)
      (f.emission input).view.registers expression [] (entryView input)
      .entry := {
    room := Nat.le_refl _
    kept := List.prefix_rfl
    held := nofun
    taken := nofun
    pointer := .inl rfl
    spared := spotless.spared f member }
  rcases enterFrame_ok (f.entry input) spotless.entered closure argument with
    ⟨entry, enters, length, -, -⟩
  refine ⟨f.entry input, entry, funcIs ▸ linked.entry f member, enters, ?_⟩
  cases depth with
  | zero =>
      intro fuel enough
      rw [Nat.le_zero.mp enough]
      rfl
  | succ depth =>
      have small := spotless.registers f member
      have framed : Framed input after.module (moduleFunctions input expression)
          (f.closure input) .entry [] (compiledSymbols expression)
          ⟨entry, memory⟩ := by
        rw [none_]
        exact nofun
      have runs := emit_simulates linked (called_interpret linked depth)
        (linked.slots f member) small expression visited fits framed length
      exact runs.frame (emit_structured small entryQuiet)
        (spotless.short f member)

/-- Plain expressions have no components that the compiler skips. -/
theorem skippedComponents_plain (plain : Plain expression) :
    skippedComponents expression = [] := by
  induction expression with
  | lambda range id body bodyIh => exact bodyIh plain
  | unary range operator arg argIh => exact argIh plain
  | apply range first second firstIh secondIh
  | let_ range id first second firstIh secondIh
  | binary range operator first second firstIh secondIh =>
      exact List.append_eq_nil_iff.mpr ⟨firstIh plain.1, secondIh plain.2⟩
  | letrec range id value body valueIh bodyIh =>
      exact List.append_eq_nil_iff.mpr
        ⟨valueIh plain.2.2.1, bodyIh plain.2.2.2⟩
  | if_ range test thenArm elseArm testIh thenIh elseIh =>
      rw [skippedComponents, testIh plain.1, thenIh plain.2.1,
        elseIh plain.2.2]
      rfl
  | identifier | integerConstant | true_ | false_ => rfl
  | tuple | tupleFinal | error | invalid => exact plain.elim

/--
An evaluation that neither negates nor compares something other than it should
does not go wrong.
-/
theorem interpret_defined {equal : Value → Value → Bool}
    (standard : Standard equal) (plain : Plain expression)
    (accepts : Accepts input.tokens expression)
    (returns : compileModule input expression = .ok (funcId, after))
    (quiet : after.errors = [])
    (settled : ∀ configuration,
      Reaches equal (start expression) configuration →
      ¬configuration.NegatesOther ∧ ¬configuration.ComparesOthers)
    (depth : Nat) :
    interpret depth expression [] ≠ .error .undefinedBehaviour := by
  intro undefined
  have tells := interpret_tells standard depth expression [] []
  rw [undefined] at tells
  rcases tells with ⟨wrong, run, isWrong, supported⟩
  rcases accepts with ⟨fuel, type, checked, typed, checkedQuiet⟩
  have none_ := skippedComponents_plain plain
  rcases reached_typed typed checkedQuiet returns quiet (none_ ▸ nofun) run with
    ⟨t, -, fits⟩
  rcases isWrong with ⟨stops, notFinal⟩ | compares
  · rcases fits.goes_on equal with final | ⟨next, steps, -⟩ | negates |
      unsupported
    · exact notFinal final
    · rw [stops] at steps
      cases steps
    · exact (settled wrong run).1 negates
    · exact supported unsupported
  · exact (settled wrong run).2 compares

section

variable {equal : Value → Value → Bool} {value : Value}

/-- A run of the module, with some fuel. -/
theorem Spotless.run (spotless : Spotless input expression)
    (standard : Standard equal) (accepts : Accepts input.tokens expression)
    (returns : compileModule input expression = .ok (funcId, after))
    (quiet : after.errors = [])
    (settled : ∀ configuration,
      Reaches equal (start expression) configuration →
      ¬configuration.NegatesOther ∧ ¬configuration.ComparesOthers)
    (closure argument : Word) (memory : Memory) (fuel : Nat) :
    evaluateCode after.module fuel funcId closure argument memory =
        .error .outOfFuel ∨
      ∃ value word larger,
        evaluateCode after.module fuel funcId closure argument memory =
            .ok (word, larger) ∧
          Reaches equal (start expression) (.returning value []) ∧
          Represents input (moduleFunctions input expression) larger word
            value := by
  rcases spotless.simulates accepts returns quiet fuel closure argument memory
    with ⟨code, entry, found, enters, result⟩
  have started : evaluateCode after.module fuel funcId closure argument
      memory = runFrame after.module fuel code ⟨entry, 0, memory⟩ := by
    rw [evaluateCode, found, Stop.ok_bind, enters, Stop.ok_bind]
  have defined := interpret_defined standard spotless.plain accepts returns
    quiet settled fuel
  have tells := interpret_tells standard fuel expression [] []
  rw [started]
  cases outcome : interpret fuel expression [] with
  | ok value =>
      rw [outcome] at result tells
      rcases result with ⟨word, larger, evaluates, -, represents⟩
      rcases evaluates.cut fuel with ends | stops
      · exact .inr ⟨value, word, larger, ends, tells, represents⟩
      · exact .inl stops
  | error stop =>
      rw [outcome] at result defined
      cases stop with
      | outOfFuel => exact .inl (result fuel (Nat.le_refl fuel))
      | undefinedBehaviour => exact absurd rfl defined
      | failed => exact result.elim

/-- The module's run ends if the evaluation does. -/
theorem Spotless.ends (spotless : Spotless input expression)
    (standard : Standard equal) (accepts : Accepts input.tokens expression)
    (returns : compileModule input expression = .ok (funcId, after))
    (quiet : after.errors = [])
    (settled : ∀ configuration,
      Reaches equal (start expression) configuration →
      ¬configuration.ComparesOthers)
    (closure argument : Word) (memory : Memory)
    (run : Reaches equal (start expression) (.returning value [])) :
    ∃ fuel word larger,
      evaluateCode after.module fuel funcId closure argument memory =
          .ok (word, larger) ∧
        Represents input (moduleFunctions input expression) larger word
          value := by
  rcases interpret_complete standard run settled with ⟨depth, outcome⟩
  rcases spotless.simulates accepts returns quiet depth closure argument memory
    with ⟨code, entry, found, enters, result⟩
  rw [outcome] at result
  rcases result with ⟨word, larger, ⟨fuel, returned⟩, -, represents⟩
  refine ⟨fuel, word, larger, ?_, represents⟩
  rw [evaluateCode, found, Stop.ok_bind, enters, Stop.ok_bind]
  exact returned

/--
The module of an accepted expression without defects computes what the
expression evaluates to: a run gives a word for the value or runs out of fuel,
and enough fuel gives it if the evaluation ends.
-/
theorem compileModule_correct (standard : Standard equal)
    (spotless : Spotless input expression)
    (accepts : Accepts input.tokens expression)
    (returns : compileModule input expression = .ok (funcId, after))
    (quiet : after.errors = [])
    (settled : ∀ configuration,
      Reaches equal (start expression) configuration →
      ¬configuration.NegatesOther ∧ ¬configuration.ComparesOthers)
    (closure argument : Word) (memory : Memory) :
    (∀ fuel,
      evaluateCode after.module fuel funcId closure argument memory =
          .error .outOfFuel ∨
        ∃ value word larger,
          evaluateCode after.module fuel funcId closure argument memory =
              .ok (word, larger) ∧
            Reaches equal (start expression) (.returning value []) ∧
            Represents input (moduleFunctions input expression) larger word
              value) ∧
      ∀ value, Reaches equal (start expression) (.returning value []) →
        ∃ fuel word larger,
          evaluateCode after.module fuel funcId closure argument memory =
              .ok (word, larger) ∧
            Represents input (moduleFunctions input expression) larger word
              value := by
  constructor
  · exact spotless.run standard accepts returns quiet settled closure argument
      memory
  · exact fun value run => spotless.ends standard accepts returns quiet
      (fun configuration reached => (settled configuration reached).2) closure
      argument memory run

end

end

/-! ## An example -/

/-- A step after some number of steps. -/
theorem runFor_succ {equal : Value → Value → Bool} {n : Nat}
    {configuration next : Configuration}
    (steps : step equal (runFor equal n configuration) = some next) :
    runFor equal (n + 1) configuration = next := by
  induction n generalizing configuration with
  | zero =>
      change step equal configuration = some next at steps
      rw [runFor, steps]
      rfl
  | succ n ih =>
      rw [runFor] at steps ⊢
      cases first : step equal configuration with
      | none =>
          rw [first] at steps
          have impossible : none = some next := first.symm.trans steps
          cases impossible
      | some middle =>
          rw [first] at steps
          exact ih steps

/-- What holds along a run that ends holds of everything it reaches. -/
theorem reached_along {equal : Value → Value → Bool}
    {configuration : Configuration} {fact : Configuration → Prop} {n : Nat}
    (along : ∀ i < n + 1, fact (runFor equal i configuration))
    (ends : step equal (runFor equal n configuration) = none) :
    ∀ reached, Reaches equal configuration reached → fact reached := by
  intro reached run
  suffices at_ : ∃ i < n + 1, runFor equal i configuration = reached by
    rcases at_ with ⟨i, inside, rfl⟩
    exact along i inside
  induction run with
  | refl => exact ⟨0, Nat.succ_pos n, rfl⟩
  | tail _ steps ih =>
      rcases ih with ⟨i, inside, rfl⟩
      refine ⟨i + 1, Nat.succ_lt_succ (Nat.lt_of_le_of_ne
        (Nat.le_of_lt_succ inside) ?_), runFor_succ steps⟩
      rintro rfl
      rw [ends] at steps
      cases steps

/-- Equality of integers and of truth values; nothing else is equal. -/
def groundEqual : Value → Value → Bool
  | .int left, .int right => left == right
  | .bool left, .bool right => left == right
  | _, _ => false

/--
`let k = 2 in let rec mul = fn n => if n = 0 then 0 else k + mul (n - 1) in
mul 3`.
-/
def recursiveProduct : Expression :=
  .let_ ⟨0, 0⟩ 1 (.integerConstant ⟨0, 0⟩ 2)
    (.letrec ⟨0, 0⟩ 2
      (.lambda ⟨0, 0⟩ 3
        (.if_ ⟨0, 0⟩
          (.binary ⟨0, 0⟩ .tokEquals (.identifier ⟨0, 0⟩ 3)
            (.integerConstant ⟨0, 0⟩ 0))
          (.integerConstant ⟨0, 0⟩ 0)
          (.binary ⟨0, 0⟩ .tokPlus (.identifier ⟨0, 0⟩ 1)
            (.apply ⟨0, 0⟩ (.identifier ⟨0, 0⟩ 2)
              (.binary ⟨0, 0⟩ .tokMinus (.identifier ⟨0, 0⟩ 3)
                (.integerConstant ⟨0, 0⟩ 1))))))
      (.apply ⟨0, 0⟩ (.identifier ⟨0, 0⟩ 2) (.integerConstant ⟨0, 0⟩ 3)))

theorem spotless_recursiveProduct :
    Spotless zeroedInput recursiveProduct := by
  constructor <;> decide +kernel

/-- The compiled product is six. -/
theorem compileModule_correct_recursiveProduct : ∃ funcId after fuel memory,
    compileModule zeroedInput recursiveProduct = .ok (funcId, after) ∧
      evaluateCode after.module fuel funcId (.int 0) (.int 0) [] =
        .ok (.int 6, memory) := by
  have both : accepted 60 recursiveProduct = true := by decide +kernel
  rcases accepted_spec both with ⟨accepts, funcId, after, returns, quiet⟩
  have standard : Standard groundEqual := ⟨fun _ _ => rfl, fun _ _ => rfl⟩
  have ends : runFor groundEqual 80 (start recursiveProduct) =
      .returning (.int 6) [] := rfl
  have stops : step groundEqual (runFor groundEqual 80
      (start recursiveProduct)) = none := by
    rw [ends]
    rfl
  have settled : ∀ configuration,
      Reaches groundEqual (start recursiveProduct) configuration →
      ¬configuration.NegatesOther ∧ ¬configuration.ComparesOthers :=
    reached_along (by decide +kernel) stops
  have correct := compileModule_correct standard spotless_recursiveProduct
    accepts returns quiet settled (.int 0) (.int 0) []
  have run : Reaches groundEqual (start recursiveProduct)
      (.returning (.int 6) []) :=
    ends ▸ reaches_runFor groundEqual 80 (start recursiveProduct)
  rcases correct.2 (.int 6) run with ⟨fuel, word, memory, returned, stands⟩
  cases stands.of_int
  exact ⟨funcId, after, fuel, memory, returns, returned⟩

end Millie.Pipeline
