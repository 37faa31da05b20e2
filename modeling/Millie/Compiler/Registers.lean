import Millie.Compiler.Buffers

/-!
# Registers

`_GetFreeIntRegister` counts in eight bits.  A function asks for as many
registers as its expression demands and one more for every symbol it reads from
its closure; they are different exactly when there are at most 256.
-/

namespace Millie.Compiler

open Millie.Symbols Millie.Syntax Millie.Machine

/-! ## Demand -/

/-- The registers that an expression takes in its function, reads aside. -/
def registerDemand : Expression → Nat
  | .integerConstant _ _ | .true_ _ | .false_ _ => 1
  | .let_ _ _ value body => registerDemand value + registerDemand body
  | .letrec _ _ value body =>
      match value with
      | .lambda _ _ _ => 2 + registerDemand body
      | _ => 1
  | .lambda _ _ _ => 2
  | .apply _ first second | .binary _ _ first second =>
      registerDemand first + registerDemand second + 1
  | .unary _ _ arg => registerDemand arg + 1
  | .if_ _ test thenArm elseArm =>
      registerDemand test + registerDemand thenArm + registerDemand elseArm
  | .tuple _ first _ length => 2 + length * registerDemand first
  | .identifier _ _ | .error _ | .invalid _ | .tupleFinal _ _ => 0

theorem registerDemand_letrec_other {value : Expression}
    (notLambda : ¬value.IsLambda) (range : TokenRange) (id : Symbol)
    (body : Expression) :
    registerDemand (.letrec range id value body) = 1 := by
  cases value with
  | lambda range id body => exact absurd trivial notLambda
  | _ => rfl

/-- Between two states a demand was met and some symbols were read. -/
def Spends (view after : View) (demand : Nat) (reads : List Symbol) : Prop :=
  after.registers = view.registers + demand + reads.length

namespace Spends

variable {view middle after : View} {demand demand' : Nat}
  {reads reads' : List Symbol}

theorem refl (view : View) : Spends view view 0 [] :=
  rfl

theorem take (view : View) : Spends view view.take 1 [] :=
  rfl

theorem trans (left : Spends view middle demand reads)
    (right : Spends middle after demand' reads') :
    Spends view after (demand + demand') (reads ++ reads') := by
  rw [Spends, right, left, List.length_append]
  omega

/-- Only the registers of the states matter. -/
theorem congr {earlier later : View} (spends : Spends view after demand reads)
    (before : earlier.registers = view.registers)
    (same : later.registers = after.registers) :
    Spends earlier later demand reads := by
  rw [Spends, before, same]
  exact spends

end Spends

section

variable {input : CompileInput}

theorem emitIdentifier_spends (id : Symbol) (view : View) (scope : Scope) :
    Spends view (emitIdentifier id view).view 0
      ([Event.search view scope id].filterMap Event.read) := by
  cases found : View.search view.bindings id view.top with
  | some reg =>
      rw [emitIdentifier_bound found]
      simp only [List.filterMap_cons, Event.read, found, List.filterMap_nil]
      rfl
  | none =>
      rw [emitIdentifier_closed found]
      simp only [List.filterMap_cons, Event.read, found, List.filterMap_nil]
      rfl

theorem emitClosedValues_spends (closureRegister : UInt8) (scope : Scope)
    (symbols : List Symbol) (i : Nat) (view : View) :
    Spends view (emitClosedValues closureRegister i symbols view).2 0
      ((closedSearches scope symbols view).filterMap Event.read) := by
  induction symbols generalizing i view with
  | nil => exact .refl view
  | cons symbol symbols ih =>
      have first := emitIdentifier_spends symbol view scope
      have rest := ih (i + 1) (emitIdentifier symbol view).view
      have searches : closedSearches scope (symbol :: symbols) view =
          [.search view scope symbol] ++ closedSearches scope symbols
            (emitIdentifier symbol view).view := rfl
      rw [searches, List.filterMap_append]
      exact first.trans rest

/-- An expression takes what it demands and a register for each read. -/
def EmitsSpends (input : CompileInput) (expression : Expression) : Prop :=
  ∀ view scope, Spends view (emit input expression view).view
    (registerDemand expression)
    (readSymbols input (acts input expression view scope))

theorem emitLambdaImpl_spends (input : CompileInput)
    (lambdaId selfId : Symbol) (body : Expression) (closureRegister : UInt8)
    (view : View) (scope : Scope) :
    Spends view
      (emitLambdaImpl input lambdaId (emit input body) selfId closureRegister
        view).view 1
      (readSymbols input
        [lambdaAct input lambdaId selfId body closureRegister view scope]) := by
  have closed := emitClosedValues_spends closureRegister scope
    (emitBody input lambdaId selfId (emit input body) view).view.closure 0
    (closureView input lambdaId selfId (emit input body) view)
  have literal : Spends view
      (closureView input lambdaId selfId (emit input body) view) 1 [] := rfl
  rw [readSymbols, searchesOf, List.flatMap_singleton]
  exact literal.trans closed

theorem emitTupleMembers_spends {first : Expression}
    (firstSpends : EmitsSpends input first) (scope : Scope) (outReg : UInt8)
    (count i : Nat) (view : View) :
    Spends view (emitTupleMembers (emit input first) outReg i count view).2
      (count * registerDemand first)
      (readSymbols input (tupleActs (emit input first)
        (acts input first · scope) count view)) := by
  induction count generalizing i view with
  | zero =>
      rw [Nat.zero_mul]
      exact .refl view
  | succ count ih =>
      rw [tupleActs, readSymbols_append, Nat.succ_mul,
        Nat.add_comm (count * _)]
      exact (firstSpends view scope).trans (ih (i + 1) _)

theorem emit_spends (input : CompileInput) (expression : Expression) :
    EmitsSpends input expression := by
  induction expression using Expression.functionInduction with
  | integerConstant | true_ | false_ => exact fun view _ => .take view
  | error => exact fun view _ => .refl view
  | invalid | tupleFinal => exact fun view _ => (Spends.refl view).congr rfl rfl
  | identifier range id =>
      exact fun view scope => emitIdentifier_spends id view scope
  | let_ range id value body valueIh bodyIh =>
      intro view scope
      let emitted := emit input value view
      rw [acts, readSymbols_append]
      exact (valueIh view scope).trans
        (bodyIh (emitted.view.push id emitted.reg) _)
  | letrecFunction range id lambdaRange lambdaId lambdaBody body valueIh
      bodyIh =>
      intro view scope
      have function := emitLambdaImpl_spends input lambdaId id lambdaBody
        view.nextReg (view.take.push id view.nextReg)
        (scope.bind id view.nextReg)
      rw [acts, ← List.singleton_append, readSymbols_append]
      exact ((Spends.take view).trans function).trans (bodyIh _ _)
  | letrecOther range id value body notLambda valueIh bodyIh =>
      intro view scope
      rw [acts_letrec_other notLambda, emit_letrec_other notLambda,
        registerDemand_letrec_other notLambda]
      exact (Spends.take view).congr rfl rfl
  | lambda range id body bodyIh =>
      intro view scope
      exact (Spends.take view).trans (emitLambdaImpl_spends input id
        invalidSymbol body view.nextReg view.take scope)
  | apply range function argument functionIh argumentIh =>
      intro view scope
      rw [acts, readSymbols_append, ← List.append_nil (_ ++ _)]
      exact ((functionIh view scope).trans (argumentIh _ scope)).trans
        (.take _)
  | binary range operator left right leftIh rightIh =>
      intro view scope
      have registers := (emitBinary_left input range operator (emit input left)
        (emit input right) view).1
      rw [acts, readSymbols_append, ← List.append_nil (_ ++ _)]
      exact (((leftIh view scope).trans (rightIh _ scope)).trans
        (.take _)).congr rfl registers
  | unary range operator arg argIh =>
      intro view scope
      have registers :=
        (emitUnary_left input range operator (emit input arg) view).1
      rw [acts, ← List.append_nil (readSymbols _ _)]
      exact ((argIh view scope).trans (.take _)).congr rfl registers
  | if_ range test thenArm elseArm testIh thenIh elseIh =>
      intro view scope
      rw [acts, readSymbols_append, readSymbols_append, ← List.append_assoc]
      exact ((testIh view scope).trans (thenIh _ scope)).trans
        (elseIh _ scope)
  | tuple range first rest length firstIh restIh =>
      intro view scope
      have members := emitTupleMembers_spends firstIh scope view.take.nextReg
        length 0 view.take.take
      exact ((Spends.take view).trans (.take _)).trans members

end

/-! ## Freshness -/

/-- Numbers from zero on stay different in eight bits up to 256 of them. -/
theorem nodup_registers_iff (count : Nat) :
    ((List.range count).map UInt8.ofNat).Nodup ↔ count ≤ 256 := by
  rw [List.nodup_map_iff_inj_on List.nodup_range]
  constructor
  · intro injective
    by_contra more
    have first : 0 ∈ List.range count := List.mem_range.mpr (by omega)
    have wrapped : 256 ∈ List.range count := List.mem_range.mpr (by omega)
    exact absurd (injective 0 first 256 wrapped rfl) (by decide)
  · intro few x inX y inY same
    have below := List.mem_range.mp inX
    have below' := List.mem_range.mp inY
    have values := congrArg UInt8.toNat same
    rw [UInt8.toNat_ofNat', UInt8.toNat_ofNat'] at values
    change x % 256 = y % 256 at values
    omega

namespace Function

/--
The calls of `_GetFreeIntRegister` in a function: two for the function itself
and its parameter, if it is not the entry function, what its body demands and
one for each read of its closure.
-/
def demand (input : CompileInput) (f : Function) : Nat :=
  f.view.registers + registerDemand f.body + (f.reads input).length

theorem registerCount_eq (input : CompileInput) (f : Function) :
    (f.entry input).registerCount = f.demand input :=
  emit_spends input f.body f.view f.scope

theorem registers_nodup_iff (input : CompileInput) (f : Function) :
    (f.registers input).Nodup ↔ f.demand input ≤ 256 := by
  rw [registers_eq, registerCount_eq, nodup_registers_iff]

end Function

/--
The functions that a compilation finishes are the module's, each with a register
count that is the number of its calls of `_GetFreeIntRegister`; all calls of a
function return different registers if and only if there are at most 256 calls
in it.  Whether an error is reported makes no difference.
-/
theorem registers_fresh_iff {input : CompileInput} {expression : Expression}
    {funcId : Nat} {after : CompileState}
    (returns : compileModule input expression = .ok (funcId, after)) :
    (after.finished = (moduleFunctions input expression).map fun f =>
        (f.id, f.entry input)) ∧
      ∀ f ∈ moduleFunctions input expression,
        (f.entry input).registerCount = (f.registers input).length ∧
          ((f.registers input).Nodup ↔ f.demand input ≤ 256) := by
  refine ⟨compileModule_functions returns, fun f _ => ⟨?_, ?_⟩⟩
  · rw [Function.registers_eq, List.length_map, List.length_range]
  · exact f.registers_nodup_iff input

/-! ## Sums -/

/-- `1 + 1 + …`, with the given number of operators. -/
def sum : Nat → Expression
  | 0 => .integerConstant ⟨0, 0⟩ 1
  | count + 1 =>
      .binary ⟨0, 0⟩ .tokPlus (sum count) (.integerConstant ⟨0, 0⟩ 1)

section

variable (input : CompileInput)

theorem sum_demand (count : Nat) : registerDemand (sum count) = 2 * count + 1 := by
  induction count with
  | zero => rfl
  | succ count ih =>
      rw [sum, registerDemand, ih, registerDemand]
      omega

theorem sum_acts (count : Nat) (view : View) (scope : Scope) :
    acts input (sum count) view scope = [] := by
  induction count generalizing view with
  | zero => rfl
  | succ count ih =>
      rw [sum, acts, ih, acts]
      rfl

theorem sum_functions (count : Nat) (view : View) (scope : Scope) :
    functions input (sum count) view scope = [] := by
  induction count generalizing view with
  | zero => rfl
  | succ count ih =>
      rw [sum, functions, ih, functions]
      rfl

theorem sum_inside (count : Nat) (view : View) :
    AllInside (operations input (sum count) view) := by
  induction count generalizing view with
  | zero => simp [sum, operations, literalOperations]
  | succ count ih => simp [sum, operations, literalOperations, ih]

theorem sum_length (count : Nat) (view : View) :
    (emit input (sum count) view).code.bytes.length = 7 * count + 3 := by
  induction count generalizing view with
  | zero => rfl
  | succ count ih =>
      rw [sum, emit, emitBinary]
      dsimp only [binaryInstruction]
      rw [Code.length_seq, ih, Code.length_seq]
      rfl

theorem sum_errors (count : Nat) (view : View) :
    (emit input (sum count) view).view.errors = view.errors := by
  induction count generalizing view with
  | zero => rfl
  | succ count ih => exact ih view

/-- A sum whose code fits the buffer compiles without an error. -/
theorem sum_compiles {count : Nat} (short : 7 * count + 5 ≤ codeLimit) :
    ∃ funcId after,
    compileModule input (sum count) = .ok (funcId, after) ∧
      after.errors = [] := by
  have inside : ∀ f ∈ moduleFunctions input (sum count), f.Inside input := by
    intro f member
    rw [moduleFunctions, sum_functions, List.nil_append] at member
    rw [List.mem_singleton.mp member]
    have length := sum_length input count (entryView input)
    have top : (entryFunction input (sum count)).view.top ≤ 8 := Nat.zero_le 8
    refine (function_inside top).mpr
      ⟨sum_inside input count _, Code.fits_of_short ?_⟩
    change (emit input (sum count) (entryView input)).code.bytes.length + 2 ≤ _
    rw [length]
    exact short
  rcases (compileModule_returns_iff input (sum count)).mpr inside with
    ⟨⟨funcId, after⟩, returns⟩
  rcases compileModule_ok returns with ⟨-, -, errors, -⟩
  refine ⟨funcId, after, returns, errors.trans ?_⟩
  exact sum_errors input count (entryView input)

theorem sum_registers (count : Nat) :
    (entryFunction input (sum count)).demand input = 2 * count + 1 := by
  have reads : (entryFunction input (sum count)).reads input = [] :=
    congrArg (readSymbols input) (sum_acts input count _ _)
  rw [Function.demand, reads]
  change 0 + registerDemand (sum count) + 0 = _
  rw [sum_demand]
  omega

end

/-- In a sum of 127 operators all registers are different. -/
theorem registers_fresh_sum : ∃ funcId after,
    compileModule zeroedInput (sum 127) = .ok (funcId, after) ∧
      ((entryFunction zeroedInput (sum 127)).registers zeroedInput).Nodup := by
  rcases sum_compiles zeroedInput (show 7 * 127 + 5 ≤ codeLimit by decide) with
    ⟨funcId, after, returns, -⟩
  have entry := (registers_fresh_iff returns).2
    (entryFunction zeroedInput (sum 127))
    (List.mem_append_right _ (List.mem_singleton.mpr rfl))
  refine ⟨funcId, after, returns, entry.2.mpr ?_⟩
  rw [sum_registers]
  decide

/--
In a sum of 128 operators, which compiles without an error, the last call returns
the register that the first call returned.
-/
theorem registers_reused_sum : ∃ funcId after,
    compileModule zeroedInput (sum 128) = .ok (funcId, after) ∧
      after.errors = [] ∧
      ¬((entryFunction zeroedInput (sum 128)).registers zeroedInput).Nodup := by
  rcases sum_compiles zeroedInput (show 7 * 128 + 5 ≤ codeLimit by decide) with
    ⟨funcId, after, returns, quiet⟩
  refine ⟨funcId, after, returns, quiet, ?_⟩
  rw [Function.registers_nodup_iff, sum_registers]
  decide

end Millie.Compiler
