import Millie.Compiler.GeneratorSound

/-!
# The function table

Entries are handed out as pointers before their functions are compiled and
filled in afterwards.  `Compiles` records how allocation and completion nest
during a compilation.  Up to ten functions fit in the first block of the table
and every entry is complete when the compilation returns; the eleventh moves the
table while the entry function's pointer is still outstanding, and its entry is
lost.
-/

namespace Millie.Compiler

open Millie.Symbols Millie.Syntax Millie.Machine

/-- The functions compiled for an expression, besides the one it is part of. -/
def lambdasCompiled : Expression → Nat
  | .lambda _ _ body => lambdasCompiled body + 1
  | .let_ _ _ value body => lambdasCompiled value + lambdasCompiled body
  | .letrec _ _ value body =>
      match value with
      | .lambda _ _ lambdaBody =>
          lambdasCompiled lambdaBody + 1 + lambdasCompiled body
      | _ => 0
  | .apply _ function argument =>
      lambdasCompiled function + lambdasCompiled argument
  | .binary _ _ left right => lambdasCompiled left + lambdasCompiled right
  | .unary _ _ arg => lambdasCompiled arg
  | .if_ _ test thenArm elseArm =>
      lambdasCompiled test + lambdasCompiled thenArm + lambdasCompiled elseArm
  | .tuple _ first _ length => length * lambdasCompiled first
  | .integerConstant _ _ | .identifier _ _ | .true_ _ | .false_ _ | .error _
  | .invalid _ | .tupleFinal _ _ => 0

theorem lambdasCompiled_letrec_other {value : Expression}
    (notLambda : ¬value.IsLambda) (range : TokenRange) (id : Symbol)
    (body : Expression) :
    lambdasCompiled (.letrec range id value body) = 0 := by
  cases value with
  | lambda range id body => exact absurd trivial notLambda
  | _ => rfl

/-- The function table and the entries that have been finished. -/
structure FunctionTable where
  module : Module
  finished : List (Nat × CompiledExpression)

/-- The function table of a view. -/
def View.table (view : View) : FunctionTable :=
  ⟨view.module, view.finished⟩

namespace FunctionTable

/-- The table after `_AddFunction`. -/
def add (table : FunctionTable) : FunctionTable :=
  { table with module := (addFunction table.module).2.2 }

/-- The table after `_FinishCompile`. -/
def finish (table : FunctionTable) (pointer : EntryPointer) (funcId : Nat)
    (entry : CompiledExpression) : FunctionTable :=
  ⟨table.module.store pointer entry, table.finished ++ [(funcId, entry)]⟩

/-- The table finished a function with exactly one entry. -/
def Finished (table : FunctionTable) (funcId : Nat)
    (entry : CompiledExpression) : Prop :=
  ∀ other, (funcId, other) ∈ table.finished ↔ other = entry

/-- Every allocated entry holds what was computed for its function. -/
def Complete (table : FunctionTable) : Prop :=
  ∀ i < table.module.functionCount, ∃ entry,
    table.Finished i entry ∧ table.module.entry i = some entry

end FunctionTable

/-- The table operations of a compilation that allocates `count` functions. -/
inductive Compiles : FunctionTable → FunctionTable → Nat → Prop where
  | refl (table : FunctionTable) : Compiles table table 0
  | trans {table middle after : FunctionTable} {first second : Nat} :
      Compiles table middle first → Compiles middle after second →
      Compiles table after (first + second)
  | function {table body : FunctionTable} {count : Nat}
      (entry : CompiledExpression) :
      Compiles table.add body count →
      Compiles table
        (body.finish (addFunction table.module).1
          (addFunction table.module).2.1 entry)
        (count + 1)

/-! ## Emission allocates and completes -/

theorem emitIdentifier_table (id : Symbol) (view : View) :
    (emitIdentifier id view).view.table = view.table := by
  unfold emitIdentifier
  split <;> rfl

theorem emitClosedValues_table (closureRegister : UInt8)
    (symbols : List Symbol) (i : Nat) (view : View) :
    (emitClosedValues closureRegister i symbols view).2.table =
      view.table := by
  induction symbols generalizing i view with
  | nil => rfl
  | cons symbol symbols ih =>
      exact (ih (i + 1) _).trans (emitIdentifier_table symbol view)

theorem functionView_table (input : CompileInput) (lambdaId selfId : Symbol)
    (funcId : Nat) (view : View) :
    (functionView input lambdaId selfId funcId view).table = view.table := by
  unfold functionView
  by_cases named : selfId ≠ invalidSymbol
  · simp only [if_pos named]
    rfl
  · simp only [if_neg named]
    rfl

theorem emitLambdaImpl_compiles {input : CompileInput} {body : Expression}
    (bodyCompiles : ∀ view, Compiles view.table (emit input body view).view.table
      (lambdasCompiled body))
    (lambdaId selfId : Symbol) (closureRegister : UInt8) (view : View) :
    Compiles view.table
      (emitLambdaImpl input lambdaId (emit input body) selfId closureRegister
        view).view.table
      (lambdasCompiled body + 1) := by
  have inner := bodyCompiles (functionView input lambdaId selfId
    (addFunction view.module).2.1
    { view with module := (addFunction view.module).2.2 })
  rw [functionView_table] at inner
  have outer := Compiles.function
    (finishedEntry (addFunction view.module).2.1
      (emitBody input lambdaId selfId (emit input body) view))
    (show Compiles view.table.add _ _ from inner)
  have closed := emitClosedValues_table closureRegister
    (emitBody input lambdaId selfId (emit input body) view).view.closure 0
    (emitLiteral (UInt64.ofNat (addFunction view.module).2.1)
      (finishFunction (addFunction view.module).2.1
        (addFunction view.module).1
        (emitBody input lambdaId selfId (emit input body) view) view)).view
  exact closed.symm ▸ outer

theorem emitTupleMembers_compiles {first : View → Emission} {count : Nat}
    (firstCompiles : ∀ view, Compiles view.table (first view).view.table count)
    (outReg : UInt8) (rounds i : Nat) (view : View) :
    Compiles view.table (emitTupleMembers first outReg i rounds view).2.table
      (rounds * count) := by
  induction rounds generalizing i view with
  | zero =>
      rw [Nat.zero_mul]
      exact .refl view.table
  | succ rounds ih =>
      rw [show (rounds + 1) * count = count + rounds * count by
        rw [Nat.succ_mul, Nat.add_comm]]
      exact (firstCompiles view).trans (ih (i + 1) _)

theorem emit_compiles (input : CompileInput) (expression : Expression)
    (view : View) :
    Compiles view.table (emit input expression view).view.table
      (lambdasCompiled expression) := by
  induction expression using Expression.functionInduction generalizing view with
  | integerConstant range literalValue => exact .refl _
  | true_ range => exact .refl _
  | false_ range => exact .refl _
  | error range => exact .refl _
  | invalid range => exact .refl _
  | tupleFinal range first firstIh => exact .refl _
  | identifier range id =>
      exact (emitIdentifier_table id view).symm ▸ .refl view.table
  | let_ range id value body valueIh bodyIh =>
      let value := emit input value view
      exact (valueIh view).trans (bodyIh (value.view.push id value.reg))
  | letrecFunction range id lambdaRange lambdaId lambdaBody body valueIh
      bodyIh =>
      exact (emitLambdaImpl_compiles valueIh lambdaId id view.nextReg
        (view.take.push id view.nextReg)).trans (bodyIh _)
  | letrecOther range id value body notLambda valueIh bodyIh =>
      rw [emit_letrec_other notLambda, lambdasCompiled_letrec_other notLambda]
      exact .refl _
  | lambda range id body bodyIh =>
      exact emitLambdaImpl_compiles bodyIh id invalidSymbol _ view.take
  | apply range function argument functionIh argumentIh =>
      exact (functionIh view).trans (argumentIh _)
  | binary range operator left right leftIh rightIh =>
      have operands := (leftIh view).trans (rightIh _)
      simp only [emit, emitBinary]
      split <;> exact operands
  | unary range operator arg argIh =>
      simp only [emit, emitUnary]
      split <;> exact argIh view
  | if_ range test thenArm elseArm testIh thenIh elseIh =>
      exact ((testIh view).trans (thenIh _)).trans (elseIh _)
  | tuple range first rest length firstIh restIh =>
      let tuple := (emitLiteral (UInt64.ofNat length) view).view
      exact emitTupleMembers_compiles firstIh tuple.nextReg length 0 tuple.take

/-! ## What the table operations preserve -/

namespace FunctionTable

/--
How the table's block follows the number of functions: the first block holds
ten of them, and the eleventh is allocated in a later one.
-/
structure Sized (table : FunctionTable) : Prop where
  pos : 0 < table.module.functionCount
  le : table.module.functionCount ≤ table.module.functionCapacity
  block : table.module.functionCount ≤ 10 ∧ table.module.functions = 1 ∧
      table.module.functionCapacity = 10 ∨
    10 < table.module.functionCount ∧ 1 < table.module.functions ∧
      10 < table.module.functionCapacity

theorem add_functionCount (table : FunctionTable) :
    table.add.module.functionCount = table.module.functionCount + 1 := by
  simp only [add, addFunction, growFunctions]
  split <;> rfl

theorem add_pointer_index (table : FunctionTable) :
    (addFunction table.module).1.index = table.module.functionCount := by
  simp only [addFunction, growFunctions]
  split <;> rfl

theorem add_funcId (table : FunctionTable) :
    (addFunction table.module).2.1 = table.module.functionCount := by
  simp only [addFunction, growFunctions]
  split <;> rfl

/-- Before the eleventh function the table stays where it is. -/
theorem Sized.add_small {table : FunctionTable} (sized : table.Sized)
    (small : table.module.functionCount < 10) :
    (addFunction table.module).1 = ⟨1, table.module.functionCount⟩ ∧
      table.add.module.blocks = table.module.blocks := by
  have capacity : table.module.functionCapacity = 10 ∧
      table.module.functions = 1 := by
    rcases sized.block with ⟨-, block, capacity⟩ | ⟨large, -, -⟩
    · exact ⟨capacity, block⟩
    · omega
  have notFull :
      table.module.functionCount ≠ table.module.functionCapacity := by
    omega
  simp [add, addFunction, growFunctions, notFull, capacity.2]

theorem Sized.add {table : FunctionTable} (sized : table.Sized) :
    table.add.Sized := by
  have pos := sized.pos
  have le := sized.le
  have block := sized.block
  unfold FunctionTable.add addFunction growFunctions
  by_cases full :
      table.module.functionCount = table.module.functionCapacity
  · rw [if_pos full, if_neg (show ¬table.module.functionCapacity = 0 by omega)]
    constructor <;> dsimp only <;> omega
  · rw [if_neg full]
    constructor <;> dsimp only <;> omega

theorem Sized.finish {table : FunctionTable} (sized : table.Sized)
    (pointer : EntryPointer) (funcId : Nat) (entry : CompiledExpression) :
    (table.finish pointer funcId entry).Sized :=
  ⟨sized.pos, sized.le, sized.block⟩

end FunctionTable

open FunctionTable

theorem Compiles.functionCount {table after : FunctionTable} {count : Nat}
    (compiles : Compiles table after count) :
    after.module.functionCount = table.module.functionCount + count := by
  induction compiles with
  | refl table => rfl
  | trans first second firstIh secondIh => omega
  | @function table body count entry inner ih =>
      rw [add_functionCount] at ih
      exact ih.trans (by omega)

theorem Compiles.sized {table after : FunctionTable} {count : Nat}
    (compiles : Compiles table after count) (sized : table.Sized) :
    after.Sized := by
  induction compiles with
  | refl table => exact sized
  | trans first second firstIh secondIh => exact secondIh (firstIh sized)
  | function entry inner ih => exact (ih sized.add).finish _ _ _

/-- No block holds an entry for the entry function. -/
def EntryUnwritten (table : FunctionTable) : Prop :=
  ∀ block, table.module.blocks block 0 = none

theorem EntryUnwritten.add {table : FunctionTable}
    (unwritten : EntryUnwritten table) : EntryUnwritten table.add := by
  intro block
  simp only [FunctionTable.add, addFunction, growFunctions]
  split
  · by_cases moved : block = table.module.functions + 1
    · subst moved
      simpa using unwritten table.module.functions
    · simpa [moved] using unwritten block
  · exact unwritten block

/-- Only the entry function's own completion writes its entry. -/
theorem Compiles.entryUnwritten {table after : FunctionTable} {count : Nat}
    (compiles : Compiles table after count)
    (pos : 0 < table.module.functionCount)
    (unwritten : EntryUnwritten table) : EntryUnwritten after := by
  induction compiles with
  | refl table => exact unwritten
  | trans first second firstIh secondIh =>
      refine secondIh ?_ (firstIh pos unwritten)
      rw [first.functionCount]
      omega
  | @function table body count entry inner ih =>
      intro block
      have inside := ih (by rw [add_functionCount]; omega) unwritten.add
      have other : (addFunction table.module).1.index ≠ 0 := by
        rw [add_pointer_index]
        omega
      simp only [FunctionTable.finish, Module.store]
      by_cases same : block = (addFunction table.module).1.block
      · subst same
        rw [Function.update_self, Function.update_of_ne (Ne.symm other)]
        exact inside _
      · rw [Function.update_of_ne same]
        exact inside block

/-- Only allocated functions have been finished. -/
def Recorded (table : FunctionTable) : Prop :=
  ∀ pair ∈ table.finished, pair.1 < table.module.functionCount

theorem Compiles.recorded {table after : FunctionTable} {count : Nat}
    (compiles : Compiles table after count) (recorded : Recorded table) :
    Recorded after := by
  induction compiles with
  | refl table => exact recorded
  | trans first second firstIh secondIh => exact secondIh (firstIh recorded)
  | @function table body count entry inner ih =>
      have total := inner.functionCount
      rw [add_functionCount] at total
      have inside := ih fun pair member => by
        rw [add_functionCount]
        exact Nat.lt_succ_of_lt (recorded pair member)
      intro pair member
      rcases List.mem_append.mp member with old | own
      · exact inside pair old
      · rw [List.mem_singleton.mp own, add_funcId]
        change _ < body.module.functionCount
        omega

/-- What a compilation that stays in the first block leaves. -/
structure Filled (table after : FunctionTable) : Prop where
  kept : ∀ i < table.module.functionCount,
    after.module.blocks 1 i = table.module.blocks 1 i
  finished : ∀ i < table.module.functionCount, ∀ entry,
    (i, entry) ∈ after.finished ↔ (i, entry) ∈ table.finished
  filled : ∀ i, table.module.functionCount ≤ i →
    i < after.module.functionCount → ∃ entry,
      after.Finished i entry ∧ after.module.blocks 1 i = some entry

theorem Compiles.filled {table after : FunctionTable} {count : Nat}
    (compiles : Compiles table after count) (sized : table.Sized)
    (recorded : Recorded table)
    (small : after.module.functionCount ≤ 10) : Filled table after := by
  induction compiles with
  | refl table =>
      exact ⟨fun _ _ => rfl, fun _ _ _ => Iff.rfl, by omega⟩
  | @trans table middle after first second firstRun secondRun firstIh
      secondIh =>
      have grows := firstRun.functionCount
      have more := secondRun.functionCount
      have firstFilled := firstIh sized recorded (by omega)
      have secondFilled :=
        secondIh (firstRun.sized sized) (firstRun.recorded recorded) small
      refine ⟨fun i below => ?_, fun i below entry => ?_,
        fun i from_ below => ?_⟩
      · rw [secondFilled.kept i (by omega), firstFilled.kept i below]
      · rw [secondFilled.finished i (by omega), firstFilled.finished i below]
      · by_cases early : i < middle.module.functionCount
        · rcases firstFilled.filled i from_ early with ⟨entry, once, stored⟩
          exact ⟨entry,
            fun other => (secondFilled.finished i early other).trans
              (once other),
            (secondFilled.kept i early).trans stored⟩
        · exact secondFilled.filled i (by omega) below
  | @function table body count entry inner ih =>
      have added := add_functionCount table
      have total := inner.functionCount
      have small' : body.module.functionCount ≤ 10 := small
      rcases sized.add_small (by omega) with ⟨pointer, blocks⟩
      have recorded' : Recorded table.add := fun pair member =>
        added ▸ Nat.lt_succ_of_lt (recorded pair member)
      have inside := ih sized.add recorded' small'
      have stored : ∀ i, (body.finish (addFunction table.module).1
          (addFunction table.module).2.1 entry).module.blocks 1 i =
          if i = table.module.functionCount then some entry
          else body.module.blocks 1 i := by
        intro i
        simp [FunctionTable.finish, Module.store, pointer,
          Function.update_apply]
      have listed : ∀ i other, (i, other) ∈
          (body.finish (addFunction table.module).1
            (addFunction table.module).2.1 entry).finished ↔
          (i, other) ∈ body.finished ∨
            i = table.module.functionCount ∧ other = entry := by
        intro i other
        simp [FunctionTable.finish, add_funcId]
      refine ⟨fun i below => ?_, fun i below other => ?_,
        fun i from_ below => ?_⟩
      · rw [stored, if_neg (by omega), inside.kept i (by omega), blocks]
      · rw [listed, inside.finished i (by omega)]
        exact or_iff_left fun own => absurd own.1 (by omega)
      · by_cases own : i = table.module.functionCount
        · refine ⟨entry, fun other => ?_, by rw [stored, if_pos own]⟩
          rw [listed, inside.finished i (by omega)]
          constructor
          · rintro (old | ⟨-, same⟩)
            · exact absurd (recorded _ old) (by dsimp only; omega)
            · exact same
          · exact fun same => .inr ⟨own, same⟩
        · rcases inside.filled i (by omega) below with
            ⟨found, once, foundStored⟩
          refine ⟨found, fun other => ?_, by
            rw [stored, if_neg own, foundStored]⟩
          rw [listed, once other]
          exact or_iff_left fun owned => own owned.1

/-! ## The table of a compiled expression -/

/-- The table in which the entry function is compiled. -/
def entryTable : FunctionTable :=
  ⟨(addFunction moduleInit).2.2, []⟩

theorem entryTable_sized : entryTable.Sized := by
  constructor <;> decide

theorem entryTable_unwritten : EntryUnwritten entryTable := by
  intro block
  by_cases first : block = 1
  · simp [entryTable, addFunction, growFunctions, moduleInit]
  · simp [entryTable, addFunction, growFunctions, moduleInit]

/-- The table after the entry function's own completion. -/
def finalTable (input : CompileInput) (expression : Expression) :
    FunctionTable :=
  (emitEntry input expression).view.table.finish (addFunction moduleInit).1 0
    (finishedEntry 0 (emitEntry input expression))

theorem emitEntry_compiles (input : CompileInput) (expression : Expression) :
    Compiles entryTable (emitEntry input expression).view.table
      (lambdasCompiled expression) :=
  emit_compiles input expression (entryView input)

theorem finalTable_complete {input : CompileInput} {expression : Expression}
    (small : lambdasCompiled expression + 1 ≤ 10) :
    (finalTable input expression).Complete := by
  have compiles := emitEntry_compiles input expression
  have total := compiles.functionCount
  have start : entryTable.module.functionCount = 1 := rfl
  have sized := compiles.sized entryTable_sized
  have filled := compiles.filled entryTable_sized nofun (by omega)
  have block : (finalTable input expression).module.functions = 1 := by
    rcases sized.block with ⟨-, block, -⟩ | ⟨large, -, -⟩
    · exact block
    · omega
  have stored : ∀ i, (finalTable input expression).module.entry i =
      if i = 0 then some (finishedEntry 0 (emitEntry input expression))
      else (emitEntry input expression).view.module.blocks 1 i := by
    intro i
    rw [Module.entry, block]
    simp [finalTable, FunctionTable.finish, Module.store, addFunction,
      growFunctions, moduleInit, Function.update_apply, View.table]
  intro i below
  by_cases entry : i = 0
  · refine ⟨_, fun other => ?_, by rw [stored, if_pos entry]⟩
    simp only [finalTable, FunctionTable.finish, List.mem_append,
      List.mem_singleton, Prod.mk.injEq]
    rw [filled.finished i (by omega)]
    simp [entryTable, entry]
  · rcases filled.filled i (by omega) below with ⟨found, once, foundStored⟩
    refine ⟨found, fun other => ?_, by
      rw [stored, if_neg entry]
      exact foundStored⟩
    rw [← once other]
    simp [finalTable, FunctionTable.finish, entry]

theorem finalTable_lost {input : CompileInput} {expression : Expression}
    (large : 10 < lambdasCompiled expression + 1) :
    (finalTable input expression).module.entry 0 = none := by
  have compiles := emitEntry_compiles input expression
  have total := compiles.functionCount
  have start : entryTable.module.functionCount = 1 := rfl
  have sized := compiles.sized entryTable_sized
  have unwritten := compiles.entryUnwritten Nat.one_pos entryTable_unwritten
  have block : 1 < (finalTable input expression).module.functions := by
    rcases sized.block with ⟨small, -, -⟩ | ⟨-, block, -⟩
    · omega
    · exact block
  refine Eq.trans ?_ (unwritten (finalTable input expression).module.functions)
  simp only [Module.entry, finalTable, FunctionTable.finish, Module.store]
  rw [Function.update_of_ne]
  exact Nat.ne_of_gt block

theorem finalTable_incomplete {input : CompileInput} {expression : Expression}
    (large : 10 < lambdasCompiled expression + 1) :
    ¬(finalTable input expression).Complete := by
  intro complete
  have compiles := emitEntry_compiles input expression
  rcases complete 0 (compiles.sized entryTable_sized).pos with
    ⟨entry, -, stored⟩
  rw [finalTable_lost large] at stored
  cases stored

/-- Only allocated functions have been finished. -/
theorem finalTable_recorded (input : CompileInput) (expression : Expression) :
    Recorded (finalTable input expression) := by
  have compiles := emitEntry_compiles input expression
  intro pair member
  rcases List.mem_append.mp member with nested | own
  · exact compiles.recorded nofun pair nested
  · rw [List.mem_singleton.mp own]
    exact (compiles.sized entryTable_sized).pos

/--
Every entry of the function table is complete when the compilation returns if
and only if at most ten functions, the entry function included, were compiled.
-/
theorem functionTable_complete_iff {input : CompileInput}
    {expression : Expression} {funcId : Nat} {after : CompileState}
    (returns : compileModule input expression = .ok (funcId, after)) :
    FunctionTable.Complete ⟨after.module, after.finished⟩ ↔
      lambdasCompiled expression + 1 ≤ 10 := by
  rcases compileModule_ok returns with ⟨-, moduleIs, -, finishedIs, -⟩
  rw [moduleIs, finishedIs]
  change (finalTable input expression).Complete ↔ _
  constructor
  · intro complete
    by_contra large
    exact finalTable_incomplete (Nat.lt_of_not_le large) complete
  · exact finalTable_complete

/-- `fn x => x` applied `count` times over to 5. -/
def identityChain : Nat → Expression
  | 0 => .integerConstant ⟨0, 0⟩ 5
  | count + 1 =>
      .apply ⟨0, 0⟩ (.lambda ⟨0, 0⟩ 1 (.identifier ⟨0, 0⟩ 1))
        (identityChain count)

/-- Nine lambdas and the entry function still fit. -/
theorem functionTable_complete_nine : ∃ funcId after,
    compileModule zeroedInput (identityChain 9) = .ok (funcId, after) ∧
      FunctionTable.Complete ⟨after.module, after.finished⟩ := by
  have returns : (compileModule zeroedInput (identityChain 9)).isOk := by
    decide +kernel
  cases ok : compileModule zeroedInput (identityChain 9) with
  | error stop =>
      rw [ok] at returns
      cases returns
  | ok result =>
      exact ⟨result.1, result.2, rfl,
        (functionTable_complete_iff ok).mpr (by decide)⟩

/-- The function count and the entry function's entry after compiling. -/
def compiledEntry (input : CompileInput) (expression : Expression) :
    Option (Nat × Option CompiledExpression) :=
  (compileModule input expression).toOption.map fun result =>
    (result.2.module.functionCount, result.2.module.entry 0)

/-- With ten lambdas the entry function's entry is lost. -/
theorem functionTable_lost_ten : ∃ funcId after,
    compileModule zeroedInput (identityChain 10) = .ok (funcId, after) ∧
      ¬FunctionTable.Complete ⟨after.module, after.finished⟩ := by
  have lost : compiledEntry zeroedInput (identityChain 10) =
      some (11, none) := by
    decide +kernel
  unfold compiledEntry at lost
  cases ok : compileModule zeroedInput (identityChain 10) with
  | error stop =>
      rw [ok] at lost
      cases lost
  | ok result =>
      simp only [ok, Except.toOption, Option.map_some, Option.some.injEq,
        Prod.mk.injEq] at lost
      refine ⟨result.1, result.2, rfl, fun complete => ?_⟩
      rcases complete 0 (by dsimp only; omega) with ⟨entry, -, stored⟩
      rw [lost.2] at stored
      cases stored

end Millie.Compiler
