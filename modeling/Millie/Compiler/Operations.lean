import Millie.Compiler.Functions

/-!
# What a compilation does to its context

`operations` lists, for the code of one function, the registers that
`_GetFreeIntRegister` returns, the entries of the binding array and of the
closure list that are written, and where the searches of the binding array
start.  The compilation of a nested function has a context of its own and is
not part of the list.
-/

namespace Millie.Compiler

open Millie.Symbols Millie.Syntax Millie.Machine

/-! ## Operations -/

/-- A use of the registers or of a growable array of a context. -/
inductive Operation where
  | register (reg : UInt8)
  | search (top : Nat)
  | push (index : Nat)
  | close (index : Nat)
deriving DecidableEq

/-- A literal takes a register. -/
def literalOperations (view : View) : List Operation :=
  [.register view.nextReg]

/-- `_CompileIdentifierImpl`: the search, and what a captured symbol needs. -/
def identifierOperations (id : Symbol) (view : View) : List Operation :=
  .search view.top ::
    match View.search view.bindings id view.top with
    | some _ => []
    | none =>
        (if id ∈ view.closure then [] else [.close view.closure.length]) ++
          [.register view.nextReg]

/-- The loop that loads the captured values of a new closure. -/
def closedOperations : List Symbol → View → List Operation
  | [], _ => []
  | symbol :: symbols, view =>
      identifierOperations symbol view ++
        closedOperations symbols (emitIdentifier symbol view).view

/-- `_CompileLambdaImpl` after the function: its id and its captured values. -/
def lambdaOperations (input : CompileInput) (lambdaId selfId : Symbol)
    (body : View → Emission) (view : View) : List Operation :=
  let added := addFunction view.module
  let emitted := emitBody input lambdaId selfId body view
  literalOperations (finishFunction added.2.1 added.1 emitted view) ++
    closedOperations emitted.view.closure
      (closureView input lambdaId selfId body view)

/-- The rounds of a tuple. -/
def tupleOperations (first : View → Emission)
    (firstOperations : View → List Operation) : Nat → View → List Operation
  | 0, _ => []
  | count + 1, view =>
      firstOperations view ++
        tupleOperations first firstOperations count (first view).view

/-- What compiling an expression does in its own function, in order. -/
def operations (input : CompileInput) : Expression → View → List Operation
  | .integerConstant _ _, view | .true_ _, view | .false_ _, view =>
      literalOperations view
  | .identifier _ id, view => identifierOperations id view
  | .let_ _ id value body, view =>
      let emitted := emit input value view
      operations input value view ++
        (.push emitted.view.top ::
          operations input body (emitted.view.push id emitted.reg))
  | .letrec _ id value body, view =>
      match value with
      | .lambda _ lambdaId lambdaBody =>
          let inner := view.take.push id view.nextReg
          .register view.nextReg :: .push view.top ::
            (lambdaOperations input lambdaId id (emit input lambdaBody) inner ++
              operations input body
                (emitLambdaImpl input lambdaId (emit input lambdaBody) id
                  view.nextReg inner).view)
      | _ => [.register view.nextReg]
  | .lambda _ id body, view =>
      .register view.nextReg ::
        lambdaOperations input id invalidSymbol (emit input body) view.take
  | .apply _ first second, view | .binary _ _ first second, view =>
      let last := (emit input second (emit input first view).view).view
      operations input first view ++
        (operations input second (emit input first view).view ++
          [.register last.nextReg])
  | .unary _ _ arg, view =>
      operations input arg view ++
        [.register (emit input arg view).view.nextReg]
  | .if_ _ test thenArm elseArm, view =>
      let tested := (emit input test view).view
      operations input test view ++
        (operations input thenArm tested ++
          operations input elseArm (emit input thenArm tested).view)
  | .tuple _ first _ length, view =>
      .register view.nextReg :: .register view.take.nextReg ::
        tupleOperations (emit input first) (operations input first) length
          view.take.take
  | .error _, _ | .invalid _, _ | .tupleFinal _ _, _ => []

theorem operations_letrec_other {value : Expression}
    (notLambda : ¬value.IsLambda) (input : CompileInput) (range : TokenRange)
    (id : Symbol) (body : Expression) (view : View) :
    operations input (.letrec range id value body) view =
      [.register view.nextReg] := by
  cases value with
  | lambda range id body => exact absurd trivial notLambda
  | _ => rfl

/--
What compiling a function does: `_CompileLambdaImpl` takes two registers and
pushes one or two bindings before the body, `CompileExpression` nothing.
-/
def Function.operations (input : CompileInput) (f : Function) :
    List Operation :=
  (List.range f.view.registers).map (fun k => .register (UInt8.ofNat k)) ++
    ((List.range f.view.top).map .push ++
      Compiler.operations input f.body f.view)

/-! ## Registers and captured symbols -/

/-- The register that an operation takes. -/
def Operation.taken : Operation → Option UInt8
  | register reg => some reg
  | _ => none

/-- The entry of the closure list that an operation writes. -/
def Operation.closed : Operation → Option Nat
  | close index => some index
  | _ => none

/-- The registers that operations take, in order. -/
def registersOf (operations : List Operation) : List UInt8 :=
  operations.filterMap Operation.taken

/-- The entries of the closure list that operations write, in order. -/
def closesOf (operations : List Operation) : List Nat :=
  operations.filterMap Operation.closed

theorem registersOf_append (first second : List Operation) :
    registersOf (first ++ second) = registersOf first ++ registersOf second :=
  List.filterMap_append

theorem closesOf_append (first second : List Operation) :
    closesOf (first ++ second) = closesOf first ++ closesOf second :=
  List.filterMap_append

/-- A list is made of the numbers from one to another. -/
structure Consecutive {α : Type} (make : Nat → α) (start stop : Nat)
    (list : List α) : Prop where
  count : stop = start + list.length
  next : list = (List.range' start list.length).map make

namespace Consecutive

variable {α : Type} {make : Nat → α} {start middle stop : Nat}
  {first second : List α}

theorem nil (make : Nat → α) (start : Nat) :
    Consecutive make start start [] :=
  ⟨rfl, rfl⟩

theorem single (make : Nat → α) (start : Nat) :
    Consecutive make start (start + 1) [make start] :=
  ⟨rfl, rfl⟩

theorem trans (left : Consecutive make start middle first)
    (right : Consecutive make middle stop second) :
    Consecutive make start stop (first ++ second) := by
  constructor
  · rw [List.length_append, right.count, left.count, Nat.add_assoc]
  · have next := right.next
    rw [left.count] at next
    rw [List.length_append, ← List.range'_append_1, List.map_append,
      ← left.next, ← next]

/-- All are below a bound if and only if their end is at most the bound. -/
theorem below_iff {list : List Nat} {bound : Nat}
    (consecutive : Consecutive id start stop list) (begun : start ≤ bound) :
    (∀ i ∈ list, i < bound) ↔ stop ≤ bound := by
  rw [consecutive.next, List.map_id, consecutive.count]
  simp only [List.mem_range'_1]
  constructor
  · intro all
    by_contra beyond
    have last := all bound ⟨begun, by omega⟩
    exact absurd last (Nat.lt_irrefl bound)
  · rintro inside i ⟨-, before⟩
    omega

end Consecutive

/--
Operations between two states take the next registers and write the next
entries of the closure list.
-/
structure TakesNext (view after : View) (operations : List Operation) :
    Prop where
  registers : Consecutive UInt8.ofNat view.registers after.registers
    (registersOf operations)
  closes : Consecutive id view.closure.length after.closure.length
    (closesOf operations)

namespace TakesNext

variable {view middle after : View} {first second : List Operation}

theorem refl (view : View) : TakesNext view view [] :=
  ⟨.nil _ _, .nil _ _⟩

theorem take (view : View) :
    TakesNext view view.take [.register view.nextReg] :=
  ⟨.single _ _, .nil _ _⟩

theorem trans (left : TakesNext view middle first)
    (right : TakesNext middle after second) :
    TakesNext view after (first ++ second) := by
  constructor
  · rw [registersOf_append]
    exact left.registers.trans right.registers
  · rw [closesOf_append]
    exact left.closes.trans right.closes

/-- Only the registers and the closure lists of the two states matter. -/
theorem congr {earlier later : View} (takes : TakesNext view after first)
    (registers : earlier.registers = view.registers)
    (closure : earlier.closure = view.closure)
    (registers' : later.registers = after.registers)
    (closure' : later.closure = after.closure) :
    TakesNext earlier later first := by
  constructor
  · rw [registers, registers']
    exact takes.registers
  · rw [closure, closure']
    exact takes.closes

end TakesNext

theorem literalOperations_next (value : UInt64) (view : View) :
    TakesNext view (emitLiteral value view).view (literalOperations view) :=
  .take view

theorem identifierOperations_next (id : Symbol) (view : View) :
    TakesNext view (emitIdentifier id view).view
      (identifierOperations id view) := by
  cases found : View.search view.bindings id view.top with
  | some reg =>
      rw [emitIdentifier_bound found, identifierOperations, found]
      exact ⟨.nil _ _, .nil _ _⟩
  | none =>
      rw [emitIdentifier_closed found, identifierOperations, found]
      unfold View.close
      split
      · exact ⟨.single _ _, .nil _ _⟩
      · refine ⟨.single _ _, ?_⟩
        dsimp only
        rw [List.length_append]
        exact .single _ _

theorem closedOperations_next (closureRegister : UInt8)
    (symbols : List Symbol) (i : Nat) (view : View) :
    TakesNext view (emitClosedValues closureRegister i symbols view).2
      (closedOperations symbols view) := by
  induction symbols generalizing i view with
  | nil => exact .refl view
  | cons symbol symbols ih =>
      exact (identifierOperations_next symbol view).trans (ih (i + 1) _)

theorem lambdaOperations_next (input : CompileInput)
    (lambdaId selfId : Symbol) (body : View → Emission)
    (closureRegister : UInt8) (view : View) :
    TakesNext view
      (emitLambdaImpl input lambdaId body selfId closureRegister view).view
      (lambdaOperations input lambdaId selfId body view) := by
  let added := addFunction view.module
  let outer := finishFunction added.2.1 added.1
    (emitBody input lambdaId selfId body view) view
  have literal := literalOperations_next (UInt64.ofNat added.2.1) outer
  have whole := literal.trans (closedOperations_next closureRegister
    (emitBody input lambdaId selfId body view).view.closure 0 _)
  exact whole.congr rfl rfl rfl rfl

theorem tupleOperations_next {first : View → Emission}
    {firstOperations : View → List Operation}
    (firstNext : ∀ view, TakesNext view (first view).view
      (firstOperations view)) (outReg : UInt8) (count i : Nat) (view : View) :
    TakesNext view (emitTupleMembers first outReg i count view).2
      (tupleOperations first firstOperations count view) := by
  induction count generalizing i view with
  | zero => exact .refl view
  | succ count ih => exact (firstNext view).trans (ih (i + 1) _)

/-- What an operator leaves, whether it is reported or not. -/
theorem emitBinary_left (input : CompileInput) (range : TokenRange)
    (operator : TokenType) (left right : View → Emission) (view : View) :
    (emitBinary input range operator left right view).view.registers =
        (right (left view).view).view.take.registers ∧
      (emitBinary input range operator left right view).view.closure =
        (right (left view).view).view.closure := by
  unfold emitBinary
  dsimp only
  split
  · exact ⟨rfl, rfl⟩
  · exact ⟨rfl, rfl⟩

theorem emitUnary_left (input : CompileInput) (range : TokenRange)
    (operator : TokenType) (arg : View → Emission) (view : View) :
    (emitUnary input range operator arg view).view.registers =
        (arg view).view.take.registers ∧
      (emitUnary input range operator arg view).view.closure =
        (arg view).view.closure := by
  unfold emitUnary
  dsimp only
  split
  · exact ⟨rfl, rfl⟩
  · exact ⟨rfl, rfl⟩

/-- Compiling an expression takes the next registers and entries. -/
theorem operations_next (input : CompileInput) (expression : Expression)
    (view : View) :
    TakesNext view (emit input expression view).view
      (operations input expression view) := by
  induction expression using Expression.functionInduction generalizing view with
  | integerConstant range literalValue =>
      exact literalOperations_next literalValue view
  | true_ range => exact literalOperations_next 1 view
  | false_ range => exact literalOperations_next 0 view
  | error range => exact .refl view
  | invalid range => exact (TakesNext.refl view).congr rfl rfl rfl rfl
  | tupleFinal range first firstIh =>
      exact (TakesNext.refl view).congr rfl rfl rfl rfl
  | identifier range id => exact identifierOperations_next id view
  | let_ range id value body valueIh bodyIh =>
      let emitted := emit input value view
      have inner := bodyIh (emitted.view.push id emitted.reg)
      have pushed : TakesNext emitted.view
          (emitted.view.push id emitted.reg) [.push emitted.view.top] :=
        ⟨.nil _ _, .nil _ _⟩
      exact ((valueIh view).trans (pushed.trans inner)).congr rfl rfl rfl rfl
  | letrecFunction range id lambdaRange lambdaId lambdaBody body valueIh
      bodyIh =>
      let inner := view.take.push id view.nextReg
      have start : TakesNext view inner
          [.register view.nextReg, .push view.top] :=
        ⟨.single _ _, .nil _ _⟩
      have function := lambdaOperations_next input lambdaId id
        (emit input lambdaBody) view.nextReg inner
      exact (start.trans (function.trans (bodyIh _))).congr rfl rfl rfl rfl
  | letrecOther range id value body notLambda valueIh bodyIh =>
      rw [emit_letrec_other notLambda, operations_letrec_other notLambda]
      exact (TakesNext.take view).congr rfl rfl rfl rfl
  | lambda range id body bodyIh =>
      exact (TakesNext.take view).trans (lambdaOperations_next input id
        invalidSymbol (emit input body) view.nextReg view.take)
  | apply range function argument functionIh argumentIh =>
      exact (functionIh view).trans ((argumentIh _).trans (.take _))
  | binary range operator left right leftIh rightIh =>
      have both := (leftIh view).trans ((rightIh _).trans (.take _))
      rcases emitBinary_left input range operator (emit input left)
        (emit input right) view with ⟨registers, closure⟩
      exact both.congr rfl rfl registers closure
  | unary range operator arg argIh =>
      have both := (argIh view).trans (.take _)
      rcases emitUnary_left input range operator (emit input arg) view with
        ⟨registers, closure⟩
      exact both.congr rfl rfl registers closure
  | if_ range test thenArm elseArm testIh thenIh elseIh =>
      exact (testIh view).trans ((thenIh _).trans (elseIh _))
  | tuple range first rest length firstIh restIh =>
      exact (TakesNext.take view).trans ((TakesNext.take view.take).trans
        (tupleOperations_next firstIh view.take.nextReg length 0 _))

namespace Function

/-- The registers that the calls of `_GetFreeIntRegister` return. -/
def registers (input : CompileInput) (f : Function) : List UInt8 :=
  registersOf (f.operations input)

/-- The calls return the numbers from zero on, in eight bits. -/
theorem registers_eq (input : CompileInput) (f : Function) :
    f.registers input =
      (List.range (f.entry input).registerCount).map UInt8.ofNat := by
  have before : registersOf ((List.range f.view.registers).map fun k =>
      Operation.register (UInt8.ofNat k)) =
      (List.range f.view.registers).map UInt8.ofNat := by
    rw [registersOf, List.filterMap_map]
    exact congrFun List.filterMap_eq_map _
  have pushes : registersOf ((List.range f.view.top).map .push) = [] := by
    rw [registersOf, List.filterMap_map]
    exact List.filterMap_none _
  have start : Consecutive UInt8.ofNat 0 f.view.registers
      ((List.range f.view.registers).map UInt8.ofNat) := by
    constructor
    · simp
    · simp [List.range_eq_range']
  have all := start.trans (operations_next input f.body f.view).registers
  have count : (f.entry input).registerCount = 0 + _ := all.count
  rw [registers, operations, registersOf_append, registersOf_append, before,
    pushes, List.nil_append, all.next, count, Nat.zero_add,
    List.range_eq_range', ← List.range_eq_range']

end Function

end Millie.Compiler
