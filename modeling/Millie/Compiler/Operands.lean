import Millie.Compiler.Decoding
import Millie.Compiler.Registers

/-!
# The registers that code names

Every register that a function's code names was taken in it, or was found by a
search of the binding memory: a binding that has ended, or memory that was never
written, may name any register.  `found` lists the registers of the second kind
that are read; a value that a `let` binds is read only where its symbol is found
again.  The frames of a module all fit exactly when its table kept its entries,
the entry function takes two registers and the registers found are inside.
-/

namespace Millie.Compiler

open Millie.Symbols Millie.Syntax Millie.Machine

/-! ## Found registers -/

/-- The register that the search for a symbol finds. -/
def identifierFound (id : Symbol) (view : View) : List UInt8 :=
  (View.search view.bindings id view.top).toList

/-- The registers found for captured values; each is stored. -/
def closedFound : List Symbol → View → List UInt8
  | [], _ => []
  | symbol :: symbols, view =>
      identifierFound symbol view ++
        closedFound symbols (emitIdentifier symbol view).view

/-- The registers found when a closure is created. -/
def lambdaFound (input : CompileInput) (lambdaId selfId : Symbol)
    (body : View → Emission) (view : View) : List UInt8 :=
  closedFound (emitBody input lambdaId selfId body view).view.closure
    (closureView input lambdaId selfId body view)

/-- The registers found in the rounds of a tuple. -/
def tupleFound (first : View → Emission) (firstFound : View → List UInt8) :
    Nat → View → List UInt8
  | 0, _ => []
  | count + 1, view =>
      firstFound view ++ tupleFound first firstFound count (first view).view

/--
The registers that searches find in an expression and its function reads.
`read` says whether the value of the expression itself is read.
-/
def found (input : CompileInput) : Expression → Bool → View → List UInt8
  | .identifier _ id, read, view => if read then identifierFound id view else []
  | .let_ _ id value body, read, view =>
      let emitted := emit input value view
      found input value false view ++
        found input body read (emitted.view.push id emitted.reg)
  | .letrec _ id value body, read, view =>
      match value with
      | .lambda _ lambdaId lambdaBody =>
          let inner := view.take.push id view.nextReg
          lambdaFound input lambdaId id (emit input lambdaBody) inner ++
            found input body read
              (emitLambdaImpl input lambdaId (emit input lambdaBody) id
                view.nextReg inner).view
      | _ => []
  | .lambda _ id body, _, view =>
      lambdaFound input id invalidSymbol (emit input body) view.take
  | .apply _ first second, _, view | .binary _ _ first second, _, view =>
      found input first true view ++
        found input second true (emit input first view).view
  | .unary _ _ arg, _, view => found input arg true view
  | .if_ _ test thenArm elseArm, read, view =>
      let tested := emit input test view
      let armed := emit input thenArm tested.view
      -- The arms are read by the move between them, if there is one.
      let moved := (emit input elseArm armed.view).reg != armed.reg
      found input test true view ++
        (found input thenArm (read || moved) tested.view ++
          found input elseArm moved armed.view)
  | .tuple _ first _ length, _, view =>
      tupleFound (emit input first) (found input first true) length
        view.take.take
  | .integerConstant _ _, _, _ | .true_ _, _, _ | .false_ _, _, _
  | .error _, _, _ | .invalid _, _, _ | .tupleFinal _ _, _, _ => []

/-! ## Code whose registers are below a bound -/

/-- All registers that code names are below a bound. -/
def Below (size : Nat) (code : Code) : Prop :=
  ∀ i ∈ code.instructions, ∀ reg ∈ i.registers, reg.toNat < size

section

variable {size : Nat}

@[simp]
theorem below_empty : Below size .empty :=
  nofun

@[simp]
theorem below_instruction {i : Instruction} :
    Below size (.instruction i) ↔ ∀ reg ∈ i.registers, reg.toNat < size :=
  List.forall_mem_singleton

@[simp]
theorem below_seq {first second : Code} :
    Below size (.seq first second) ↔ Below size first ∧ Below size second :=
  List.forall_mem_append

@[simp]
theorem below_branch {testReg : UInt8} {thenCode elseCode : Code} :
    Below size (.branch testReg thenCode elseCode) ↔
      testReg.toNat < size ∧ Below size thenCode ∧ Below size elseCode := by
  simp only [Below, Code.instructions, List.forall_mem_cons,
    List.forall_mem_append, Instruction.registers, List.not_mem_nil,
    false_imp_iff, implies_true, and_true, true_and]

theorem below_moveResult {elseReg thenReg : UInt8} :
    Below size (moveResult elseReg thenReg) ↔
      ((elseReg != thenReg) = true →
        elseReg.toNat < size ∧ thenReg.toNat < size) := by
  unfold moveResult
  by_cases differ : elseReg ≠ thenReg
  · simp [differ, Instruction.registers]
  · simp [not_not.mp differ]

end

/-! ## Found registers decide -/

/-- All registers of a list are below a bound. -/
def AllBelow (size : Nat) (registers : List UInt8) : Prop :=
  ∀ reg ∈ registers, reg.toNat < size

section

variable {size : Nat}

@[simp]
theorem allBelow_nil : AllBelow size [] :=
  nofun

@[simp]
theorem allBelow_append {first second : List UInt8} :
    AllBelow size (first ++ second) ↔
      AllBelow size first ∧ AllBelow size second :=
  List.forall_mem_append

/-- The result of an identifier is inside when what its search finds is. -/
theorem emitIdentifier_below (id : Symbol) (view : View) (pos : 0 < size)
    (room : (emitIdentifier id view).view.registers ≤ size) :
    Below size (emitIdentifier id view).code ∧
      ((emitIdentifier id view).reg.toNat < size ↔
        AllBelow size (identifierFound id view)) := by
  unfold identifierFound
  cases searched : View.search view.bindings id view.top with
  | some reg =>
      rw [emitIdentifier_bound searched]
      exact ⟨below_empty, by simp [AllBelow]⟩
  | none =>
      rw [emitIdentifier_closed searched] at room ⊢
      have inside : view.nextReg.toNat < size := nextReg_lt room
      refine ⟨below_instruction.mpr ?_, iff_of_true inside allBelow_nil⟩
      simpa [Instruction.registers] using ⟨pos, inside⟩

theorem emitClosedValues_below {closureRegister : UInt8}
    (inside : closureRegister.toNat < size) (symbols : List Symbol) (i : Nat)
    (view : View)
    (room : (emitClosedValues closureRegister i symbols view).2.registers ≤
      size) :
    Below size (emitClosedValues closureRegister i symbols view).1 ↔
      AllBelow size (closedFound symbols view) := by
  induction symbols generalizing i view with
  | nil => exact iff_of_true below_empty allBelow_nil
  | cons symbol symbols ih =>
      have later := emitClosedValues_continues closureRegister symbols (i + 1)
        (emitIdentifier symbol view).view
      rcases emitIdentifier_below symbol view (Nat.zero_lt_of_lt inside)
        (Nat.le_trans later.registers room) with ⟨code, reg⟩
      have rest := ih (i + 1) (emitIdentifier symbol view).view room
      rw [emitClosedValues, closedFound, below_seq, below_seq,
        below_instruction, allBelow_append, ← reg, ← rest,
        and_iff_right code]
      simp [Instruction.registers, inside]

theorem emitLambdaImpl_below (input : CompileInput) (lambdaId selfId : Symbol)
    (body : View → Emission) {closureRegister : UInt8}
    (inside : closureRegister.toNat < size) (view : View)
    (room : (emitLambdaImpl input lambdaId body selfId closureRegister
      view).view.registers ≤ size) :
    Below size
        (emitLambdaImpl input lambdaId body selfId closureRegister view).code ↔
      AllBelow size (lambdaFound input lambdaId selfId body view) := by
  let outer := finishFunction (addFunction view.module).2.1
    (addFunction view.module).1 (emitBody input lambdaId selfId body view) view
  have closed := emitClosedValues_continues closureRegister
    (emitBody input lambdaId selfId body view).view.closure 0 outer.take
  have id : outer.nextReg.toNat < size :=
    nextReg_lt (Nat.le_trans closed.registers room)
  have stored := emitClosedValues_below inside
    (emitBody input lambdaId selfId body view).view.closure 0 outer.take room
  refine Iff.trans ?_ stored
  refine below_seq.trans ((and_iff_right ?_).trans
    (below_seq.trans (and_iff_right ?_)))
  · rw [emitLiteral, below_instruction, literalInstruction_registers]
    simpa using id
  · rw [below_instruction]
    simpa [Instruction.registers] using ⟨id, inside⟩

/-- What decides whether an emission's registers are inside. -/
def EmitsBelow (input : CompileInput) (size : Nat) (expression : Expression) :
    Prop :=
  ∀ (view : View) (read : Bool),
    (emit input expression view).view.errors = [] →
    (emit input expression view).view.registers ≤ size →
    ((Below size (emit input expression view).code ∧
        (read = true → (emit input expression view).reg.toNat < size)) ↔
      AllBelow size (found input expression read view))

/-- A register that was taken is inside whether it is read or not. -/
theorem taken_below {code : Code} {reg : UInt8} {registers : List UInt8}
    (read : Bool) (inside : reg.toNat < size)
    (same : Below size code ↔ AllBelow size registers) :
    (Below size code ∧ (read = true → reg.toNat < size)) ↔
      AllBelow size registers :=
  (and_iff_left fun _ => inside).trans same

/-- A literal names only the register that it takes. -/
theorem emitLiteral_below (value : UInt64) (read : Bool) {view : View}
    (room : view.take.registers ≤ size) :
    (Below size (emitLiteral value view).code ∧
        (read = true → (emitLiteral value view).reg.toNat < size)) ↔
      AllBelow size [] := by
  have inside := nextReg_lt room
  refine taken_below read inside (iff_of_true ?_ allBelow_nil)
  rw [emitLiteral, below_instruction, literalInstruction_registers]
  simpa using inside

theorem emitTupleMembers_below {input : CompileInput} {first : Expression}
    (firstBelow : EmitsBelow input size first) {outReg : UInt8}
    (inside : outReg.toNat < size) (count i : Nat) {view : View}
    (quiet : (emitTupleMembers (emit input first) outReg i count
      view).2.errors = [])
    (room : (emitTupleMembers (emit input first) outReg i count
      view).2.registers ≤ size) :
    Below size (emitTupleMembers (emit input first) outReg i count view).1 ↔
      AllBelow size (tupleFound (emit input first) (found input first true)
        count view) := by
  induction count generalizing i view with
  | zero => exact iff_of_true below_empty allBelow_nil
  | succ count ih =>
      have later := emitTupleMembers_continues (emit_continues input first)
        outReg count (i + 1) (emit input first view).view
      have member := firstBelow view true (errors_nil later quiet)
        (Nat.le_trans later.registers room)
      have rest := ih (i + 1) quiet room
      rw [emitTupleMembers, tupleFound, below_seq, below_seq,
        below_instruction, allBelow_append, ← member, ← rest]
      simp [Instruction.registers, inside, and_assoc]

/-- A tuple names its own two registers and what its first component does. -/
theorem emitTuple_below {input : CompileInput} {first : Expression}
    (firstBelow : EmitsBelow input size first) (length : Nat) (read : Bool)
    {view : View}
    (quiet : (emitTuple length (emit input first) view).view.errors = [])
    (room : (emitTuple length (emit input first) view).view.registers ≤ size) :
    (Below size (emitTuple length (emit input first) view).code ∧
        (read = true →
          (emitTuple length (emit input first) view).reg.toNat < size)) ↔
      AllBelow size (tupleFound (emit input first) (found input first true)
        length view.take.take) := by
  let out := view.take.nextReg
  have kept := emitTupleMembers_continues (emit_continues input first) out
    length 0 view.take.take
  have taken : view.take.take.registers ≤ size :=
    Nat.le_trans kept.registers room
  have inside : out.toNat < size := nextReg_lt taken
  have lenInside : view.nextReg.toNat < size :=
    nextReg_lt (Nat.le_of_succ_le taken)
  have members : Below size
      (emitTupleMembers (emit input first) out 0 length view.take.take).1 ↔
        AllBelow size (tupleFound (emit input first)
          (found input first true) length view.take.take) :=
    emitTupleMembers_below firstBelow inside length 0 quiet room
  refine taken_below read inside ?_
  rw [← members]
  refine below_seq.trans ((and_iff_right ?_).trans
    (below_seq.trans (and_iff_right ?_)))
  · rw [emitLiteral, below_instruction, literalInstruction_registers]
    simpa using lenInside
  · rw [below_instruction]
    simpa [Instruction.registers] using ⟨lenInside, inside⟩

/-- Two values that are both read. -/
theorem EmitsBelow.both {input : CompileInput} {first second : Expression}
    (firstBelow : EmitsBelow input size first)
    (secondBelow : EmitsBelow input size second) {view : View}
    (quiet : (emit input second (emit input first view).view).view.errors = [])
    (room : (emit input second (emit input first view).view).view.registers ≤
      size) :
    ((Below size (emit input first view).code ∧
        (emit input first view).reg.toNat < size) ∧
      Below size (emit input second (emit input first view).view).code ∧
        (emit input second (emit input first view).view).reg.toNat < size) ↔
      AllBelow size (found input first true view ++
        found input second true (emit input first view).view) := by
  have later := emit_continues input second (emit input first view).view
  have inFirst := firstBelow view true (errors_nil later quiet)
    (Nat.le_trans later.registers room)
  have inSecond := secondBelow _ true quiet room
  rw [allBelow_append, ← inFirst, ← inSecond]
  simp

/-- What is read of the parts of an `if`, with or without a move. -/
theorem if_reads {inTest test inThen thenReg inElse elseReg : Prop}
    (read moved : Bool) :
    ((inTest ∧ test ∧ inThen ∧ inElse ∧
        (moved = true → elseReg ∧ thenReg)) ∧ (read = true → thenReg)) ↔
      (inTest ∧ (true = true → test)) ∧
        (inThen ∧ ((read || moved) = true → thenReg)) ∧
          inElse ∧ (moved = true → elseReg) := by
  cases read with
  | false =>
      cases moved with
      | false => simp; tauto
      | true => simp; tauto
  | true =>
      cases moved with
      | false => simp; tauto
      | true => simp; tauto

/-- The arms of an `if` are read by the move between them, if there is one. -/
theorem emitIf_below {input : CompileInput}
    {test thenArm elseArm : Expression}
    (testBelow : EmitsBelow input size test)
    (thenBelow : EmitsBelow input size thenArm)
    (elseBelow : EmitsBelow input size elseArm) {range : TokenRange}
    (read : Bool) {view : View}
    (quiet : (emit input (.if_ range test thenArm elseArm)
      view).view.errors = [])
    (room : (emit input (.if_ range test thenArm elseArm)
      view).view.registers ≤ size) :
    (Below size (emit input (.if_ range test thenArm elseArm) view).code ∧
        (read = true →
          (emit input (.if_ range test thenArm elseArm) view).reg.toNat <
            size)) ↔
      AllBelow size (found input (.if_ range test thenArm elseArm) read
        view) := by
  let tested := emit input test view
  let armed := emit input thenArm tested.view
  let elsed := emit input elseArm armed.view
  let moved := elsed.reg != armed.reg
  have elseKept := emit_continues input elseArm armed.view
  have thenKept := emit_continues input thenArm tested.view
  have thenRoom := Nat.le_trans elseKept.registers room
  have thenQuiet := errors_nil elseKept quiet
  have inTest := testBelow view true (errors_nil thenKept thenQuiet)
    (Nat.le_trans thenKept.registers thenRoom)
  have inThen := thenBelow tested.view (read || moved) thenQuiet thenRoom
  have inElse := elseBelow armed.view moved quiet room
  rw [found, allBelow_append, allBelow_append, ← inTest, ← inThen, ← inElse,
    emit, emitIf, below_seq, below_branch, below_seq, below_moveResult]
  exact if_reads read moved

/--
In a frame that holds what was taken, an emission's registers are inside exactly
when the registers that its searches find, and that are read, are inside.
-/
theorem emit_below (input : CompileInput) (pos : 0 < size)
    (expression : Expression) : EmitsBelow input size expression := by
  intro view read quiet room
  induction expression using Expression.functionInduction
    generalizing view read with
  | integerConstant range literalValue => exact emitLiteral_below _ read room
  | true_ range => exact emitLiteral_below _ read room
  | false_ range => exact emitLiteral_below _ read room
  | error range =>
      exact taken_below read pos (iff_of_true below_empty allBelow_nil)
  | invalid range => simp [emit, View.report] at quiet
  | tupleFinal range first firstIh => simp [emit, View.report] at quiet
  | identifier range id =>
      rcases emitIdentifier_below id view pos room with ⟨code, reg⟩
      refine (and_iff_right code).trans ?_
      cases read with
      | false =>
          exact iff_of_true (absurd · Bool.false_ne_true) allBelow_nil
      | true => exact (imp_iff_right rfl).trans reg
  | let_ range id value body valueIh bodyIh =>
      let emitted := emit input value view
      have bodyKept := emit_continues input body
        (emitted.view.push id emitted.reg)
      have inValue := valueIh view false (errors_nil bodyKept.scope quiet)
        (Nat.le_trans bodyKept.registers room)
      have inBody := bodyIh _ read quiet room
      rw [and_iff_left (absurd · Bool.false_ne_true)] at inValue
      rw [found, allBelow_append, ← inValue, ← inBody, emit, emitLet,
        below_seq, and_assoc]
  | letrecFunction range id lambdaRange lambdaId lambdaBody body valueIh
      bodyIh =>
      let inner := view.take.push id view.nextReg
      let function := emitLambdaImpl input lambdaId (emit input lambdaBody) id
        view.nextReg inner
      have functionKept := emitLambdaImpl_continues input
        (emit_continues input lambdaBody) lambdaId id view.nextReg inner
      have bodyKept := emit_continues input body function.view
      have registers := Nat.le_trans bodyKept.registers room
      have inside : view.nextReg.toNat < size :=
        nextReg_lt (Nat.le_trans functionKept.registers registers)
      have inValue := emitLambdaImpl_below input lambdaId id
        (emit input lambdaBody) inside inner registers
      have inBody := bodyIh _ read quiet room
      rw [found, allBelow_append, ← inValue, ← inBody, emit, emitLetRec,
        below_seq, and_assoc]
  | letrecOther range id value body notLambda valueIh bodyIh =>
      rw [emit_letrec_other notLambda] at quiet
      simp [emitLetRec, View.report] at quiet
  | lambda range id body bodyIh =>
      have kept := emitLambdaImpl_continues input (emit_continues input body)
        id invalidSymbol view.nextReg view.take
      have inside : view.nextReg.toNat < size :=
        nextReg_lt (Nat.le_trans kept.registers room)
      exact taken_below read inside (emitLambdaImpl_below input id
        invalidSymbol (emit input body) inside view.take room)
  | apply range function argument functionIh argumentIh =>
      have both := EmitsBelow.both functionIh argumentIh quiet
        (Nat.le_of_succ_le room)
      have inside := nextReg_lt room
      refine taken_below read inside (Iff.trans ?_ both)
      rw [emit, emitApply, below_seq, below_seq, below_instruction]
      simp only [Instruction.registers, List.forall_mem_cons,
        List.not_mem_nil, false_imp_iff, implies_true, and_true, inside]
      tauto
  | binary range operator left right leftIh rightIh =>
      rcases emit_binary_quiet quiet with ⟨instruction, chosen, emitted⟩
      rw [emitted] at quiet room ⊢
      have both := EmitsBelow.both leftIh rightIh quiet
        (Nat.le_of_succ_le room)
      have inside := nextReg_lt room
      refine taken_below read inside (Iff.trans ?_ both)
      rw [below_seq, below_seq, below_instruction,
        binaryInstruction_registers chosen]
      simp only [List.forall_mem_cons, List.not_mem_nil, false_imp_iff,
        implies_true, and_true, inside]
      tauto
  | unary range operator arg argIh =>
      rcases emit_unary_quiet quiet with ⟨instruction, chosen, emitted⟩
      rw [emitted] at quiet room ⊢
      have inArg := argIh view true quiet (Nat.le_of_succ_le room)
      have inside := nextReg_lt room
      refine taken_below read inside (Iff.trans ?_ inArg)
      rw [below_seq, below_instruction, unaryInstruction_registers chosen]
      simp [inside]
  | if_ range test thenArm elseArm testIh thenIh elseIh =>
      exact emitIf_below testIh thenIh elseIh read quiet room
  | tuple range first rest length firstIh restIh =>
      exact emitTuple_below firstIh length read quiet room

end

/-! ## The frames of a module -/

namespace Function

/-- The registers that a function's searches find and the function reads. -/
def found (input : CompileInput) (f : Function) : List UInt8 :=
  Compiler.found input f.body true f.view

/-- A frame fits when what the function's code and result name is inside. -/
theorem frame_iff_below {input : CompileInput} {f : Function}
    (quiet : (f.emission input).view.errors = []) :
    FrameFits (f.entry input) ↔ 1 < f.demand input ∧
      Below (f.demand input) (f.emission input).code ∧
        (f.emission input).reg.toNat < f.demand input := by
  have plain := (emit_plain input f.body f.view quiet).1
  have whole : (Code.seq (f.emission input).code (.instruction .ret)).Clean :=
    ⟨plain, nofun⟩
  have bytes : (f.entry input).code =
      (Code.seq (f.emission input).code (.instruction .ret)).instructions.flatMap
        instructionBytes := whole.bytes_eq
  rw [← f.registerCount_eq input]
  constructor
  · intro fits
    refine ⟨fits.entered, fun i member => ?_, fits.result⟩
    rcases fetched_of_mem whole.known (List.mem_append_left _ member) with
      ⟨ip, after, boundary, fetched⟩
    rw [← bytes] at boundary fetched
    exact fits.operands ip i after boundary fetched
  · rintro ⟨entered, below, result⟩
    refine ⟨entered, fun ip i after boundary fetched => ?_, result⟩
    rw [bytes] at boundary fetched
    rcases List.mem_append.mp (boundary.fetch_mem whole.known fetched) with
      own | return_
    · exact below i own
    · rw [List.mem_singleton.mp return_]
      exact nofun

/-- A frame fits when it has two registers and what is found is inside. -/
theorem frame_iff {input : CompileInput} {f : Function}
    (quiet : (f.emission input).view.errors = []) :
    FrameFits (f.entry input) ↔ 2 ≤ f.demand input ∧
      ∀ reg ∈ f.found input, reg.toNat < f.demand input := by
  refine (frame_iff_below quiet).trans (and_congr_right fun entered => ?_)
  have room : (emit input f.body f.view).view.registers ≤ f.demand input :=
    Nat.le_of_eq (f.registerCount_eq input)
  have below := emit_below input (Nat.zero_lt_of_lt entered) f.body f.view true
    quiet room
  rw [imp_iff_right rfl] at below
  exact below

end Function

/-- A lambda's function takes a register for itself and one for its argument. -/
theorem lambdaFunction_demand (input : CompileInput) (lambdaId selfId : Symbol)
    (body : Expression) (view : View) (scope : Scope) :
    2 ≤ (lambdaFunction input lambdaId selfId body view scope).demand input := by
  let f := lambdaFunction input lambdaId selfId body view scope
  have taken : f.view.registers = 2 := functionView_registers ..
  change 2 ≤ f.view.registers + _ + _
  omega

/-- Every entry of a module's table is there and stays inside its frame. -/
def FramesFit (module : Module) : Prop :=
  ∀ i < module.functionCount, ∃ entry,
    module.entry i = some entry ∧ FrameFits entry

/--
In every function of a module compiled without an error, all registers that the
machine touches are inside its frame if and only if the module has at most ten
functions, the entry function takes at least two registers, and in every
function the registers that searches find, and that are read, are smaller than
the number of registers it takes.
-/
theorem frames_fit_iff {input : CompileInput} {expression : Expression}
    {funcId : Nat} {after : CompileState}
    (returns : compileModule input expression = .ok (funcId, after))
    (quiet : after.errors = []) :
    FramesFit after.module ↔
      lambdasCompiled expression + 1 ≤ 10 ∧
      2 ≤ (entryFunction input expression).demand input ∧
      ∀ f ∈ moduleFunctions input expression, ∀ reg ∈ f.found input,
        reg.toNat < f.demand input := by
  have quietIn := moduleFunctions_quiet returns quiet
  have entryIn : entryFunction input expression ∈
      moduleFunctions input expression :=
    List.mem_append_right _ (List.mem_singleton_self _)
  constructor
  · intro fits
    have small : lambdasCompiled expression + 1 ≤ 10 := by
      by_contra large
      have positive : 0 < after.module.functionCount :=
        functions_allocated returns _ entryIn
      rcases fits 0 positive with ⟨entry, stored, -⟩
      cases (entry_lost returns (Nat.lt_of_not_le large)).symm.trans stored
    have stored := moduleFunctions_stored returns small
    have own : ∀ f ∈ moduleFunctions input expression,
        FrameFits (f.entry input) := by
      intro f member
      rcases fits f.id (functions_allocated returns f member) with
        ⟨entry, there, inside⟩
      cases (stored f member).symm.trans there
      exact inside
    refine ⟨small, ((Function.frame_iff (quietIn _ entryIn)).mp
      (own _ entryIn)).1, fun f member => ?_⟩
    exact ((Function.frame_iff (quietIn f member)).mp (own f member)).2
  · rintro ⟨small, entered, inside⟩ i below
    have two : ∀ f ∈ moduleFunctions input expression, 2 ≤ f.demand input :=
      moduleFunctions_all (lambdaFunction_demand input) entered
    rcases entries_are_functions returns small i below with ⟨f, member, rfl⟩
    refine ⟨f.entry input, moduleFunctions_stored returns small f member,
      (Function.frame_iff (quietIn f member)).mpr
        ⟨two f member, inside f member⟩⟩

/-- `fn x => x` applied to 5. -/
def identityApplied : Expression :=
  .apply ⟨0, 0⟩ (.lambda ⟨0, 0⟩ 1 (.identifier ⟨0, 0⟩ 1))
    (.integerConstant ⟨0, 0⟩ 5)

/-- The frames of `(fn x => x) 5`. -/
theorem frames_fit_identity : ∃ funcId after,
    compileModule zeroedInput identityApplied = .ok (funcId, after) ∧
      FramesFit after.module := by
  have compiled : compiledErrors zeroedInput identityApplied = some [] := by
    decide +kernel
  rcases compiledErrors_ok compiled with ⟨funcId, after, returns, quiet⟩
  exact ⟨funcId, after, returns,
    (frames_fit_iff returns quiet).mpr (by decide +kernel)⟩

/-- The entry function of `5` has one register. -/
theorem frames_literal : ∃ funcId after,
    compileModule zeroedInput (.integerConstant ⟨0, 0⟩ 5) =
        .ok (funcId, after) ∧ after.errors = [] ∧ ¬FramesFit after.module := by
  have compiled : compiledErrors zeroedInput (.integerConstant ⟨0, 0⟩ 5) =
      some [] := by
    decide +kernel
  have entered : compiledEntry zeroedInput (.integerConstant ⟨0, 0⟩ 5) =
      some (1, some ⟨[1, 5, 0, 0], 4, 1, 0, .staticClosure 0, 0⟩) := by
    decide +kernel
  rcases compiledErrors_ok compiled with ⟨funcId, after, returns, quiet⟩
  refine ⟨funcId, after, returns, quiet, fun fits => ?_⟩
  simp only [compiledEntry, returns, Except.toOption, Option.map_some,
    Option.some.injEq, Prod.mk.injEq] at entered
  rcases fits 0 (by omega) with ⟨entry, stored, inside⟩
  cases entered.2.symm.trans stored
  exact absurd inside.entered (by decide)

end Millie.Compiler
