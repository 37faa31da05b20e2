import Millie.Compiler.Generator

/-!
# The compiler emits the structured code

`compileExpression` works on a byte buffer that grows, leaves holes for jump
offsets and seeks back to patch them.  Whenever it succeeds, the bytes it has
appended are those of the code that `emit` generates from the view of the
starting state, and its result register and final view are those of `emit`.
-/

namespace Millie.Compiler

open Millie.Symbols Millie.Syntax Millie.Machine

/-! ## Views of compile states -/

/-- What code generation depends on in a compile state. -/
def view (state : CompileState) : View where
  registers := state.context.maxRegisters
  bindings := state.context.bindings.cells
  top := state.context.bindingTop
  closure := state.context.closureSymbols.front state.context.closureTop
  module := state.module
  errors := state.errors
  finished := state.finished
  searched := state.searched

/-- The code written so far. -/
def written (state : CompileState) : List UInt8 :=
  state.context.code.front state.context.codeWrite

/-- The context's indices lie in its blocks. -/
structure Contained (context : CompileContext) : Prop where
  codeSize : context.code.size = context.codeCapacity
  codeWrite : context.codeWrite ≤ context.codeCapacity
  codeRoom : initialCodeCapacity ≤ context.codeCapacity
  codeDoubled : ∃ count ≤ 24,
    context.codeCapacity = initialCodeCapacity * 2 ^ count
  registers :
    context.integerRegisters = UInt8.ofNat context.maxRegisters
  bindingSize : context.bindings.size = 8
  bindingCapacity : context.bindingCapacity = 64
  bindingTop : context.bindingTop ≤ 8
  closureSize : context.closureSymbols.size = 16
  closureCapacity : context.closureCapacity = 64
  closureTop : context.closureTop ≤ 16

theorem initCompileContext_contained (uninit : Nat → CompileBinding) :
    Contained (initCompileContext uninit) := by
  constructor
  case codeDoubled => exact ⟨0, Nat.zero_le 24, rfl⟩
  all_goals
    simp [initCompileContext, initialCodeCapacity, initialBindingCapacity,
      sizeofCompileBinding, sizeofSymbol, Buffer.malloc]

/-! ## Steps that generate code -/

/-- A value, the bytes appended and the view left behind. -/
structure Outcome (α : Type) where
  value : α
  bytes : List UInt8
  view : View

namespace Outcome

variable {α β : Type}

/-- Continue from an outcome. -/
def andThen (outcome : Outcome α) (next : α → View → Outcome β) :
    Outcome β :=
  let rest := next outcome.value outcome.view
  ⟨rest.value, outcome.bytes ++ rest.bytes, rest.view⟩

end Outcome

/-- The outcome that an emission describes. -/
def Emission.outcome (emission : Emission) : Outcome UInt8 :=
  ⟨emission.reg, emission.code.bytes, emission.view⟩

/-- The closures of finished functions fit the block that collects them. -/
def SmallClosures (finished : List (Nat × CompiledExpression)) : Prop :=
  ∀ pair ∈ finished, pair.2.closureLength ≤ 16

theorem SmallClosures.congr {state after : CompileState}
    (same : view after = view state)
    (small : SmallClosures state.finished) : SmallClosures after.finished := by
  have finished : after.finished = state.finished :=
    congrArg View.finished same
  exact finished ▸ small

/-- One state extends another by an outcome. -/
structure Reaches {α : Type} (state after : CompileState) (value : α)
    (outcome : Outcome α) : Prop where
  contained : Contained after.context
  value : value = outcome.value
  written : written after = written state ++ outcome.bytes
  view : view after = outcome.view
  small : SmallClosures state.finished → SmallClosures after.finished

/-- Whenever the step succeeds, it does what the outcome says. -/
def Generates {α : Type} (step : CompileM α) (outcome : View → Outcome α) :
    Prop :=
  ∀ state value after, Contained state.context →
    step state = .ok (value, after) →
    Reaches state after value (outcome (view state))

theorem bind_ok_iff {α β : Type} {step : CompileM α}
    {next : α → CompileM β} {state : CompileState}
    {result : β × CompileState} :
    (step >>= next) state = .ok result ↔
      ∃ value middle, step state = .ok (value, middle) ∧
        next value middle = .ok result := by
  simp only [bind, StateT.bind]
  cases step state with
  | error stop => simp [Except.bind]
  | ok pair =>
      rcases pair with ⟨value, middle⟩
      simp [Except.bind]

namespace Generates

variable {α β : Type}

theorem congr {step : CompileM α} {outcome outcome' : View → Outcome α}
    (generates : Generates step outcome)
    (same : ∀ view, outcome view = outcome' view) :
    Generates step outcome' := by
  intro state value after contained ok
  rw [← same]
  exact generates state value after contained ok

theorem ret (value : α) :
    Generates (pure value : CompileM α) fun view => ⟨value, [], view⟩ := by
  intro state result after contained ok
  cases ok
  exact ⟨contained, rfl, by simp, rfl, id⟩

/-- Steps generate in sequence. -/
theorem bind {step : CompileM α} {outcome : View → Outcome α}
    {next : α → CompileM β} {following : α → View → Outcome β}
    (generates : Generates step outcome)
    (continues : ∀ value, Generates (next value) (following value)) :
    Generates (step >>= next) fun view =>
      (outcome view).andThen following := by
  intro state result after contained ok
  rcases bind_ok_iff.mp ok with ⟨value, middle, stepOk, nextOk⟩
  have first := generates state value middle contained stepOk
  have second := continues value middle result after first.contained nextOk
  rw [first.value, first.view] at second
  refine ⟨second.contained, second.value, ?_, second.view,
    fun small => second.small (first.small small)⟩
  rw [second.written, first.written, List.append_assoc]
  rfl

end Generates

/-! ## Writing code -/

/-- What `_EnsureCodeCapacity` leaves of a context when it returns. -/
structure Ensured (more : Nat) (context grown : CompileContext) : Prop where
  contained : Contained grown
  room : more ≤ initialCodeCapacity →
    context.codeWrite + more ≤ grown.codeCapacity
  larger : context.codeCapacity ≤ grown.codeCapacity
  kept : ∀ count ≤ context.codeCapacity,
    grown.code.front count = context.code.front count
  others : grown =
    { context with code := grown.code, codeCapacity := grown.codeCapacity }

theorem ensureCodeCapacity_ok {context grown : CompileContext} {more : Nat}
    (contained : Contained context)
    (ok : ensureCodeCapacity more context = .ok grown) :
    Ensured more context grown := by
  have room := contained.codeRoom
  have inside := contained.codeWrite
  unfold ensureCodeCapacity at ok
  split at ok
  · split at ok
    · rename_i below
      cases ok
      rcases contained.codeDoubled with ⟨count, -, capacity⟩
      have doubled : context.codeCapacity * 2 =
          initialCodeCapacity * 2 ^ (count + 1) := by
        rw [capacity, Nat.pow_succ, Nat.mul_assoc]
      have few : 2 ^ (count + 1) < 2 ^ 25 := by
        rw [doubled, initialCodeCapacity, intLimit] at below
        omega
      have count_ : count + 1 < 25 :=
        (Nat.pow_lt_pow_iff_right (by decide)).mp few
      refine ⟨{ contained with
          codeSize := rfl
          codeWrite := ?_
          codeRoom := ?_
          codeDoubled := ⟨count + 1, by omega, doubled⟩ },
        fun small => ?_, ?_, fun _ kept => ?_, rfl⟩
      · change context.codeWrite ≤ context.codeCapacity * 2
        omega
      · change _ ≤ context.codeCapacity * 2
        omega
      · change _ ≤ context.codeCapacity * 2
        omega
      · change _ ≤ context.codeCapacity * 2
        omega
      · exact Buffer.front_realloc (contained.codeSize.symm ▸ kept)
    · cases ok
  · cases ok
    exact ⟨contained, fun _ => by omega, Nat.le_refl _, fun _ _ => rfl, rfl⟩

namespace Ensured

variable {more : Nat} {context grown : CompileContext}

theorem codeWrite (ensured : Ensured more context grown) :
    grown.codeWrite = context.codeWrite := by
  rw [ensured.others]

/-- Everything but the code buffer. -/
theorem view (state : CompileState)
    (ensured : Ensured more state.context grown) :
    view { state with context := grown } = view state := by
  rw [ensured.others]
  rfl

end Ensured

theorem putByte_ok {context after : CompileContext} {value : UInt8}
    (contained : Contained context) (ok : putByte value context = .ok after) :
    Contained after ∧
      after.code.front after.codeWrite =
        context.code.front context.codeWrite ++ [value] ∧
      after = { context with
        code := after.code, codeWrite := context.codeWrite + 1 } := by
  unfold putByte at ok
  cases wrote : context.code.write context.codeWrite value with
  | error stop => simp [wrote] at ok
  | ok code =>
      simp only [wrote, Stop.ok_bind] at ok
      cases ok
      rcases Buffer.write_ok wrote with ⟨inside, size, -⟩
      have inside' := contained.codeSize ▸ inside
      refine ⟨{ contained with codeSize := ?_, codeWrite := ?_ },
        Buffer.front_write_end wrote, rfl⟩
      · exact size.trans contained.codeSize
      · exact inside'

theorem putBytes_ok {bytes : List UInt8} {context after : CompileContext}
    (contained : Contained context)
    (ok : putBytes bytes context = .ok after) :
    Contained after ∧
      after.code.front after.codeWrite =
        context.code.front context.codeWrite ++ bytes ∧
      after = { context with
        code := after.code
        codeWrite := context.codeWrite + bytes.length } := by
  induction bytes generalizing context with
  | nil =>
      cases ok
      exact ⟨contained, by simp, rfl⟩
  | cons byte bytes ih =>
      cases put : putByte byte context with
      | error stop => simp [putBytes, put] at ok
      | ok middle =>
          simp only [putBytes, put, Stop.ok_bind] at ok
          rcases putByte_ok contained put with
            ⟨middleContained, middleFront, middleIs⟩
          rcases ih middleContained ok with
            ⟨afterContained, afterFront, afterIs⟩
          refine ⟨afterContained, ?_, ?_⟩
          · rw [afterFront, middleFront, List.append_assoc]
            rfl
          · rw [afterIs, middleIs]
            simp [Nat.add_assoc, Nat.add_comm 1]

theorem writeCode_generates (more : Nat) (bytes : List UInt8) :
    Generates (writeCode more bytes) fun view => ⟨(), bytes, view⟩ := by
  intro state value after contained ok
  unfold writeCode onContext at ok
  cases ensure : ensureCodeCapacity more state.context with
  | error stop => simp [ensure] at ok
  | ok grown =>
      have ensured := ensureCodeCapacity_ok contained ensure
      simp only [ensure, Stop.ok_bind] at ok
      cases put : putBytes bytes grown with
      | error stop => simp [put] at ok
      | ok context =>
          simp only [put, Stop.ok_bind] at ok
          cases ok
          rcases putBytes_ok ensured.contained put with
            ⟨putContained, front, putIs⟩
          refine ⟨putContained, rfl, ?_, ?_, id⟩
          · rw [ensured.codeWrite, ensured.kept _ contained.codeWrite] at front
            exact front
          · rw [putIs, ← ensured.view state]
            rfl

theorem writeCodeU8_generates (value : UInt8) :
    Generates (writeCodeU8 value) fun view => ⟨(), [value], view⟩ :=
  writeCode_generates _ _

theorem writeCodeU16_generates (value : UInt16) :
    Generates (writeCodeU16 value) fun view =>
      ⟨(), bytesU16 value, view⟩ :=
  writeCode_generates _ _

theorem writeCodeU32_generates (value : UInt32) :
    Generates (writeCodeU32 value) fun view =>
      ⟨(), bytesU32 value, view⟩ :=
  writeCode_generates _ _

theorem writeCodeU64_generates (value : UInt64) :
    Generates (writeCodeU64 value) fun view =>
      ⟨(), bytesU64 value, view⟩ :=
  writeCode_generates _ _

theorem writeOpcode_generates (opcode : Opcode) :
    Generates (writeOpcode opcode) fun view =>
      ⟨(), [opcode.byte], view⟩ :=
  writeCode_generates _ _

/-! ## Registers, bindings and errors -/

theorem getFreeIntRegister_generates :
    Generates getFreeIntRegister fun view =>
      ⟨view.nextReg, [], view.take⟩ := by
  intro state value after contained ok
  cases ok
  refine ⟨{ contained with registers := ?_ }, ?_, by simp [written], rfl, id⟩
  · simp [contained.registers]
  · simp [contained.registers, View.nextReg, view]

theorem pushBinding_generates (symbol : Symbol) (reg : UInt8) :
    Generates (pushBinding symbol reg) fun view =>
      ⟨(), [], view.push symbol reg⟩ := by
  intro state value after contained ok
  have full : state.context.bindingTop ≠ state.context.bindingCapacity := by
    have := contained.bindingTop
    rw [contained.bindingCapacity]
    omega
  unfold pushBinding onContext at ok
  simp only [if_neg full] at ok
  cases wrote : state.context.bindings.write state.context.bindingTop
      ⟨symbol, reg⟩ with
  | error stop => simp [wrote] at ok
  | ok bindings =>
      simp only [wrote, Stop.ok_bind] at ok
      cases ok
      rcases Buffer.write_ok wrote with ⟨inside, size, cells⟩
      have inside' := contained.bindingSize ▸ inside
      refine ⟨{ contained with bindingSize := ?_, bindingTop := ?_ }, rfl,
        by simp [written], ?_, id⟩
      · exact size.trans contained.bindingSize
      · exact inside'
      · simp [view, View.push, cells]

theorem popBinding_generates :
    Generates popBinding fun view => ⟨(), [], view.pop⟩ := by
  intro state value after contained ok
  cases ok
  refine ⟨{ contained with bindingTop := ?_ }, rfl, by simp [written], rfl, id⟩
  have := contained.bindingTop
  dsimp only
  omega

theorem reportCompileError_generates (input : CompileInput)
    (range : TokenRange) (error : String) :
    Generates (reportCompileError input range error) fun view =>
      ⟨(), [], view.report input range error⟩ := by
  intro state value after contained ok
  cases ok
  exact ⟨contained, rfl, by simp [written], rfl, id⟩

/-! ## Literals and identifiers -/

/-- An opcode, its operand bytes and the destination register. -/
theorem load_generates (opcode : Opcode) {operands : CompileM Unit}
    {bytes : List UInt8}
    (generates : Generates operands fun view => ⟨(), bytes, view⟩)
    (reg : UInt8) :
    Generates
      (do
        writeOpcode opcode
        operands
        writeCodeU8 reg
        return reg)
      fun view => ⟨reg, opcode.byte :: (bytes ++ [reg]), view⟩ :=
  ((writeOpcode_generates opcode).bind fun _ =>
    generates.bind fun _ =>
      (writeCodeU8_generates reg).bind fun _ => Generates.ret reg).congr
    fun _ => by simp [Outcome.andThen]

theorem writeLoadLiteral_generates (value : UInt64) :
    Generates (writeLoadLiteral value) fun view =>
      (emitLiteral value view).outcome := by
  unfold writeLoadLiteral
  by_cases byte : value ≤ 0xFF
  · simp only [byte, if_true]
    refine (getFreeIntRegister_generates.bind fun reg =>
      load_generates .loadi8 (writeCodeU8_generates _) reg).congr ?_
    intro view
    simp [Outcome.andThen, Emission.outcome, emitLiteral, Code.bytes,
      literalInstruction, instructionBytes, byte]
  by_cases word : value ≤ 0xFFFF
  · simp only [byte, word, if_true, if_false]
    refine (getFreeIntRegister_generates.bind fun reg =>
      load_generates .loadi16 (writeCodeU16_generates _) reg).congr ?_
    intro view
    simp [Outcome.andThen, Emission.outcome, emitLiteral, Code.bytes,
      literalInstruction, instructionBytes, byte, word]
  by_cases double : value ≤ 0xFFFFFFFF
  · simp only [byte, word, double, if_true, if_false]
    refine (getFreeIntRegister_generates.bind fun reg =>
      load_generates .loadi32 (writeCodeU32_generates _) reg).congr ?_
    intro view
    simp [Outcome.andThen, Emission.outcome, emitLiteral, Code.bytes,
      literalInstruction, instructionBytes, byte, word, double]
  · simp only [byte, word, double, if_false]
    refine (getFreeIntRegister_generates.bind fun reg =>
      load_generates .loadi64 (writeCodeU64_generates _) reg).congr ?_
    intro view
    simp [Outcome.andThen, Emission.outcome, emitLiteral, Code.bytes,
      literalInstruction, instructionBytes, byte, word, double]

theorem findBinding_ok {bindings : Buffer CompileBinding} {id : Symbol}
    {top : Nat} {found : Option UInt8}
    (ok : findBinding bindings id top = .ok found) :
    found = View.search bindings.cells id top := by
  induction top with
  | zero =>
      cases read : bindings.read 0 with
      | error stop => simp [findBinding, read] at ok
      | ok binding =>
          simp only [findBinding, read, Stop.ok_bind] at ok
          cases ok
          rw [(Buffer.read_ok read).2]
          rfl
  | succ top ih =>
      cases read : bindings.read (top + 1) with
      | error stop => simp [findBinding, read] at ok
      | ok binding =>
          simp only [findBinding, read, Stop.ok_bind,
            (Buffer.read_ok read).2] at ok
          unfold View.search
          split at ok
          · rename_i same
            rw [if_pos same]
            exact (Except.ok.inj ok).symm
          · rename_i other
            rw [if_neg other]
            exact ih ok

theorem searchBindings_generates (id : Symbol) :
    Generates (searchBindings id) fun view =>
      let found := View.search view.bindings id view.top
      ⟨found, [], view.log id found⟩ := by
  intro state value after contained ok
  unfold searchBindings at ok
  cases found : findBinding state.context.bindings id
      state.context.bindingTop with
  | error stop => simp [found] at ok
  | ok bound =>
      simp only [found, Stop.ok_bind] at ok
      cases ok
      have same := findBinding_ok found
      refine ⟨contained, same, by simp [written], ?_, fun small => small⟩
      simp only [view, View.log, same]

theorem closureOffset_generates (id : Symbol) :
    Generates (closureOffset id) fun view =>
      ⟨view.closure.idxOf id, [],
        { view with closure := View.close view.closure id }⟩ := by
  intro state value after contained ok
  have notFull : state.context.closureCapacity ≠ state.context.closureTop := by
    have := contained.closureTop
    rw [contained.closureCapacity]
    omega
  unfold closureOffset onContext at ok
  dsimp only at ok
  by_cases member : id ∈ state.context.closureSymbols.front
      state.context.closureTop
  · rw [if_pos member] at ok
    cases ok
    exact ⟨contained, rfl, by simp [written],
      by simp [view, View.close, member], fun small => small⟩
  · rw [if_neg member, if_neg notFull] at ok
    cases wrote : state.context.closureSymbols.write
        state.context.closureTop id with
    | error stop => simp [wrote] at ok
    | ok closureSymbols =>
        simp only [wrote, Stop.ok_bind] at ok
        cases ok
        rcases Buffer.write_ok wrote with ⟨inside, size, -⟩
        have inside' := contained.closureSize ▸ inside
        refine ⟨{ contained with closureSize := ?_, closureTop := ?_ }, ?_,
          by simp [written], ?_, fun small => small⟩
        · exact size.trans contained.closureSize
        · exact inside'
        · exact ((List.idxOf_eq_length_iff.mpr member).trans
            (Buffer.length_front _ _)).symm
        · simp [view, View.close, member, Buffer.front_write_end wrote]

/-- The load of a closed symbol, as a step of its own. -/
theorem loadClosed_generates (id : Symbol) :
    Generates
      (do
        let offset ← closureOffset id
        let loadTarget ← getFreeIntRegister
        writeOpcode .loada64
        writeCodeU8 0
        writeCodeU16 (UInt16.ofNat offset + 1)
        writeCodeU8 loadTarget
        return loadTarget)
      fun view =>
        ⟨view.nextReg,
          instructionBytes (.loada64 0
            (UInt16.ofNat (view.closure.idxOf id) + 1) view.nextReg),
          { view.take with closure := View.close view.closure id }⟩ :=
  ((closureOffset_generates id).bind fun offset =>
    getFreeIntRegister_generates.bind fun loadTarget =>
      (writeOpcode_generates _).bind fun _ =>
        (writeCodeU8_generates _).bind fun _ =>
          (writeCodeU16_generates _).bind fun _ =>
            (writeCodeU8_generates _).bind fun _ =>
              Generates.ret loadTarget).congr
    fun _ => by
      simp [Outcome.andThen, instructionBytes, View.nextReg, View.take]

theorem compileIdentifierImpl_generates (id : Symbol) :
    Generates (compileIdentifierImpl id) fun view =>
      (emitIdentifier id view).outcome := by
  intro state value after contained ok
  rcases bind_ok_iff.mp ok with ⟨bound, middle, searchOk, restOk⟩
  have first := searchBindings_generates id state bound middle contained searchOk
  have found : View.search (view state).bindings id (view state).top = bound :=
    first.value.symm
  have middleView : view middle = (view state).log id bound :=
    first.view.trans (congrArg ((view state).log id) found)
  cases bound with
  | some reg =>
      change Reaches state after value (emitIdentifier id (view state)).outcome
      rw [emitIdentifier_bound found]
      cases restOk
      exact ⟨first.contained, rfl, first.written, middleView, first.small⟩
  | none =>
      change Reaches state after value (emitIdentifier id (view state)).outcome
      rw [emitIdentifier_closed found]
      have second := loadClosed_generates id middle value after
        first.contained restOk
      rw [middleView] at second
      refine ⟨second.contained, second.value, ?_, second.view,
        fun small => second.small (first.small small)⟩
      rw [second.written, first.written, List.append_nil]
      rfl

/-! ## Functions -/

/-- An outcome without a value. -/
def unitOutcome (generated : Code × View) : Outcome Unit :=
  ⟨(), generated.1.bytes, generated.2⟩

theorem storeClosedValues_generates (closureRegister : UInt8)
    (symbols : List Symbol) (i : Nat) :
    Generates (storeClosedValues closureRegister i symbols) fun view =>
      unitOutcome (emitClosedValues closureRegister i symbols view) := by
  induction symbols generalizing i with
  | nil => exact Generates.ret ()
  | cons symbol symbols ih =>
      refine ((compileIdentifierImpl_generates symbol).bind fun idReg =>
        (writeOpcode_generates _).bind fun _ =>
          (writeCodeU8_generates _).bind fun _ =>
            (writeCodeU16_generates _).bind fun _ =>
              (writeCodeU8_generates _).bind fun _ => ih (i + 1)).congr ?_
      intro view
      simp [Outcome.andThen, Emission.outcome, unitOutcome, emitClosedValues,
        Code.bytes, instructionBytes]

/-- What finishing a function leaves in the module and the ghost record. -/
theorem finishCompile_ok {funcId : Nat} {result : EntryPointer}
    {state after : CompileState} {body : Emission} {top : Nat} {value : Unit}
    (contained : Contained state.context)
    (code : written state = body.code.bytes)
    (viewed : view state = { body.view with top := top })
    (ok : finishCompile body.reg funcId result state = .ok (value, after)) :
    after.module =
        body.view.module.store result (finishedEntry funcId body) ∧
      after.errors = body.view.errors ∧
      after.finished =
        body.view.finished ++ [(funcId, finishedEntry funcId body)] ∧
      after.searched = body.view.searched ∧
      (SmallClosures state.finished → SmallClosures after.finished) := by
  rcases bind_ok_iff.mp ok with ⟨_, middle, retOk, storeOk⟩
  have ret := writeOpcode_generates .ret state _ middle contained retOk
  have same : view middle = { body.view with top := top } :=
    ret.view.trans viewed
  have front : middle.context.code.front middle.context.codeWrite =
      body.code.bytes ++ instructionBytes .ret :=
    ret.written.trans (congrArg (· ++ _) code)
  have length : middle.context.codeWrite =
      (body.code.bytes ++ instructionBytes .ret).length := by
    rw [← front, Buffer.length_front]
  have closed : middle.context.closureSymbols.front
      middle.context.closureTop = body.view.closure :=
    congrArg View.closure same
  have closedLength : middle.context.closureTop =
      body.view.closure.length := by
    rw [← closed, Buffer.length_front]
  have registers : middle.context.maxRegisters = body.view.registers :=
    congrArg View.registers same
  have entry : (CompiledExpression.mk
      (middle.context.code.front middle.context.codeWrite)
      middle.context.codeWrite middle.context.maxRegisters
      middle.context.closureTop
      (if middle.context.closureTop > 0 then
        .closure (middle.context.closureSymbols.front
          middle.context.closureTop)
      else .staticClosure funcId)
      body.reg) = finishedEntry funcId body := by
    rw [front, closed, registers, length, closedLength]
    rfl
  dsimp only at storeOk
  rw [entry] at storeOk
  cases storeOk
  refine ⟨?_, congrArg View.errors same, ?_, congrArg View.searched same, ?_⟩
  · exact congrArg (Module.store · _ _) (congrArg View.module same)
  · exact congrArg (· ++ _) (congrArg View.finished same)
  · intro small
    refine List.forall_mem_append.mpr ⟨ret.small small, ?_⟩
    refine List.forall_mem_singleton.mpr ?_
    change body.view.closure.length ≤ 16
    exact closedLength ▸ ret.contained.closureTop

/-- The emission of a function's body and its pops. -/
def frameOutcome (lambdaId selfId : Symbol) (body : View → Emission)
    (view : View) : Outcome UInt8 :=
  let inner :=
    if selfId ≠ invalidSymbol then view.take.push selfId view.nextReg
    else view.take
  let emission := body (inner.take.push lambdaId inner.nextReg)
  ⟨emission.reg, emission.code.bytes,
    if selfId ≠ invalidSymbol then emission.view.pop.pop
    else emission.view.pop⟩

theorem compileFrame_generates (lambdaId selfId : Symbol)
    {lambdaBody : CompileM UInt8} {body : View → Emission}
    (generates : Generates lambdaBody fun view => (body view).outcome) :
    Generates (compileFrame lambdaId lambdaBody selfId)
      (frameOutcome lambdaId selfId body) := by
  unfold compileFrame frameOutcome
  by_cases named : selfId ≠ invalidSymbol
  · simp only [if_pos named]
    refine (getFreeIntRegister_generates.bind fun selfRegister =>
      (pushBinding_generates _ _).bind fun _ =>
        getFreeIntRegister_generates.bind fun argRegister =>
          (pushBinding_generates _ _).bind fun _ =>
            generates.bind fun retRegister =>
              popBinding_generates.bind fun _ =>
                popBinding_generates.bind fun _ =>
                  Generates.ret retRegister).congr ?_
    intro view
    simp [Outcome.andThen, Emission.outcome]
  · simp only [if_neg named]
    refine (getFreeIntRegister_generates.bind fun selfRegister =>
      getFreeIntRegister_generates.bind fun argRegister =>
        (pushBinding_generates _ _).bind fun _ =>
          generates.bind fun retRegister =>
            popBinding_generates.bind fun _ =>
              Generates.ret retRegister).congr ?_
    intro view
    simp [Outcome.andThen, Emission.outcome]

/-- The fresh context of a function, seen as a view. -/
theorem frameOutcome_fresh (input : CompileInput) (lambdaId selfId : Symbol)
    (body : View → Emission) (funcId : Nat) (outer : View) :
    let emission := body (functionView input lambdaId selfId funcId outer)
    let outcome := frameOutcome lambdaId selfId body
      { outer with
        registers := 0, bindings := input.uninit funcId, top := 0
        closure := [] }
    outcome.value = emission.reg ∧ outcome.bytes = emission.code.bytes ∧
      outcome.view = { emission.view with top := outcome.view.top } := by
  by_cases named : selfId ≠ invalidSymbol
  · simp [frameOutcome, functionView, named, View.push, View.take,
      View.nextReg, View.pop]
  · simp [frameOutcome, functionView, named, View.push, View.take,
      View.nextReg, View.pop]

theorem compileFunction_ok {input : CompileInput} {lambdaId selfId : Symbol}
    {lambdaBody : CompileM UInt8} {body : View → Emission}
    {state after : CompileState} {value : Nat × EntryPointer}
    (generates : Generates lambdaBody fun view => (body view).outcome)
    (contained : Contained state.context)
    (ok : compileFunction input lambdaId lambdaBody selfId state =
      .ok (value, after)) :
    let added := addFunction state.module
    value = (added.2.1, added.1) ∧ Contained after.context ∧
      written after = written state ∧
      view after = finishFunction added.2.1 added.1
        (emitBody input lambdaId selfId body (view state)) (view state) ∧
      (SmallClosures state.finished → SmallClosures after.finished) := by
  intro added
  rcases bind_ok_iff.mp ok with ⟨_, started, startOk, ok⟩
  cases startOk
  rcases bind_ok_iff.mp ok with ⟨_, entered, enterOk, ok⟩
  cases enterOk
  rcases bind_ok_iff.mp ok with ⟨ret, compiled, frameOk, ok⟩
  have frame := compileFrame_generates lambdaId selfId generates _ ret
    compiled (initCompileContext_contained _) frameOk
  rcases frameOutcome_fresh input lambdaId selfId body added.2.1
    { view state with module := added.2.2 } with ⟨reg, bytes, inner⟩
  have retIs : ret = (emitBody input lambdaId selfId body (view state)).reg :=
    frame.value.trans reg
  have bytesIs : written compiled =
      (emitBody input lambdaId selfId body (view state)).code.bytes :=
    frame.written.trans bytes
  have viewIs := frame.view.trans inner
  rcases bind_ok_iff.mp ok with ⟨_, finished, finishOk, ok⟩
  rcases bind_ok_iff.mp ok with ⟨_, _, returnOk, ok⟩
  cases returnOk
  cases ok
  rw [retIs] at finishOk
  rcases finishCompile_ok frame.contained bytesIs viewIs finishOk with
    ⟨moduleIs, errorsIs, finishedIs, searchedIs, small⟩
  refine ⟨rfl, contained, rfl, ?_, fun before => small (frame.small before)⟩
  simp only [view, finishFunction, moduleIs, errorsIs, finishedIs, searchedIs]
  rfl

/-- The entry behind a pointer, or an empty one. -/
def Module.loaded (module : Module) (pointer : EntryPointer) :
    CompiledExpression :=
  (module.blocks pointer.block pointer.index).getD
    ⟨[], 0, 0, 0, .closure [], 0⟩

@[simp]
theorem Module.loaded_store (module : Module) (pointer : EntryPointer)
    (entry : CompiledExpression) :
    (module.store pointer entry).loaded pointer = entry := by
  simp [Module.loaded, Module.store]

theorem loadEntry_generates (result : EntryPointer) :
    Generates
      (fun state => do
        let entry ← state.module.load result
        return (entry, state))
      fun view => ⟨view.module.loaded result, [], view⟩ := by
  intro state value after contained ok
  cases entry : state.module.blocks result.block result.index with
  | none => simp [Module.load, entry] at ok
  | some found =>
      simp only [Module.load, entry, Stop.ok_bind] at ok
      cases ok
      exact ⟨contained, by simp [Module.loaded, view, entry],
        by simp [written], rfl, id⟩

theorem closedSymbols_finishedEntry (funcId : Nat) (body : Emission) :
    (finishedEntry funcId body).closedSymbols = body.view.closure := by
  unfold finishedEntry CompiledExpression.closedSymbols
  by_cases closed : body.view.closure.length > 0
  · simp [closed]
  · have none : body.view.closure = [] :=
      List.length_eq_zero_iff.mp (by omega)
    simp [none]

theorem compileLambdaImpl_generates (input : CompileInput)
    (lambdaId selfId : Symbol) {lambdaBody : CompileM UInt8}
    {body : View → Emission} (closureRegister : UInt8)
    (generates : Generates lambdaBody fun view => (body view).outcome) :
    Generates
      (compileLambdaImpl input lambdaId lambdaBody selfId closureRegister)
      fun view =>
        (emitLambdaImpl input lambdaId body selfId closureRegister
          view).outcome := by
  intro state value after contained ok
  rcases bind_ok_iff.mp ok with ⟨function, compiled, functionOk, ok⟩
  rcases compileFunction_ok generates contained functionOk with
    ⟨functionIs, compiledContained, compiledWritten, compiledView, small⟩
  cases functionIs
  have rest := ((writeLoadLiteral_generates _).bind fun idReg =>
    (writeOpcode_generates _).bind fun _ =>
      (writeCodeU8_generates idReg).bind fun _ =>
        (writeCodeU8_generates closureRegister).bind fun _ =>
          (loadEntry_generates _).bind fun entry =>
            (storeClosedValues_generates closureRegister
              entry.closedSymbols 0).bind fun _ =>
              Generates.ret closureRegister)
    compiled value after compiledContained ok
  rw [compiledView] at rest
  refine ⟨rest.contained, rest.value, ?_, ?_,
    fun before => rest.small (small before)⟩
  · rw [rest.written, compiledWritten]
    simp [Outcome.andThen, Emission.outcome, unitOutcome, emitLambdaImpl,
      Code.bytes, instructionBytes, emitLiteral, View.take, finishFunction,
      closedSymbols_finishedEntry]
    rfl
  · rw [rest.view]
    simp [Outcome.andThen, Emission.outcome, unitOutcome, emitLambdaImpl,
      emitLiteral, View.take, finishFunction, closedSymbols_finishedEntry]
    rfl

/-! ## Jumps -/

theorem codeOffset_bind {α : Type} (next : Nat → CompileM α)
    (state : CompileState) :
    (codeOffset >>= next) state = next (written state).length state :=
  congrArg (next · state) (Buffer.length_front _ _).symm

/-- The hole holds two bytes, whatever they are. -/
theorem reserveOffset_ok {state after : CompileState} {value : Unit}
    (contained : Contained state.context)
    (ok : reserveOffset state = .ok (value, after)) :
    Contained after.context ∧ view after = view state ∧
      ∃ low high, written after = written state ++ [low, high] := by
  unfold reserveOffset onContext at ok
  cases ensure : ensureCodeCapacity 2 state.context with
  | error stop => simp [ensure] at ok
  | ok grown =>
      have ensured := ensureCodeCapacity_ok contained ensure
      simp only [ensure, Stop.ok_bind] at ok
      cases ok
      have room : grown.codeWrite + 2 ≤ grown.codeCapacity :=
        ensured.codeWrite ▸ ensured.room (by decide)
      refine ⟨{ ensured.contained with codeWrite := room }, ensured.view state, ?_⟩
      refine ⟨grown.code.cells state.context.codeWrite,
        grown.code.cells (state.context.codeWrite + 1), ?_⟩
      simp only [written, ensured.codeWrite]
      rw [Buffer.front_succ, Buffer.front_succ,
        ensured.kept _ contained.codeWrite, List.append_assoc]
      rfl

/-- Writing bytes over bytes that are already written. -/
theorem putBytes_over {bytes old post : List UInt8} {pre : List UInt8}
    {context after : CompileContext} {count : Nat}
    (before : context.code.front count = pre ++ old ++ post)
    (sameLength : old.length = bytes.length)
    (at_ : context.codeWrite = pre.length)
    (ok : putBytes bytes context = .ok after) :
    after.code.front count = pre ++ bytes ++ post ∧
      after.code.size = context.code.size ∧
      after = { context with
        code := after.code
        codeWrite := context.codeWrite + bytes.length } := by
  induction bytes generalizing context pre old with
  | nil =>
      cases ok
      rw [List.length_nil] at sameLength
      rw [List.length_eq_zero_iff.mp sameLength] at before
      exact ⟨before, rfl, rfl⟩
  | cons byte bytes ih =>
      cases old with
      | nil => simp at sameLength
      | cons oldByte old =>
          cases wrote : context.code.write context.codeWrite byte with
          | error stop => simp [putBytes, putByte, wrote] at ok
          | ok code =>
              simp only [putBytes, putByte, wrote, Stop.ok_bind] at ok
              have front : code.front count = (pre ++ [byte]) ++ old ++ post := by
                rw [Buffer.front_write_inside wrote, before, at_]
                simp
              rcases ih front (by simpa using sameLength) (by simp [at_]) ok
                with ⟨afterFront, afterSize, afterIs⟩
              refine ⟨by simpa using afterFront,
                afterSize.trans (Buffer.write_ok wrote).2.1, ?_⟩
              rw [afterIs]
              simp [Nat.add_assoc, Nat.add_comm 1]

theorem length_bytesU16 (value : UInt16) : (bytesU16 value).length = 2 :=
  rfl

/-- Patching replaces the hole by the distance to the write pointer. -/
theorem patchOffset_ok {target location : Nat} {pre post : List UInt8}
    {low high : UInt8} {state after : CompileState} {value : Unit}
    (contained : Contained state.context)
    (before : written state = pre ++ [low, high] ++ post)
    (target_ : target = pre.length)
    (location_ : location = (written state).length)
    (ok : patchOffset target location state = .ok (value, after)) :
    Contained after.context ∧ view after = view state ∧
      written after =
        pre ++ bytesU16 (UInt16.ofNat post.length) ++ post := by
  have distance : location - target - 2 = post.length := by
    rw [location_, target_, before]
    simp only [List.length_append, List.length_cons, List.length_nil]
    omega
  have here : location = state.context.codeWrite := by
    rw [location_, written, Buffer.length_front]
  rcases bind_ok_iff.mp ok with ⟨_, sought, seekOk, ok⟩
  cases seekOk
  rcases bind_ok_iff.mp ok with ⟨_, patched, writeOk, seekOk⟩
  cases seekOk
  have inside : target ≤ state.context.codeCapacity := by
    have := contained.codeWrite
    have := congrArg List.length before
    simp only [written, Buffer.length_front, List.length_append] at this
    omega
  have moved : Contained { state.context with codeWrite := target } :=
    { contained with codeWrite := inside }
  unfold writeCodeU16 writeCode onContext at writeOk
  cases ensure : ensureCodeCapacity 4
      { state.context with codeWrite := target } with
  | error stop => simp [ensure] at writeOk
  | ok grown =>
      have ensured := ensureCodeCapacity_ok moved ensure
      have front : grown.code.front location = pre ++ [low, high] ++ post :=
        (ensured.kept _ (here ▸ contained.codeWrite)).trans (here ▸ before)
      simp only [ensure, Stop.ok_bind] at writeOk
      cases put : putBytes
          (bytesU16 (UInt16.ofNat (location - target - 2))) grown with
      | error stop => simp [put] at writeOk
      | ok context =>
          simp only [put, Stop.ok_bind] at writeOk
          cases writeOk
          rcases putBytes_over front (length_bytesU16 _).symm
            (ensured.codeWrite.trans target_) put with
            ⟨putFront, putSize, putIs⟩
          refine ⟨?_, ?_, ?_⟩
          · rw [putIs]
            refine { ensured.contained with codeSize := ?_, codeWrite := ?_ }
            · exact putSize.trans ensured.contained.codeSize
            · exact Nat.le_trans (here ▸ contained.codeWrite) ensured.larger
          · rw [putIs]
            exact ensured.view
              { state with context :=
                { state.context with codeWrite := target } }
          · rw [distance] at putFront
            exact putFront

theorem writeMoveResult_generates (falseReg trueReg : UInt8) :
    Generates (writeMoveResult falseReg trueReg) fun view =>
      ⟨(), (moveResult falseReg trueReg).bytes, view⟩ := by
  unfold writeMoveResult moveResult
  by_cases differ : falseReg ≠ trueReg
  · rw [if_pos differ, if_pos differ]
    exact ((writeOpcode_generates .mov).bind fun _ =>
      (writeCodeU8_generates falseReg).bind fun _ =>
        writeCodeU8_generates trueReg).congr fun view => rfl
  · rw [if_neg differ, if_neg differ]
    exact Generates.ret ()

theorem compileIf_generates {ifTest ifThen ifElse : CompileM UInt8}
    {test thenArm elseArm : View → Emission}
    (testGenerates : Generates ifTest fun view => (test view).outcome)
    (thenGenerates : Generates ifThen fun view => (thenArm view).outcome)
    (elseGenerates : Generates ifElse fun view => (elseArm view).outcome) :
    Generates (compileIf ifTest ifThen ifElse) fun view =>
      (emitIf test thenArm elseArm view).outcome := by
  intro state value after contained ok
  -- The test and its conditional jump, whose offset is still a hole.
  rcases bind_ok_iff.mp ok with ⟨resultReg, tested, testOk, ok⟩
  have testDone := testGenerates state resultReg tested contained testOk
  rcases bind_ok_iff.mp ok with ⟨_, jumped, jzOk, ok⟩
  have jzDone := writeOpcode_generates .jz tested _ jumped
    testDone.contained jzOk
  rcases bind_ok_iff.mp ok with ⟨_, operand, operandOk, ok⟩
  have operandDone := writeCodeU8_generates resultReg jumped _ operand
    jzDone.contained operandOk
  rw [codeOffset_bind] at ok
  rcases bind_ok_iff.mp ok with ⟨_, holed, holeOk, ok⟩
  rcases reserveOffset_ok operandDone.contained holeOk with
    ⟨holedContained, holedView, low, high, holedWritten⟩
  -- The then arm and its jump, whose offset is a second hole.
  rcases bind_ok_iff.mp ok with ⟨trueReg, armed, thenOk, ok⟩
  have thenDone := thenGenerates holed trueReg armed holedContained thenOk
  rcases bind_ok_iff.mp ok with ⟨_, skipped, jmpOk, ok⟩
  have jmpDone := writeOpcode_generates .jmp armed _ skipped
    thenDone.contained jmpOk
  rw [codeOffset_bind] at ok
  rcases bind_ok_iff.mp ok with ⟨_, reserved, reserveOk, ok⟩
  rcases reserveOffset_ok jmpDone.contained reserveOk with
    ⟨reservedContained, reservedView, low', high', reservedWritten⟩
  -- The first hole is filled.
  rw [codeOffset_bind] at ok
  rcases bind_ok_iff.mp ok with ⟨_, patched, patchOk, ok⟩
  have thenView : thenArm (view holed) = thenArm (test (view state)).view := by
    rw [holedView, operandDone.view, jzDone.view, testDone.view]
    rfl
  have reservedIs : written reserved = written operand ++ [low, high] ++
      ((thenArm (view holed)).code.bytes ++
        ([Opcode.jmp.byte] ++ [low', high'])) := by
    rw [reservedWritten, jmpDone.written, thenDone.written, holedWritten]
    simp [Emission.outcome]
  rcases patchOffset_ok reservedContained reservedIs rfl rfl patchOk with
    ⟨patchedContained, patchedView, patchedWritten⟩
  -- The else arm, and the second hole.
  rcases bind_ok_iff.mp ok with ⟨falseReg, elsed, elseOk, ok⟩
  have elseDone := elseGenerates patched falseReg elsed patchedContained elseOk
  rcases bind_ok_iff.mp ok with ⟨_, moved, moveOk, ok⟩
  have moveDone := writeMoveResult_generates falseReg trueReg elsed _ moved
    elseDone.contained moveOk
  rw [codeOffset_bind] at ok
  rcases bind_ok_iff.mp ok with ⟨_, finished, finishOk, ok⟩
  cases ok
  have elseView : elseArm (view patched) =
      elseArm (thenArm (test (view state)).view).view := by
    rw [patchedView, reservedView, jmpDone.view, thenDone.view, ← thenView]
    rfl
  have movedIs : written moved =
      (written operand ++
          bytesU16 (UInt16.ofNat ((thenArm (view holed)).code.bytes.length + 3))
          ++ (thenArm (view holed)).code.bytes ++ [Opcode.jmp.byte]) ++
        [low', high'] ++
        ((elseArm (view patched)).code.bytes ++
          (moveResult falseReg value).bytes) := by
    rw [moveDone.written, elseDone.written, patchedWritten]
    simp [Emission.outcome]
  have endTarget : (written skipped).length =
      (written operand ++
        bytesU16 (UInt16.ofNat ((thenArm (view holed)).code.bytes.length + 3))
        ++ (thenArm (view holed)).code.bytes ++ [Opcode.jmp.byte]).length := by
    rw [jmpDone.written, thenDone.written, holedWritten]
    simp [Emission.outcome, length_bytesU16]
    omega
  rcases patchOffset_ok moveDone.contained movedIs endTarget rfl finishOk
    with ⟨finishedContained, finishedView, finishedWritten⟩
  refine ⟨finishedContained, ?_, ?_, ?_, fun small => ?_⟩
  · rw [thenDone.value]
    change (thenArm (view holed)).reg = _
    rw [thenView]
    rfl
  · rw [finishedWritten, operandDone.written, jzDone.written,
      testDone.written, testDone.value, elseDone.value, thenDone.value]
    simp [Emission.outcome, emitIf, Code.bytes, instructionBytes, thenView,
      elseView]
  · rw [finishedView, moveDone.view, elseDone.view]
    change (elseArm (view patched)).view = _
    rw [elseView]
    rfl
  · have jumpedSmall := operandDone.small (jzDone.small (testDone.small small))
    have armedSmall := thenDone.small (.congr holedView jumpedSmall)
    have patchedSmall := SmallClosures.congr (patchedView.trans reservedView)
      (jmpDone.small armedSmall)
    exact .congr finishedView (moveDone.small (elseDone.small patchedSmall))

/-! ## The other cases -/

theorem compileLambda_generates (input : CompileInput) (lambdaId : Symbol)
    {lambdaBody : CompileM UInt8} {body : View → Emission}
    (generates : Generates lambdaBody fun view => (body view).outcome) :
    Generates (compileLambda input lambdaId lambdaBody) fun view =>
      (emitLambda input lambdaId body view).outcome :=
  (getFreeIntRegister_generates.bind fun closureRegister =>
    compileLambdaImpl_generates input lambdaId invalidSymbol closureRegister
      generates).congr fun _ => by
    simp [Outcome.andThen, Emission.outcome, emitLambda]

theorem compileLet_generates (letId : Symbol)
    {letValue letBody : CompileM UInt8} {value body : View → Emission}
    (valueGenerates : Generates letValue fun view => (value view).outcome)
    (bodyGenerates : Generates letBody fun view => (body view).outcome) :
    Generates (compileLet letId letValue letBody) fun view =>
      (emitLet letId value body view).outcome :=
  (valueGenerates.bind fun destReg =>
    (pushBinding_generates letId destReg).bind fun _ =>
      bodyGenerates.bind fun result =>
        popBinding_generates.bind fun _ => Generates.ret result).congr
    fun _ => by
      simp [Outcome.andThen, Emission.outcome, emitLet, Code.bytes]

theorem compileLetRec_function_generates (input : CompileInput)
    (letId lambdaId : Symbol) (valueRange : TokenRange)
    {lambdaBody letBody : CompileM UInt8} {value body : View → Emission}
    (valueGenerates : Generates lambdaBody fun view => (value view).outcome)
    (bodyGenerates : Generates letBody fun view => (body view).outcome) :
    Generates
      (compileLetRec input letId valueRange (some (lambdaId, lambdaBody))
        letBody)
      fun view =>
        (emitLetRec input letId valueRange (some (lambdaId, value)) body
          view).outcome :=
  (getFreeIntRegister_generates.bind fun destReg =>
    (pushBinding_generates letId destReg).bind fun _ =>
      (compileLambdaImpl_generates input lambdaId letId destReg
        valueGenerates).bind fun _ =>
        bodyGenerates.bind fun bodyReg =>
          popBinding_generates.bind fun _ => Generates.ret bodyReg).congr
    fun _ => by
      simp [Outcome.andThen, Emission.outcome, emitLetRec, Code.bytes]

theorem compileLetRec_other_generates (input : CompileInput)
    (letId : Symbol) (valueRange : TokenRange) (letBody : CompileM UInt8)
    (body : View → Emission) :
    Generates (compileLetRec input letId valueRange none letBody)
      fun view =>
        (emitLetRec input letId valueRange none body view).outcome :=
  (getFreeIntRegister_generates.bind fun destReg =>
    (reportCompileError_generates input valueRange _).bind fun _ =>
      Generates.ret destReg).congr
    fun _ => by
      simp [Outcome.andThen, Emission.outcome, emitLetRec, Code.bytes]

theorem compileApply_generates
    {applyFunction applyArgument : CompileM UInt8}
    {function argument : View → Emission}
    (functionGenerates :
      Generates applyFunction fun view => (function view).outcome)
    (argumentGenerates :
      Generates applyArgument fun view => (argument view).outcome) :
    Generates (compileApply applyFunction applyArgument) fun view =>
      (emitApply function argument view).outcome :=
  (functionGenerates.bind fun lambdaRegister =>
    argumentGenerates.bind fun argRegister =>
      getFreeIntRegister_generates.bind fun retRegister =>
        (writeOpcode_generates .call).bind fun _ =>
          (writeCodeU8_generates lambdaRegister).bind fun _ =>
            (writeCodeU8_generates argRegister).bind fun _ =>
              (writeCodeU8_generates retRegister).bind fun _ =>
                Generates.ret retRegister).congr
    fun _ => by
      simp [Outcome.andThen, Emission.outcome, emitApply, Code.bytes,
        instructionBytes]

/-- The operator byte or the report that stands for it. -/
def operatorOutcome (input : CompileInput) (range : TokenRange)
    (error : String) (opcode : Option Opcode) (view : View) :
    Outcome Unit :=
  match opcode with
  | some opcode => ⟨(), [opcode.byte], view⟩
  | none => ⟨(), [], view.report input range error⟩

theorem writeOperator_generates (input : CompileInput) (range : TokenRange)
    (error : String) (opcode : Option Opcode) :
    Generates (writeOperator input range error opcode)
      (operatorOutcome input range error opcode) := by
  cases opcode with
  | some opcode => exact writeOpcode_generates opcode
  | none => exact reportCompileError_generates input range error

theorem compileBinary_generates (input : CompileInput) (range : TokenRange)
    (operator : TokenType) {binaryLeft binaryRight : CompileM UInt8}
    {left right : View → Emission}
    (leftGenerates : Generates binaryLeft fun view => (left view).outcome)
    (rightGenerates :
      Generates binaryRight fun view => (right view).outcome) :
    Generates (compileBinary input range operator binaryLeft binaryRight)
      fun view =>
        (emitBinary input range operator left right view).outcome := by
  refine (leftGenerates.bind fun leftRegister =>
    rightGenerates.bind fun rightRegister =>
      getFreeIntRegister_generates.bind fun outRegister =>
        (writeOperator_generates input range _ _).bind fun _ =>
          (writeCodeU8_generates leftRegister).bind fun _ =>
            (writeCodeU8_generates rightRegister).bind fun _ =>
              (writeCodeU8_generates outRegister).bind fun _ =>
                Generates.ret outRegister).congr ?_
  intro view
  cases operator <;>
    simp [Outcome.andThen, Emission.outcome, operatorOutcome, binaryOpcode,
      emitBinary, binaryInstruction, Code.bytes, instructionBytes]

theorem compileUnary_generates (input : CompileInput) (range : TokenRange)
    (operator : TokenType) {unaryArg : CompileM UInt8}
    {arg : View → Emission}
    (argGenerates : Generates unaryArg fun view => (arg view).outcome) :
    Generates (compileUnary input range operator unaryArg) fun view =>
      (emitUnary input range operator arg view).outcome := by
  refine (argGenerates.bind fun argRegister =>
    getFreeIntRegister_generates.bind fun outRegister =>
      (writeOperator_generates input range _ _).bind fun _ =>
        (writeCodeU8_generates argRegister).bind fun _ =>
          (writeCodeU8_generates outRegister).bind fun _ =>
            Generates.ret outRegister).congr ?_
  intro view
  cases operator <;>
    simp [Outcome.andThen, Emission.outcome, operatorOutcome, unaryOpcode,
      emitUnary, unaryInstruction, Code.bytes, instructionBytes]

theorem compileTupleMembers_generates {tupleFirst : CompileM UInt8}
    {first : View → Emission}
    (generates : Generates tupleFirst fun view => (first view).outcome)
    (outReg : UInt8) (count i : Nat) :
    Generates (compileTupleMembers tupleFirst outReg i count) fun view =>
      unitOutcome (emitTupleMembers first outReg i count view) := by
  induction count generalizing i with
  | zero => exact Generates.ret ()
  | succ count ih =>
      refine (generates.bind fun memberReg =>
        (writeOpcode_generates _).bind fun _ =>
          (writeCodeU8_generates _).bind fun _ =>
            (writeCodeU16_generates _).bind fun _ =>
              (writeCodeU8_generates memberReg).bind fun _ =>
                ih (i + 1)).congr ?_
      intro view
      simp [Outcome.andThen, Emission.outcome, unitOutcome, emitTupleMembers,
        Code.bytes, instructionBytes]

theorem compileTuple_generates (tupleLength : Nat)
    {tupleFirst : CompileM UInt8} {first : View → Emission}
    (generates : Generates tupleFirst fun view => (first view).outcome) :
    Generates (compileTuple tupleLength tupleFirst) fun view =>
      (emitTuple tupleLength first view).outcome :=
  ((writeLoadLiteral_generates _).bind fun lenReg =>
    getFreeIntRegister_generates.bind fun outReg =>
      (writeOpcode_generates .newTuple).bind fun _ =>
        (writeCodeU8_generates lenReg).bind fun _ =>
          (writeCodeU8_generates outReg).bind fun _ =>
            (compileTupleMembers_generates generates outReg tupleLength
              0).bind fun _ => Generates.ret outReg).congr
    fun _ => by
      simp [Outcome.andThen, Emission.outcome, unitOutcome, emitTuple,
        Code.bytes, instructionBytes]

/-! ## The whole expression -/

/-- Compiling an expression emits its code. -/
theorem compileExpression_generates (input : CompileInput)
    (expression : Expression) :
    Generates (compileExpression input expression) fun view =>
      (emit input expression view).outcome := by
  induction expression using Expression.functionInduction with
  | integerConstant range literalValue =>
      exact writeLoadLiteral_generates literalValue
  | let_ range id value body valueIh bodyIh =>
      exact compileLet_generates id valueIh bodyIh
  | letrecFunction range id lambdaRange lambdaId lambdaBody body valueIh
      bodyIh =>
      exact compileLetRec_function_generates input id lambdaId _ valueIh bodyIh
  | letrecOther range id value body notLambda valueIh bodyIh =>
      cases value with
      | lambda range id body => exact absurd trivial notLambda
      | _ => exact compileLetRec_other_generates input id _ _ _
  | identifier range id => exact compileIdentifierImpl_generates id
  | lambda range id body bodyIh => exact compileLambda_generates input id bodyIh
  | apply range function argument functionIh argumentIh =>
      exact compileApply_generates functionIh argumentIh
  | binary range operator left right leftIh rightIh =>
      exact compileBinary_generates input range operator leftIh rightIh
  | unary range operator arg argIh =>
      exact compileUnary_generates input range operator argIh
  | if_ range test thenArm elseArm testIh thenIh elseIh =>
      exact compileIf_generates testIh thenIh elseIh
  | true_ range => exact writeLoadLiteral_generates 1
  | false_ range => exact writeLoadLiteral_generates 0
  | tuple range first rest length firstIh restIh =>
      exact compileTuple_generates length firstIh
  | error range => exact Generates.ret 0
  | tupleFinal range first firstIh =>
      exact ((reportCompileError_generates input range _).bind fun _ =>
        Generates.ret 0).congr fun _ => rfl
  | invalid range =>
      exact ((reportCompileError_generates input range _).bind fun _ =>
        Generates.ret 0).congr fun _ => rfl

/-- What a successful compilation into a fresh module leaves. -/
theorem compileModule_ok {input : CompileInput} {expression : Expression}
    {funcId : Nat} {after : CompileState}
    (ok : compileModule input expression = .ok (funcId, after)) :
    funcId = 0 ∧ after.module = (emitModule input expression).module ∧
      after.errors = (emitModule input expression).errors ∧
      after.finished = (emitModule input expression).finished ∧
      after.searched = (emitModule input expression).searched := by
  rcases bind_ok_iff.mp ok with ⟨_, started, startOk, ok⟩
  cases startOk
  rcases bind_ok_iff.mp ok with ⟨_, entered, enterOk, ok⟩
  cases enterOk
  rcases bind_ok_iff.mp ok with ⟨reg, compiled, compileOk, ok⟩
  have compiled_ := compileExpression_generates input expression _ reg
    compiled (initCompileContext_contained _) compileOk
  rcases bind_ok_iff.mp ok with ⟨_, finished, finishOk, ok⟩
  cases ok
  have regIs : reg = (emitEntry input expression).reg := compiled_.value
  have viewIs : view compiled = (emitEntry input expression).view :=
    compiled_.view
  rw [regIs] at finishOk
  rcases finishCompile_ok compiled_.contained compiled_.written viewIs
    finishOk with ⟨moduleIs, errorsIs, finishedIs, searchedIs, -⟩
  exact ⟨rfl, moduleIs, errorsIs, finishedIs, searchedIs⟩

/-- No function of a compiled module closes over more than sixteen symbols. -/
theorem compileModule_small {input : CompileInput} {expression : Expression}
    {funcId : Nat} {after : CompileState}
    (ok : compileModule input expression = .ok (funcId, after)) :
    SmallClosures after.finished := by
  rcases bind_ok_iff.mp ok with ⟨_, started, startOk, ok⟩
  cases startOk
  rcases bind_ok_iff.mp ok with ⟨_, entered, enterOk, ok⟩
  cases enterOk
  rcases bind_ok_iff.mp ok with ⟨reg, compiled, compileOk, ok⟩
  have reached := compileExpression_generates input expression _ reg
    compiled (initCompileContext_contained _) compileOk
  rcases bind_ok_iff.mp ok with ⟨_, finished, finishOk, ok⟩
  cases ok
  rw [reached.value] at finishOk
  have finishes := finishCompile_ok reached.contained reached.written
    reached.view finishOk
  exact finishes.2.2.2.2 (reached.small nofun)

end Millie.Compiler
