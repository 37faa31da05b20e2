import Millie.Compiler.Capacity
import Mathlib.Tactic.Tauto

/-!
# When a compilation returns

A compilation stops without a result only where it reads or writes outside a
block, or where the capacity of the code buffer overflows.
`compileModule_returns_iff` says that it returns exactly when every use of the
binding array and of the closure list stays inside the block that
`_InitCompileContext` allocates, and every request for code is served.
-/

namespace Millie.Compiler

open Millie.Symbols Millie.Syntax Millie.Machine

/-! ## Operations inside their blocks -/

/-- The bytes of the entry lie in the block that `malloc` returned. -/
def Operation.Inside : Operation → Prop
  | register _ => True
  | search top => (top + 1) * sizeofCompileBinding ≤ initialBindingCapacity
  | push index => (index + 1) * sizeofCompileBinding ≤ initialBindingCapacity
  | close index => (index + 1) * sizeofSymbol ≤ initialBindingCapacity

@[simp]
theorem register_inside (reg : UInt8) : (Operation.register reg).Inside :=
  trivial

@[simp]
theorem search_inside (top : Nat) : (Operation.search top).Inside ↔ top < 8 := by
  change (top + 1) * 8 ≤ 64 ↔ _
  omega

@[simp]
theorem push_inside (index : Nat) :
    (Operation.push index).Inside ↔ index < 8 := by
  change (index + 1) * 8 ≤ 64 ↔ _
  omega

@[simp]
theorem close_inside (index : Nat) :
    (Operation.close index).Inside ↔ index < 16 := by
  change (index + 1) * 4 ≤ 64 ↔ _
  omega

/-- All operations of a list are inside their blocks. -/
def AllInside (operations : List Operation) : Prop :=
  ∀ operation ∈ operations, operation.Inside

@[simp]
theorem allInside_nil : AllInside [] :=
  nofun

@[simp]
theorem allInside_cons {operation : Operation} {rest : List Operation} :
    AllInside (operation :: rest) ↔ operation.Inside ∧ AllInside rest :=
  List.forall_mem_cons

@[simp]
theorem allInside_append {first second : List Operation} :
    AllInside (first ++ second) ↔ AllInside first ∧ AllInside second :=
  List.forall_mem_append

theorem allInside_registers (count : Nat) (reg : Nat → UInt8) :
    AllInside ((List.range count).map fun k => .register (reg k)) := by
  intro operation member
  rcases List.mem_map.mp member with ⟨k, -, rfl⟩
  exact register_inside _

theorem allInside_pushes {count : Nat} (small : count ≤ 8) :
    AllInside ((List.range count).map .push) := by
  intro operation member
  rcases List.mem_map.mp member with ⟨k, inside, rfl⟩
  rw [push_inside]
  exact Nat.lt_of_lt_of_le (List.mem_range.mp inside) small

/-! ## Steps that return -/

/-- A step returns from every state and leaves the indices in their blocks. -/
def Total {α : Type} (step : CompileM α) : Prop :=
  ∀ state, Contained state.context →
    ∃ value after, step state = .ok (value, after) ∧ Contained after.context

/--
A step returns from exactly the states whose write offset and view satisfy a
condition.
-/
def Returns {α : Type} (step : CompileM α) (safe : Nat → View → Prop) : Prop :=
  ∀ state, Contained state.context →
    ((∃ result, step state = .ok result) ↔
      safe state.context.codeWrite (view state))

/-- The write offset after a step that did what an outcome says. -/
theorem Reaches.codeWrite {α : Type} {state after : CompileState} {value : α}
    {outcome : Outcome α} (reaches : Reaches state after value outcome) :
    after.context.codeWrite =
      state.context.codeWrite + outcome.bytes.length := by
  have length := congrArg List.length reaches.written
  simpa only [Compiler.written, Buffer.length_front, List.length_append]
    using length

/-- After a step that returned, the whole returns when the rest does. -/
theorem bind_returns_iff {α β : Type} {step : CompileM α}
    {next : α → CompileM β} {state after : CompileState} {value : α}
    (ok : step state = .ok (value, after)) :
    (∃ result, (step >>= next) state = .ok result) ↔
      ∃ result, next value after = .ok result := by
  simp only [bind, StateT.bind, ok]
  rfl

/-- A step that does not return stops the whole. -/
theorem bind_stops {α β : Type} {step : CompileM α} {next : α → CompileM β}
    {state : CompileState} (stops : ¬∃ result, step state = .ok result) :
    ¬∃ result, (step >>= next) state = .ok result := by
  rintro ⟨result, ok⟩
  rcases bind_ok_iff.mp ok with ⟨value, after, stepOk, -⟩
  exact stops ⟨_, stepOk⟩

namespace Total

variable {α β : Type} {step : CompileM α} {next : α → CompileM β}

theorem ret (value : α) : Total (pure value : CompileM α) :=
  fun state contained => ⟨value, state, rfl, contained⟩

theorem bind (total : Total step) (continues : ∀ value, Total (next value)) :
    Total (step >>= next) := by
  intro state contained
  rcases total state contained with ⟨value, middle, ok, middleContained⟩
  rcases continues value middle middleContained with
    ⟨result, after, nextOk, afterContained⟩
  exact ⟨result, after, bind_ok_iff.mpr ⟨value, middle, ok, nextOk⟩,
    afterContained⟩

theorem of_generates {outcome : View → Outcome α}
    (generates : Generates step outcome)
    (returns : ∀ state, Contained state.context →
      ∃ result, step state = .ok result) : Total step := by
  intro state contained
  rcases returns state contained with ⟨⟨value, after⟩, ok⟩
  exact ⟨value, after, ok, (generates state value after contained ok).contained⟩

end Total

namespace Returns

variable {α β : Type} {step : CompileM α} {next : α → CompileM β}
  {outcome : View → Outcome α} {safe : Nat → View → Prop}

theorem congr {safe' : Nat → View → Prop} (returns : Returns step safe)
    (same : ∀ offset view, safe offset view ↔ safe' offset view) :
    Returns step safe' :=
  fun state contained => (returns state contained).trans (same _ _)

theorem of_total (total : Total step) : Returns step fun _ _ => True := by
  intro state contained
  rcases total state contained with ⟨value, after, ok, -⟩
  exact iff_of_true ⟨_, ok⟩ trivial

/-- Steps in sequence return when each does. -/
theorem bind (generates : Generates step outcome) (returns : Returns step safe)
    {following : α → Nat → View → Prop}
    (continues : ∀ value, Returns (next value) (following value)) :
    Returns (step >>= next) fun offset view =>
      safe offset view ∧
        following (outcome view).value (offset + (outcome view).bytes.length)
          (outcome view).view := by
  intro state contained
  by_cases first : ∃ result, step state = .ok result
  · rcases first with ⟨⟨value, after⟩, ok⟩
    have done := generates state value after contained ok
    have first := (returns state contained).mp ⟨_, ok⟩
    rw [bind_returns_iff ok, continues value after done.contained, done.value,
      done.view, done.codeWrite]
    exact (and_iff_right first).symm
  · have unsafe_ := mt (returns state contained).mpr first
    exact iff_of_false (bind_stops first) fun both => unsafe_ both.1

/-- A step that always returns first. -/
theorem after (total : Total step) (generates : Generates step outcome)
    {following : α → Nat → View → Prop}
    (continues : ∀ value, Returns (next value) (following value)) :
    Returns (step >>= next) fun offset view =>
      following (outcome view).value (offset + (outcome view).bytes.length)
        (outcome view).view :=
  ((of_total total).bind generates continues).congr
    fun _ _ => and_iff_right trivial

/-- Only the first step may not return. -/
theorem before (generates : Generates step outcome)
    (returns : Returns step safe) (continues : ∀ value, Total (next value)) :
    Returns (step >>= next) safe :=
  (returns.bind generates fun value => of_total (continues value)).congr
    fun _ _ => and_iff_left trivial

end Returns

/-! ## Writing code -/

theorem putBytes_returns {bytes : List UInt8} {context : CompileContext}
    (room : context.codeWrite + bytes.length ≤ context.code.size) :
    ∃ after, putBytes bytes context = .ok after := by
  induction bytes generalizing context with
  | nil => exact ⟨context, rfl⟩
  | cons byte bytes ih =>
      rw [List.length_cons] at room
      have inside : context.codeWrite < context.code.size := by omega
      simp only [putBytes, putByte, Buffer.write, if_pos inside, Stop.ok_bind]
      apply ih
      change context.codeWrite + 1 + bytes.length ≤ context.code.size
      omega

/-- Bytes are written when the room asked for them is served. -/
theorem writeCode_returns {more : Nat} {bytes : List UInt8}
    (small : more ≤ initialCodeCapacity) (asked : bytes.length ≤ more) :
    Returns (writeCode more bytes) fun offset _ =>
      offset + more ≤ codeLimit := by
  intro state contained
  refine Iff.trans ?_ (ensureCodeCapacity_returns contained small)
  unfold writeCode onContext
  dsimp only
  cases ensure : ensureCodeCapacity more state.context with
  | error stop =>
      simp only [Stop.error_bind]
      exact iff_of_false nofun nofun
  | ok grown =>
      have ensured := ensureCodeCapacity_ok contained ensure
      have room := ensured.room small
      have fits : grown.codeWrite + bytes.length ≤ grown.code.size := by
        rw [ensured.contained.codeSize, ensured.codeWrite]
        omega
      rcases putBytes_returns fits with ⟨after, put⟩
      simp only [Stop.ok_bind, put]
      exact iff_of_true ⟨_, rfl⟩ ⟨_, rfl⟩

theorem writeCodeU8_returns (value : UInt8) :
    Returns (writeCodeU8 value) fun offset _ => offset + 1 ≤ codeLimit :=
  writeCode_returns (by decide) (Nat.le_refl 1)

theorem writeCodeU16_returns (value : UInt16) :
    Returns (writeCodeU16 value) fun offset _ => offset + 4 ≤ codeLimit :=
  writeCode_returns (by decide) (by decide : 2 ≤ 4)

theorem writeCodeU32_returns (value : UInt32) :
    Returns (writeCodeU32 value) fun offset _ => offset + 4 ≤ codeLimit :=
  writeCode_returns (by decide) (Nat.le_refl 4)

theorem writeCodeU64_returns (value : UInt64) :
    Returns (writeCodeU64 value) fun offset _ => offset + 8 ≤ codeLimit :=
  writeCode_returns (by decide) (Nat.le_refl 8)

section

variable {α : Type} {next : CompileM α} {following : Nat → View → Prop}

/-- A byte and what is written after it. -/
theorem Returns.byte (value : UInt8) (continues : Returns next following) :
    Returns (do writeCodeU8 value; next) fun offset view =>
      offset + 1 ≤ codeLimit ∧ following (offset + 1) view :=
  (writeCodeU8_returns value).bind (writeCodeU8_generates value)
    fun _ => continues

/-- An opcode and what is written after it. -/
theorem Returns.opcode (opcode : Opcode) (continues : Returns next following) :
    Returns (do writeOpcode opcode; next) fun offset view =>
      offset + 1 ≤ codeLimit ∧ following (offset + 1) view :=
  continues.byte opcode.byte

/-- Two bytes, for which four are asked, and what is written after them. -/
theorem Returns.word (value : UInt16) (continues : Returns next following) :
    Returns (do writeCodeU16 value; next) fun offset view =>
      offset + 4 ≤ codeLimit ∧ following (offset + 2) view :=
  (writeCodeU16_returns value).bind (writeCodeU16_generates value)
    fun _ => continues

/-- The last byte. -/
theorem Returns.lastByte (value : UInt8) {result : α} :
    Returns (do writeCodeU8 value; return result) fun offset _ =>
      offset + 1 ≤ codeLimit :=
  (Returns.byte value (.of_total (.ret result))).congr
    fun _ _ => and_iff_left trivial

end

/-! ## Registers, bindings and errors -/

theorem getFreeIntRegister_total : Total getFreeIntRegister :=
  .of_generates getFreeIntRegister_generates fun _ _ => ⟨_, rfl⟩

theorem popBinding_total : Total popBinding :=
  .of_generates popBinding_generates fun _ _ => ⟨_, rfl⟩

theorem reportCompileError_total (input : CompileInput) (range : TokenRange)
    (error : String) : Total (reportCompileError input range error) :=
  .of_generates (reportCompileError_generates input range error)
    fun _ _ => ⟨_, rfl⟩

theorem pushBinding_returns (symbol : Symbol) (reg : UInt8) :
    Returns (pushBinding symbol reg) fun _ view => view.top < 8 := by
  intro state contained
  have full : state.context.bindingTop ≠ state.context.bindingCapacity := by
    have := contained.bindingTop
    rw [contained.bindingCapacity]
    omega
  change _ ↔ state.context.bindingTop < 8
  rw [← contained.bindingSize]
  simp only [pushBinding, onContext, if_neg full, Buffer.write]
  by_cases inside : state.context.bindingTop < state.context.bindings.size
  · simp only [if_pos inside, Stop.ok_bind]
    exact iff_of_true ⟨_, rfl⟩ inside
  · simp only [if_neg inside, Stop.error_bind]
    exact iff_of_false nofun inside

/-! ## Literals and identifiers -/

theorem writeLoadLiteral_returns (value : UInt64) :
    Returns (writeLoadLiteral value) fun offset view =>
      (emitLiteral value view).code.Fits offset := by
  unfold writeLoadLiteral
  by_cases byte : value ≤ 0xFF
  · simp only [byte, if_true]
    refine (Returns.after getFreeIntRegister_total getFreeIntRegister_generates
      fun reg => .opcode .loadi8 (.byte _ (.lastByte reg))).congr ?_
    intro offset view
    simp [emitLiteral, literalInstruction, byte, instructionReach,
      instructionBytes]
    omega
  by_cases word : value ≤ 0xFFFF
  · simp only [byte, word, if_true, if_false]
    refine (Returns.after getFreeIntRegister_total getFreeIntRegister_generates
      fun reg => .opcode .loadi16 (.word _ (.lastByte reg))).congr ?_
    intro offset view
    simp [emitLiteral, literalInstruction, byte, word, instructionReach]
    omega
  by_cases double : value ≤ 0xFFFFFFFF
  · simp only [byte, word, double, if_true, if_false]
    refine (Returns.after getFreeIntRegister_total getFreeIntRegister_generates
      fun reg => .opcode .loadi32 ((writeCodeU32_returns _).bind
        (writeCodeU32_generates _) fun _ => .lastByte reg)).congr ?_
    intro offset view
    simp [emitLiteral, literalInstruction, byte, word, double,
      instructionReach, instructionBytes, bytesU32]
    omega
  · simp only [byte, word, double, if_false]
    refine (Returns.after getFreeIntRegister_total getFreeIntRegister_generates
      fun reg => .opcode .loadi64 ((writeCodeU64_returns _).bind
        (writeCodeU64_generates _) fun _ => .lastByte reg)).congr ?_
    intro offset view
    simp [emitLiteral, literalInstruction, byte, word, double,
      instructionReach, instructionBytes, bytesU64]
    omega

/-- A search that starts inside the block stays inside it. -/
theorem findBinding_inside {bindings : Buffer CompileBinding} (id : Symbol)
    {top : Nat} (inside : top < bindings.size) :
    ∃ found, findBinding bindings id top = .ok found := by
  induction top with
  | zero =>
      simp only [findBinding, Buffer.read, if_pos inside, Stop.ok_bind]
      exact ⟨_, rfl⟩
  | succ top ih =>
      simp only [findBinding, Buffer.read, if_pos inside, Stop.ok_bind]
      split
      · exact ⟨_, rfl⟩
      · exact ih (Nat.lt_of_succ_lt inside)

theorem findBinding_outside {bindings : Buffer CompileBinding} {id : Symbol}
    {top : Nat} (outside : ¬top < bindings.size) :
    findBinding bindings id top = .error .undefinedBehaviour := by
  cases top with
  | zero => simp only [findBinding, Buffer.read, if_neg outside, Stop.error_bind]
  | succ top =>
      simp only [findBinding, Buffer.read, if_neg outside, Stop.error_bind]

theorem searchBindings_returns (id : Symbol) :
    Returns (searchBindings id) fun _ view => view.top < 8 := by
  intro state contained
  change _ ↔ state.context.bindingTop < 8
  rw [← contained.bindingSize]
  by_cases inside : state.context.bindingTop < state.context.bindings.size
  · rcases findBinding_inside id inside with ⟨found, read⟩
    refine iff_of_true ?_ inside
    simp only [searchBindings, read, Stop.ok_bind]
    exact ⟨_, rfl⟩
  · simp only [searchBindings, findBinding_outside inside, Stop.error_bind]
    exact iff_of_false nofun inside

theorem closureOffset_returns (id : Symbol) :
    Returns (closureOffset id) fun _ view =>
      id ∈ view.closure ∨ view.closure.length < 16 := by
  intro state contained
  have notFull : state.context.closureCapacity ≠ state.context.closureTop := by
    have := contained.closureTop
    rw [contained.closureCapacity]
    omega
  have length : (view state).closure.length = state.context.closureTop :=
    Buffer.length_front _ _
  change _ ↔ id ∈ _ ∨ (view state).closure.length < 16
  rw [length, ← contained.closureSize]
  unfold closureOffset onContext
  dsimp only
  by_cases member : id ∈ state.context.closureSymbols.front
      state.context.closureTop
  · rw [if_pos member]
    exact iff_of_true ⟨_, rfl⟩ (.inl member)
  · rw [if_neg member, if_neg notFull, Buffer.write]
    by_cases inside : state.context.closureTop <
        state.context.closureSymbols.size
    · simp only [if_pos inside, Stop.ok_bind]
      exact iff_of_true ⟨_, rfl⟩ (.inr inside)
    · simp only [if_neg inside, Stop.error_bind]
      exact iff_of_false nofun (not_or.mpr ⟨member, inside⟩)

/-- The instruction that loads a captured value. -/
theorem loadInstruction_returns (closureOffset : Nat) (loadTarget : UInt8) :
    Returns
      (do
        writeOpcode .loada64
        writeCodeU8 0
        writeCodeU16 (UInt16.ofNat closureOffset + 1)
        writeCodeU8 loadTarget
        return loadTarget)
      fun offset _ => offset + 6 ≤ codeLimit :=
  (Returns.opcode .loada64 (.byte 0 (.word _ (.lastByte _)))).congr
    fun offset _ => by omega

theorem loadClosed_returns (id : Symbol) :
    Returns
      (do
        let offset ← closureOffset id
        let loadTarget ← getFreeIntRegister
        writeOpcode .loada64
        writeCodeU8 0
        writeCodeU16 (UInt16.ofNat offset + 1)
        writeCodeU8 loadTarget
        return loadTarget)
      fun offset view => (id ∈ view.closure ∨ view.closure.length < 16) ∧
        offset + 6 ≤ codeLimit :=
  (closureOffset_returns id).bind (closureOffset_generates id) fun offset =>
    .after getFreeIntRegister_total getFreeIntRegister_generates
      fun loadTarget => loadInstruction_returns offset loadTarget

theorem compileIdentifierImpl_returns (id : Symbol) :
    Returns (compileIdentifierImpl id) fun offset view =>
      AllInside (identifierOperations id view) ∧
        (emitIdentifier id view).code.Fits offset := by
  let rest (bound : Option UInt8) (offset : Nat) (view : View) : Prop :=
    bound = none → (id ∈ view.closure ∨ view.closure.length < 16) ∧
      offset + 6 ≤ codeLimit
  refine ((searchBindings_returns id).bind (searchBindings_generates id)
    (fun bound => (?continues : Returns _ (rest bound)))).congr ?_
  · cases bound with
    | some reg =>
        exact (Returns.of_total (.ret reg)).congr fun _ _ => by simp [rest]
    | none => exact (loadClosed_returns id).congr fun _ _ => by simp [rest]
  · intro offset view
    rw [identifierOperations, allInside_cons, search_inside, and_assoc]
    refine and_congr_right fun _ => ?_
    change (View.search view.bindings id view.top = none → _ ∧ _) ↔ _
    cases found : View.search view.bindings id view.top with
    | some reg => simp [emitIdentifier_bound found]
    | none =>
        by_cases member : id ∈ view.closure
        · simp [emitIdentifier_closed found, member, View.log,
            instructionReach]
        · simp [emitIdentifier_closed found, member, View.log,
            instructionReach]

/-! ## Functions -/

theorem storeClosedValues_returns (closureRegister : UInt8)
    (symbols : List Symbol) (i : Nat) :
    Returns (storeClosedValues closureRegister i symbols) fun offset view =>
      AllInside (closedOperations symbols view) ∧
        (emitClosedValues closureRegister i symbols view).1.Fits offset := by
  induction symbols generalizing i with
  | nil =>
      exact (Returns.of_total (.ret ())).congr fun _ _ =>
        iff_of_true trivial ⟨allInside_nil, Code.fits_empty⟩
  | cons symbol symbols ih =>
      refine ((compileIdentifierImpl_returns symbol).bind
        (compileIdentifierImpl_generates symbol) fun idReg =>
          .opcode .storea64 (.byte closureRegister (.word _
            (.byte idReg (ih (i + 1)))))).congr ?_
      intro offset view
      rw [closedOperations, allInside_append, emitClosedValues, Code.fits_seq,
        Code.fits_seq, Code.fits_instruction]
      simp only [Emission.outcome, instructionReach, Code.bytes,
        instructionBytes, List.length_cons, List.length_append,
        length_bytesU16, List.length_nil, Nat.add_assoc]
      grind

/-- A function's last byte is its `OP_RET`; what follows always returns. -/
theorem finishCompile_returns {α : Type} (resultRegister : UInt8)
    (funcId : Nat) (result : EntryPointer) (next : CompileM α)
    (continues : ∀ state, ∃ left, next state = .ok left) :
    Returns (do finishCompile resultRegister funcId result; next)
      fun offset _ => offset + 1 ≤ codeLimit := by
  have finishes : Returns (finishCompile resultRegister funcId result)
      fun offset _ => offset + 1 ≤ codeLimit :=
    (writeCodeU8_returns Opcode.ret.byte).before (writeCodeU8_generates _)
      fun _ _ contained => ⟨_, _, rfl, contained⟩
  intro state contained
  refine Iff.trans ?_ (finishes state contained)
  by_cases finished : ∃ left, finishCompile resultRegister funcId result
      state = .ok left
  · rcases finished with ⟨⟨value, after⟩, ok⟩
    exact (bind_returns_iff ok).trans (iff_of_true (continues after) ⟨_, ok⟩)
  · exact iff_of_false (bind_stops finished) finished

/-- The pushes around a function's body always fit a fresh context. -/
theorem compileFrame_returns (lambdaId selfId : Symbol)
    {lambdaBody : CompileM UInt8} {body : View → Emission}
    {safe : Nat → View → Prop}
    (generates : Generates lambdaBody fun view => (body view).outcome)
    (returns : Returns lambdaBody safe) :
    Returns (compileFrame lambdaId lambdaBody selfId) fun offset view =>
      let inner :=
        if selfId ≠ invalidSymbol then view.take.push selfId view.nextReg
        else view.take
      (selfId ≠ invalidSymbol → view.top < 8) ∧ inner.top < 8 ∧
        safe offset (inner.take.push lambdaId inner.nextReg) := by
  unfold compileFrame
  by_cases named : selfId ≠ invalidSymbol
  · simp only [if_pos named]
    refine (Returns.after getFreeIntRegister_total getFreeIntRegister_generates
      fun selfRegister =>
        (pushBinding_returns _ _).bind (pushBinding_generates _ _) fun _ =>
          .after getFreeIntRegister_total getFreeIntRegister_generates
            fun argRegister =>
              (pushBinding_returns _ _).bind (pushBinding_generates _ _)
                fun _ => returns.before generates fun retRegister =>
                  popBinding_total.bind fun _ =>
                    popBinding_total.bind fun _ => .ret retRegister).congr ?_
    exact fun _ _ => and_congr_left fun _ => (imp_iff_right named).symm
  · simp only [if_neg named]
    refine (Returns.after getFreeIntRegister_total getFreeIntRegister_generates
      fun selfRegister =>
        .after getFreeIntRegister_total getFreeIntRegister_generates
          fun argRegister =>
            (pushBinding_returns _ _).bind (pushBinding_generates _ _)
              fun _ => returns.before generates fun retRegister =>
                popBinding_total.bind fun _ => .ret retRegister).congr ?_
    exact fun _ _ => (and_iff_right fun holds => absurd holds named).symm

/-- A function is compiled when its body is and its `OP_RET` has room. -/
theorem compileFunction_returns (input : CompileInput)
    (lambdaId selfId : Symbol) {lambdaBody : CompileM UInt8}
    {body : View → Emission} {safe : Nat → View → Prop}
    (generates : Generates lambdaBody fun view => (body view).outcome)
    (returns : Returns lambdaBody safe) (state : CompileState) :
    let added := addFunction state.module
    (∃ result, compileFunction input lambdaId lambdaBody selfId state =
        .ok result) ↔
      safe 0 (functionView input lambdaId selfId added.2.1
        { view state with module := added.2.2 }) ∧
      (emitBody input lambdaId selfId body (view state)).code.bytes.length +
        1 ≤ codeLimit := by
  intro added
  let entered : CompileState :=
    { state with
      module := added.2.2
      context := initCompileContext (input.uninit added.2.1) }
  have frame := (compileFrame_returns lambdaId selfId generates returns).bind
    (compileFrame_generates lambdaId selfId generates) fun retRegister =>
      finishCompile_returns retRegister added.2.1 added.1 (do
        onContext fun _ => .ok ((), state.context)
        return (added.2.1, added.1)) fun _ => ⟨_, rfl⟩
  rcases frameOutcome_fresh input lambdaId selfId body added.2.1
    { view state with module := added.2.2 } with ⟨-, bytes, -⟩
  refine (frame entered (initCompileContext_contained _)).trans ?_
  have length : (frameOutcome lambdaId selfId body (view entered)).bytes.length =
      (emitBody input lambdaId selfId body (view state)).code.bytes.length :=
    congrArg List.length bytes
  dsimp only
  rw [length]
  refine and_congr ?_ (by simp [entered, initCompileContext])
  by_cases named : selfId ≠ invalidSymbol
  · simp [functionView, named, view, entered, View.push, View.take,
      View.nextReg, initCompileContext, Buffer.malloc, Buffer.front]
  · simp [functionView, named, view, entered, View.push, View.take,
      View.nextReg, initCompileContext, Buffer.malloc, Buffer.front]

theorem loadEntry_returns (result : EntryPointer) :
    Returns
      (fun state => do
        let entry ← state.module.load result
        return (entry, state))
      fun _ view =>
        (view.module.blocks result.block result.index).isSome := by
  intro state contained
  change _ ↔ (state.module.blocks result.block result.index).isSome
  cases found : state.module.blocks result.block result.index with
  | none =>
      simp only [Module.load, found, Stop.error_bind]
      exact iff_of_false (by simp) (by simp)
  | some entry =>
      simp only [Module.load, found, Stop.ok_bind]
      exact iff_of_true ⟨_, rfl⟩ rfl

/-- A finished function's entry is there when its closure is created. -/
theorem finishFunction_stored (funcId : Nat) (result : EntryPointer)
    (body : Emission) (view : View) :
    (finishFunction funcId result body view).module.blocks result.block
      result.index = some (finishedEntry funcId body) := by
  simp [finishFunction, Module.store]

/-- The part of `_CompileLambdaImpl` after the function. -/
theorem closeFunction_returns (literal : UInt64) (result : EntryPointer)
    (closureRegister : UInt8) :
    Returns
      (do
        let idReg ← writeLoadLiteral literal
        writeOpcode .newClosure
        writeCodeU8 idReg
        writeCodeU8 closureRegister
        let entry ← fun state => do
          let entry ← state.module.load result
          return (entry, state)
        storeClosedValues closureRegister 0 entry.closedSymbols
        return closureRegister)
      fun offset view =>
        let id := emitLiteral literal view
        let symbols := (view.module.loaded result).closedSymbols
        let closed := emitClosedValues closureRegister 0 symbols id.view
        (view.module.blocks result.block result.index).isSome ∧
          AllInside (closedOperations symbols id.view) ∧
            (Code.seq id.code (.seq
              (.instruction (.newClosure id.reg closureRegister))
              closed.1)).Fits offset := by
  refine ((writeLoadLiteral_returns literal).bind
    (writeLoadLiteral_generates literal) fun idReg =>
      .opcode .newClosure (.byte idReg (.byte closureRegister
        ((loadEntry_returns result).bind (loadEntry_generates result)
          fun entry => (storeClosedValues_returns closureRegister
            entry.closedSymbols 0).before (storeClosedValues_generates
              closureRegister entry.closedSymbols 0)
                fun _ => .ret closureRegister)))).congr ?_
  intro offset view
  simp only [Code.fits_seq, Code.fits_instruction, Emission.outcome,
    emitLiteral, View.take, Code.bytes, instructionReach, instructionBytes,
    List.length_cons, List.length_nil, Nat.add_assoc]
  grind

theorem compileLambdaImpl_returns (input : CompileInput)
    (lambdaId selfId : Symbol) {lambdaBody : CompileM UInt8}
    {body : View → Emission} {safe : Nat → View → Prop}
    (closureRegister : UInt8)
    (generates : Generates lambdaBody fun view => (body view).outcome)
    (returns : Returns lambdaBody safe) :
    Returns
      (compileLambdaImpl input lambdaId lambdaBody selfId closureRegister)
      fun offset view =>
        let added := addFunction view.module
        (safe 0 (functionView input lambdaId selfId added.2.1
            { view with module := added.2.2 }) ∧
          (emitBody input lambdaId selfId body view).code.bytes.length + 1 ≤
            codeLimit) ∧
          AllInside (lambdaOperations input lambdaId selfId body view) ∧
            (emitLambdaImpl input lambdaId body selfId closureRegister
              view).code.Fits offset := by
  intro state contained
  have function := compileFunction_returns input lambdaId selfId generates
    returns state
  by_cases compiles : ∃ result, compileFunction input lambdaId lambdaBody
      selfId state = .ok result
  · rcases compiles with ⟨⟨value, after⟩, functionOk⟩
    rcases compileFunction_ok generates contained functionOk with
      ⟨functionIs, afterContained, afterWritten, afterView, -⟩
    refine (bind_returns_iff functionOk).trans ?_
    cases functionIs
    refine (closeFunction_returns _ _ closureRegister after
      afterContained).trans ?_
    have offset : after.context.codeWrite = state.context.codeWrite := by
      have length := congrArg List.length afterWritten
      simpa only [written, Buffer.length_front] using length
    rw [afterView, offset]
    dsimp only
    rw [finishFunction_stored]
    have loaded : (finishFunction (addFunction state.module).2.1
        (addFunction state.module).1
        (emitBody input lambdaId selfId body (view state))
        (view state)).module.loaded (addFunction state.module).1 =
          finishedEntry (addFunction state.module).2.1
            (emitBody input lambdaId selfId body (view state)) :=
      Module.loaded_store _ _ _
    rw [loaded, closedSymbols_finishedEntry]
    have bodySafe := function.mp ⟨_, functionOk⟩
    refine and_congr (iff_of_true rfl bodySafe) (and_congr ?_ Iff.rfl)
    exact (and_iff_right (register_inside _)).symm.trans
      allInside_cons.symm
  · exact iff_of_false (bind_stops compiles) fun both =>
      compiles (function.mpr both.1)

/-! ## Jumps -/

/-- A step and what follows it return when both do. -/
theorem step_returns_iff {α β : Type} {step : CompileM α}
    {next : α → CompileM β} {state : CompileState} {safe rest : Prop}
    (first : (∃ left, step state = .ok left) ↔ safe)
    (continues : ∀ value after, step state = .ok (value, after) →
      ((∃ left, next value after = .ok left) ↔ rest)) :
    (∃ left, (step >>= next) state = .ok left) ↔ safe ∧ rest := by
  by_cases returns : ∃ left, step state = .ok left
  · rcases returns with ⟨⟨value, after⟩, ok⟩
    rw [and_iff_right (first.mp ⟨_, ok⟩), ← continues value after ok]
    exact bind_returns_iff ok
  · exact iff_of_false (bind_stops returns) fun both =>
      returns (first.mpr both.1)

/-- A hole that was left can be patched where four bytes fit from it on. -/
theorem patchOffset_returns {target : Nat} (location : Nat)
    {pre post : List UInt8} {low high : UInt8} {state : CompileState}
    (contained : Contained state.context)
    (before : written state = pre ++ [low, high] ++ post)
    (target_ : target = pre.length) :
    (∃ left, patchOffset target location state = .ok left) ↔
      target + 4 ≤ codeLimit := by
  have inside : target ≤ state.context.codeCapacity := by
    have := contained.codeWrite
    have := congrArg List.length before
    simp only [written, Buffer.length_front, List.length_append] at this
    omega
  have moved : Contained { state.context with codeWrite := target } :=
    { contained with codeWrite := inside }
  have writes := writeCodeU16_returns (UInt16.ofNat (location - target - 2))
    { state with context := { state.context with codeWrite := target } } moved
  have sought : seekCode target state = .ok ((),
      { state with context := { state.context with codeWrite := target } }) :=
    rfl
  refine (bind_returns_iff sought).trans ?_
  refine (step_returns_iff writes fun _ _ _ => ?_).trans (and_iff_left trivial)
  exact iff_of_true ⟨_, rfl⟩ trivial

theorem reserveOffset_returns :
    Returns reserveOffset fun offset _ => offset + 2 ≤ codeLimit := by
  intro state contained
  refine Iff.trans ?_ (ensureCodeCapacity_returns contained (by decide))
  unfold reserveOffset onContext
  dsimp only
  cases ensureCodeCapacity 2 state.context with
  | error stop =>
      simp only [Stop.error_bind]
      exact iff_of_false nofun nofun
  | ok grown =>
      simp only [Stop.ok_bind]
      exact iff_of_true ⟨_, rfl⟩ ⟨_, rfl⟩

theorem writeMoveResult_returns (falseReg trueReg : UInt8) :
    Returns (writeMoveResult falseReg trueReg) fun offset _ =>
      (moveResult falseReg trueReg).Fits offset := by
  unfold writeMoveResult moveResult
  by_cases differ : falseReg ≠ trueReg
  · simp only [if_pos differ]
    refine (Returns.opcode .mov (.byte falseReg
      (writeCodeU8_returns trueReg))).congr fun offset _ => ?_
    rw [Code.fits_instruction]
    change _ ↔ offset + 3 ≤ codeLimit
    omega
  · simp only [if_neg differ]
    exact (Returns.of_total (.ret ())).congr fun _ _ =>
      iff_of_true trivial Code.fits_empty

theorem length_written (state : CompileState) :
    (written state).length = state.context.codeWrite :=
  Buffer.length_front _ _

/--
An `if` returns when its three parts and the move do, and the second hole can
be patched: that request ends last.
-/
theorem compileIf_returns {ifTest ifThen ifElse : CompileM UInt8}
    {test thenArm elseArm : View → Emission}
    {testSafe thenSafe elseSafe : Nat → View → Prop}
    (testGenerates : Generates ifTest fun view => (test view).outcome)
    (thenGenerates : Generates ifThen fun view => (thenArm view).outcome)
    (elseGenerates : Generates ifElse fun view => (elseArm view).outcome)
    (testReturns : Returns ifTest testSafe)
    (thenReturns : Returns ifThen thenSafe)
    (elseReturns : Returns ifElse elseSafe) :
    Returns (compileIf ifTest ifThen ifElse) fun offset view =>
      let tested := test view
      let armed := thenArm tested.view
      let elsed := elseArm armed.view
      let thenOffset := offset + tested.code.bytes.length + 4
      let elseOffset := thenOffset + armed.code.bytes.length + 3
      testSafe offset view ∧ thenSafe thenOffset tested.view ∧
        elseSafe elseOffset armed.view ∧
        (moveResult elsed.reg armed.reg).Fits
          (elseOffset + elsed.code.bytes.length) ∧
        elseOffset + 2 ≤ codeLimit := by
  intro state contained
  let tested := test (view state)
  let armed := thenArm tested.view
  let elsed := elseArm armed.view
  let thenOffset := state.context.codeWrite + tested.code.bytes.length + 4
  let elseOffset := thenOffset + armed.code.bytes.length + 3
  have later : thenOffset + 3 ≤ elseOffset :=
    Nat.add_le_add_right (Nat.le_add_right _ _) 3
  change _ ↔ testSafe state.context.codeWrite (view state) ∧
    thenSafe thenOffset tested.view ∧ elseSafe elseOffset armed.view ∧
    (moveResult elsed.reg armed.reg).Fits
      (elseOffset + elsed.code.bytes.length) ∧ elseOffset + 2 ≤ codeLimit
  -- Every request in the order in which it is made.
  have ordered : (∃ left, compileIf ifTest ifThen ifElse state = .ok left) ↔
      testSafe state.context.codeWrite (view state) ∧
        thenOffset - 3 ≤ codeLimit ∧ thenOffset - 2 ≤ codeLimit ∧
        thenOffset ≤ codeLimit ∧ thenSafe thenOffset tested.view ∧
        elseOffset - 2 ≤ codeLimit ∧ elseOffset ≤ codeLimit ∧
        thenOffset + 2 ≤ codeLimit ∧ elseSafe elseOffset armed.view ∧
        (moveResult elsed.reg armed.reg).Fits
          (elseOffset + elsed.code.bytes.length) ∧
        elseOffset + 2 ≤ codeLimit := by
    -- The test, its conditional jump and the first hole.
    refine step_returns_iff (testReturns state contained)
      fun resultReg afterTest testOk => ?_
    have testDone := testGenerates state _ _ contained testOk
    have atJump : afterTest.context.codeWrite + 4 = thenOffset :=
      congrArg (· + 4) testDone.codeWrite
    have jumps := writeCodeU8_returns Opcode.jz.byte _ testDone.contained
    refine step_returns_iff (jumps.trans (by omega)) fun _ jumped jzOk => ?_
    have jzDone := writeOpcode_generates .jz _ _ _ testDone.contained jzOk
    have atOperand : jumped.context.codeWrite =
      afterTest.context.codeWrite + 1 := jzDone.codeWrite
    have writes := writeCodeU8_returns resultReg _ jzDone.contained
    refine step_returns_iff (writes.trans (by omega))
      fun _ operand operandOk => ?_
    have operandDone := writeCodeU8_generates resultReg _ _ _ jzDone.contained
      operandOk
    have atHole : operand.context.codeWrite = jumped.context.codeWrite + 1 :=
      operandDone.codeWrite
    rw [codeOffset_bind]
    have reserves := reserveOffset_returns _ operandDone.contained
    refine step_returns_iff (reserves.trans (by omega)) fun _ holed holeOk => ?_
    rcases reserveOffset_ok operandDone.contained holeOk with
      ⟨holedContained, holedView, low, high, holedWritten⟩
    have atThen : holed.context.codeWrite = thenOffset := by
      rw [← length_written, holedWritten, List.length_append, length_written]
      change operand.context.codeWrite + 2 = thenOffset
      omega
    -- The then arm.
    have thenView : view holed = tested.view :=
      holedView.trans (operandDone.view.trans (jzDone.view.trans testDone.view))
    have arms := thenReturns holed holedContained
    rw [atThen, thenView] at arms
    refine step_returns_iff arms fun trueReg afterThen thenOk => ?_
    have thenDone : Reaches holed afterThen trueReg armed.outcome := by
      have done : Reaches holed afterThen trueReg
          (thenArm (view holed)).outcome :=
        thenGenerates holed _ _ holedContained thenOk
      rw [thenView] at done
      exact done
    have atSkip : afterThen.context.codeWrite + 3 = elseOffset := by
      rw [thenDone.codeWrite, atThen]
      rfl
    -- Its jump and the second hole.
    have skips := writeCodeU8_returns Opcode.jmp.byte _ thenDone.contained
    refine step_returns_iff (skips.trans (by omega)) fun _ skipped jmpOk => ?_
    have jmpDone := writeOpcode_generates .jmp _ _ _ thenDone.contained jmpOk
    have atEnd : skipped.context.codeWrite = afterThen.context.codeWrite + 1 :=
      jmpDone.codeWrite
    rw [codeOffset_bind]
    have reserves := reserveOffset_returns _ jmpDone.contained
    refine step_returns_iff (reserves.trans (by omega))
      fun _ reserved reserveOk => ?_
    rcases reserveOffset_ok jmpDone.contained reserveOk with
      ⟨reservedContained, reservedView, low', high', reservedWritten⟩
    -- The first hole is filled.
    rw [codeOffset_bind]
    have reservedIs : written reserved = written operand ++ [low, high] ++
        (armed.code.bytes ++ ([Opcode.jmp.byte] ++ [low', high'])) := by
      rw [reservedWritten, jmpDone.written, thenDone.written, holedWritten]
      simp [Emission.outcome]
    have patches := patchOffset_returns (written reserved).length
      reservedContained reservedIs rfl
    rw [length_written operand] at patches ⊢
    refine step_returns_iff (patches.trans (by omega))
      fun _ patched patchOk => ?_
    rcases patchOffset_ok reservedContained reservedIs
      (length_written operand).symm rfl patchOk with
      ⟨patchedContained, patchedView, patchedWritten⟩
    have atElse : patched.context.codeWrite = elseOffset := by
      rw [← length_written, patchedWritten]
      simp only [List.length_append, length_bytesU16, length_written,
        List.length_cons, List.length_nil]
      omega
    -- The else arm.
    have elseView : view patched = armed.view :=
      patchedView.trans
        (reservedView.trans (jmpDone.view.trans thenDone.view))
    have elses := elseReturns patched patchedContained
    rw [atElse, elseView] at elses
    refine step_returns_iff elses fun falseReg afterElse elseOk => ?_
    have elseDone : Reaches patched afterElse falseReg elsed.outcome := by
      have done : Reaches patched afterElse falseReg
          (elseArm (view patched)).outcome :=
        elseGenerates patched _ _ patchedContained elseOk
      rw [elseView] at done
      exact done
    -- The move and the second hole.
    have moves := writeMoveResult_returns falseReg trueReg _ elseDone.contained
    dsimp only at moves
    rw [elseDone.codeWrite, atElse] at moves
    have sameMove : moveResult falseReg trueReg =
        moveResult elsed.reg armed.reg :=
      congrArg₂ moveResult elseDone.value thenDone.value
    rw [sameMove] at moves
    refine step_returns_iff moves fun _ moved moveOk => ?_
    have moveDone := writeMoveResult_generates falseReg trueReg _ _ _
      elseDone.contained moveOk
    rw [codeOffset_bind]
    have movedIs : written moved =
        (written operand ++ bytesU16
            (UInt16.ofNat (armed.code.bytes ++
              ([Opcode.jmp.byte] ++ [low', high'])).length) ++
          armed.code.bytes ++ [Opcode.jmp.byte]) ++ [low', high'] ++
          (elsed.code.bytes ++ (moveResult falseReg trueReg).bytes) := by
      rw [moveDone.written, elseDone.written, patchedWritten]
      simp [Emission.outcome]
    have endTarget : (written skipped).length =
        (written operand ++ bytesU16
            (UInt16.ofNat (armed.code.bytes ++
              ([Opcode.jmp.byte] ++ [low', high'])).length) ++
          armed.code.bytes ++ [Opcode.jmp.byte]).length := by
      rw [jmpDone.written, thenDone.written, holedWritten]
      simp [Emission.outcome, length_bytesU16]
      omega
    have patches := patchOffset_returns (written moved).length
      moveDone.contained movedIs endTarget
    rw [length_written skipped] at patches ⊢
    refine (step_returns_iff (patches.trans
      (show _ ↔ elseOffset + 2 ≤ codeLimit by omega)) fun _ _ _ => ?_).trans
        (and_iff_left trivial)
    exact iff_of_true ⟨_, rfl⟩ trivial
  refine ordered.trans ?_
  constructor
  · rintro ⟨tests, -, -, -, arms, -, -, -, rest⟩
    exact ⟨tests, arms, rest⟩
  · rintro ⟨tests, arms, elses, moves, last⟩
    exact ⟨tests, by omega, by omega, by omega, arms, by omega, by omega,
      by omega, elses, moves, last⟩

/-! ## The whole expression -/

/-- Every use of a function's arrays is inside, every request is served. -/
structure Function.Inside (input : CompileInput) (f : Function) : Prop where
  arrays : AllInside (f.operations input)
  code : ∀ request ∈ f.requests input, request ≤ codeLimit

/--
Nothing that compiling an expression at an offset does is outside, nested
functions included.
-/
def StaysInside (input : CompileInput) (expression : Expression)
    (scope : Scope) (offset : Nat) (view : View) : Prop :=
  AllInside (operations input expression view) ∧
    (emit input expression view).code.Fits offset ∧
      ∀ f ∈ functions input expression view scope, f.Inside input

/-- The bindings that `_CompileLambdaImpl` pushes before the body fit. -/
theorem functionView_top (input : CompileInput) (lambdaId selfId : Symbol)
    (funcId : Nat) (view : View) :
    (functionView input lambdaId selfId funcId view).top ≤ 2 := by
  unfold functionView
  split <;> simp [View.push]

theorem function_inside {input : CompileInput} {f : Function}
    (small : f.view.top ≤ 8) :
    f.Inside input ↔ AllInside (operations input f.body f.view) ∧
      (f.emission input).code.Fits 0 ∧
        (f.emission input).code.bytes.length + 1 ≤ codeLimit := by
  have registers := allInside_registers f.view.registers UInt8.ofNat
  have pushes := allInside_pushes small
  have requests : (∀ request ∈ f.requests input, request ≤ codeLimit) ↔
      (f.emission input).code.Fits 0 ∧
        (f.emission input).code.bytes.length + 1 ≤ codeLimit := by
    rw [Function.requests, List.forall_mem_append, List.forall_mem_singleton]
    rfl
  rw [← requests]
  constructor
  · rintro ⟨arrays, code⟩
    exact ⟨(allInside_append.mp (allInside_append.mp arrays).2).2, code⟩
  · rintro ⟨arrays, code⟩
    exact ⟨allInside_append.mpr ⟨registers,
      allInside_append.mpr ⟨pushes, arrays⟩⟩, code⟩

theorem lambdaFunctions_inside (input : CompileInput)
    (lambdaId selfId : Symbol) (body : Expression) (view : View)
    (scope : Scope) :
    let f := lambdaFunction input lambdaId selfId body view scope
    (∀ g ∈ lambdaFunctions (functions input body) f, g.Inside input) ↔
      StaysInside input body f.scope 0 f.view ∧
        (f.emission input).code.bytes.length + 1 ≤ codeLimit := by
  intro f
  have small : f.view.top ≤ 8 :=
    Nat.le_trans (functionView_top input lambdaId selfId _ _) (by decide)
  rw [lambdaFunctions, List.forall_mem_append, List.forall_mem_singleton,
    function_inside small, StaysInside]
  change _ ↔ (_ ∧ (f.emission input).code.Fits 0 ∧ _) ∧ _
  tauto

theorem compileLambda_inside {input : CompileInput} {body : Expression}
    (lambdaId selfId : Symbol) (closureRegister : UInt8) (scope : Scope)
    (returns : ∀ scope, Returns (compileExpression input body)
      (StaysInside input body scope)) :
    Returns
      (compileLambdaImpl input lambdaId (compileExpression input body) selfId
        closureRegister)
      fun offset view =>
        AllInside (lambdaOperations input lambdaId selfId (emit input body)
            view) ∧
          (emitLambdaImpl input lambdaId (emit input body) selfId
            closureRegister view).code.Fits offset ∧
          ∀ f ∈ lambdaFunctions (functions input body)
              (lambdaFunction input lambdaId selfId body view scope),
            f.Inside input := by
  refine (compileLambdaImpl_returns input lambdaId selfId closureRegister
    (compileExpression_generates input body)
    (returns (scope.enter lambdaId selfId))).congr fun offset view => ?_
  have nested := lambdaFunctions_inside input lambdaId selfId body view scope
  refine (and_congr_left fun _ => nested.symm).trans ?_
  tauto

theorem compileTupleMembers_inside {input : CompileInput}
    {first : Expression} (scope : Scope) (outReg : UInt8) (count i : Nat)
    (returns : Returns (compileExpression input first)
      (StaysInside input first scope)) :
    Returns (compileTupleMembers (compileExpression input first) outReg i count)
      fun offset view =>
        AllInside (tupleOperations (emit input first) (operations input first)
            count view) ∧
          (emitTupleMembers (emit input first) outReg i count view).1.Fits
            offset ∧
          ∀ f ∈ tupleFunctions (emit input first)
              (functions input first · scope) count view, f.Inside input := by
  induction count generalizing i with
  | zero =>
      exact (Returns.of_total (.ret ())).congr fun _ _ =>
        iff_of_true trivial ⟨allInside_nil, Code.fits_empty, nofun⟩
  | succ count ih =>
      refine (returns.bind (compileExpression_generates input first)
        fun memberReg => .opcode .storea64 (.byte outReg (.word _
          (.byte memberReg (ih (i + 1)))))).congr fun offset view => ?_
      rw [tupleOperations, tupleFunctions, allInside_append,
        List.forall_mem_append, emitTupleMembers, Code.fits_seq, Code.fits_seq,
        Code.fits_instruction]
      simp only [StaysInside, Emission.outcome, instructionReach, Code.bytes,
        instructionBytes, List.length_cons, List.length_append,
        length_bytesU16, List.length_nil, Nat.add_assoc]
      grind

/-- A step that only writes code. -/
theorem Returns.inside {input : CompileInput} {expression : Expression}
    {step : CompileM UInt8} (scope : Scope)
    (returns : Returns step fun offset view =>
      (emit input expression view).code.Fits offset)
    (own : ∀ view, AllInside (operations input expression view))
    (alone : ∀ view, functions input expression view scope = []) :
    Returns step (StaysInside input expression scope) :=
  returns.congr fun offset view => by
    rw [StaysInside, alone view, and_iff_right (own view)]
    exact (and_iff_left nofun).symm

/-- A step that leaves nothing to check. -/
theorem Returns.idle {input : CompileInput} {expression : Expression}
    {step : CompileM UInt8} (scope : Scope) (total : Total step)
    (own : ∀ view, AllInside (operations input expression view))
    (noCode : ∀ view, (emit input expression view).code = .empty)
    (alone : ∀ view, functions input expression view scope = []) :
    Returns step (StaysInside input expression scope) :=
  .inside scope ((Returns.of_total total).congr fun offset view => by
    rw [noCode view]
    exact iff_of_true trivial Code.fits_empty) own alone

theorem compileLet_inside {input : CompileInput} {value body : Expression}
    (range : TokenRange) (id : Symbol) (scope : Scope)
    (valueReturns : ∀ scope, Returns (compileExpression input value)
      (StaysInside input value scope))
    (bodyReturns : ∀ scope, Returns (compileExpression input body)
      (StaysInside input body scope)) :
    Returns (compileExpression input (.let_ range id value body))
      (StaysInside input (.let_ range id value body) scope) := by
  intro state contained
  let emitted := emit input value (view state)
  have valueGenerates := compileExpression_generates input value
  have bodyGenerates := compileExpression_generates input body
  have whole := (valueReturns scope).bind valueGenerates fun destReg =>
    (pushBinding_returns id destReg).bind (pushBinding_generates id destReg)
      fun _ => (bodyReturns (scope.bind id emitted.reg)).before bodyGenerates
        fun result => popBinding_total.bind fun _ => .ret result
  refine (whole state contained).trans ?_
  simp only [StaysInside, operations, functions, emit, emitLet, Code.fits_seq,
    allInside_append, allInside_cons, push_inside, List.forall_mem_append,
    Emission.outcome, List.length_nil, Nat.add_zero]
  tauto

theorem compileLetRec_inside {input : CompileInput}
    {lambdaBody body : Expression} (range lambdaRange : TokenRange)
    (id lambdaId : Symbol) (scope : Scope)
    (valueReturns : ∀ scope, Returns (compileExpression input lambdaBody)
      (StaysInside input lambdaBody scope))
    (bodyReturns : ∀ scope, Returns (compileExpression input body)
      (StaysInside input body scope)) :
    let letrec := Expression.letrec range id
      (.lambda lambdaRange lambdaId lambdaBody) body
    Returns (compileExpression input letrec)
      (StaysInside input letrec scope) := by
  intro letrec state contained
  let innerScope := scope.bind id (view state).nextReg
  have whole := Returns.after getFreeIntRegister_total
    getFreeIntRegister_generates fun destReg =>
      (pushBinding_returns id destReg).bind (pushBinding_generates id destReg)
        fun _ => (compileLambda_inside lambdaId id destReg innerScope
          valueReturns).bind (compileLambdaImpl_generates input lambdaId id
            destReg (compileExpression_generates input lambdaBody))
          fun _ => (bodyReturns innerScope).before
            (compileExpression_generates input body) fun bodyReg =>
              popBinding_total.bind fun _ => .ret bodyReg
  refine (whole state contained).trans ?_
  simp only [letrec, StaysInside, operations, functions, emit, emitLetRec,
    Code.fits_seq, allInside_append, allInside_cons, register_inside,
    push_inside, List.forall_mem_append, Emission.outcome, List.length_nil,
    Nat.add_zero]
  tauto

/-- An operator's opcode, if it has one, and its operands. -/
theorem writeOperator_returns {α : Type} {input : CompileInput}
    {range : TokenRange} {error : String} (opcode : Option Opcode)
    {next : CompileM α} {following : Nat → View → Prop}
    (alike : ∀ offset view,
      following offset (view.report input range error) ↔
        following offset view)
    (continues : Returns next following) :
    Returns (do writeOperator input range error opcode; next)
      fun offset view =>
        match opcode with
        | some _ => offset + 1 ≤ codeLimit ∧ following (offset + 1) view
        | none => following offset view := by
  cases opcode with
  | some opcode => exact continues.opcode opcode
  | none =>
      exact (Returns.after (reportCompileError_total input range error)
        (reportCompileError_generates input range error)
        fun _ => continues).congr fun offset view => alike offset view

/-- Compiling an expression returns when nothing it does is outside. -/
theorem compileExpression_returns (input : CompileInput)
    (expression : Expression) (scope : Scope) :
    Returns (compileExpression input expression)
      (StaysInside input expression scope) := by
  induction expression using Expression.functionInduction generalizing scope with
  | integerConstant range literalValue =>
      exact .inside scope (writeLoadLiteral_returns literalValue)
        (fun _ => by simp [operations, literalOperations]) fun _ => rfl
  | true_ range =>
      exact .inside scope (writeLoadLiteral_returns 1)
        (fun _ => by simp [operations, literalOperations]) fun _ => rfl
  | false_ range =>
      exact .inside scope (writeLoadLiteral_returns 0)
        (fun _ => by simp [operations, literalOperations]) fun _ => rfl
  | error range =>
      exact .idle scope (.ret 0) (fun _ => allInside_nil) (fun _ => rfl)
        fun _ => rfl
  | invalid range =>
      exact .idle scope ((reportCompileError_total input range _).bind
        fun _ => .ret 0) (fun _ => allInside_nil) (fun _ => rfl) fun _ => rfl
  | tupleFinal range first firstIh =>
      exact .idle scope ((reportCompileError_total input range _).bind
        fun _ => .ret 0) (fun _ => allInside_nil) (fun _ => rfl) fun _ => rfl
  | identifier range id =>
      refine (compileIdentifierImpl_returns id).congr fun offset view => ?_
      exact and_congr_right fun _ => (and_iff_left nofun).symm
  | let_ range id value body valueIh bodyIh =>
      exact compileLet_inside range id scope valueIh bodyIh
  | letrecFunction range id lambdaRange lambdaId lambdaBody body valueIh
      bodyIh =>
      exact compileLetRec_inside range lambdaRange id lambdaId scope valueIh
        bodyIh
  | letrecOther range id value body notLambda valueIh bodyIh =>
      have total : Total (compileLetRec input id value.range none
          (compileExpression input body)) :=
        getFreeIntRegister_total.bind fun destReg =>
          (reportCompileError_total input value.range _).bind fun _ =>
            .ret destReg
      have other : compileExpression input (.letrec range id value body) =
          compileLetRec input id value.range none
            (compileExpression input body) := by
        cases value with
        | lambda range id body => exact absurd trivial notLambda
        | _ => rfl
      refine .idle scope (other ▸ total) (fun view => ?_) (fun view => ?_)
        fun view => ?_
      · rw [operations_letrec_other notLambda]
        simp
      · rw [emit_letrec_other notLambda]
        rfl
      · rw [functions_letrec_other notLambda]
  | lambda range id body bodyIh =>
      refine (Returns.after getFreeIntRegister_total
        getFreeIntRegister_generates fun closureRegister =>
          compileLambda_inside id invalidSymbol closureRegister scope
            bodyIh).congr fun offset view => ?_
      exact and_congr_left fun _ =>
        ((and_iff_right (register_inside _)).symm.trans allInside_cons.symm)
  | apply range function argument functionIh argumentIh =>
      refine ((functionIh scope).bind
        (compileExpression_generates input function) fun lambdaRegister =>
          ((argumentIh scope).bind
            (compileExpression_generates input argument) fun argRegister =>
              .after getFreeIntRegister_total getFreeIntRegister_generates
                fun retRegister => .opcode .call (.byte lambdaRegister
                  (.byte argRegister (.lastByte retRegister))))).congr
        fun offset view => ?_
      simp only [StaysInside, operations, functions, emit, emitApply,
        allInside_append, allInside_cons, register_inside, allInside_nil,
        List.forall_mem_append, Code.fits_seq, Code.fits_instruction,
        instructionReach, instructionBytes, Emission.outcome,
        List.length_cons, List.length_nil]
      grind
  | binary range operator left right leftIh rightIh =>
      refine ((leftIh scope).bind
        (compileExpression_generates input left) fun leftRegister =>
          (rightIh scope).bind
            (compileExpression_generates input right) fun rightRegister =>
              .after getFreeIntRegister_total getFreeIntRegister_generates
                fun outRegister => writeOperator_returns
                  (binaryOpcode operator) (fun _ _ => Iff.rfl)
                  (.byte leftRegister (.byte rightRegister
                    (.lastByte outRegister)))).congr fun offset view => ?_
      simp only [StaysInside, operations, functions, emit, emitBinary,
        allInside_append, allInside_cons, register_inside, allInside_nil,
        List.forall_mem_append, Emission.outcome, List.length_nil]
      cases operator <;>
        simp only [binaryOpcode, binaryInstruction, Code.fits_seq,
          Code.fits_instruction, Code.fits_operands, instructionReach,
          instructionBytes, List.length_cons, List.length_nil] <;>
        grind
  | unary range operator arg argIh =>
      refine ((argIh scope).bind
        (compileExpression_generates input arg) fun argRegister =>
          .after getFreeIntRegister_total getFreeIntRegister_generates
            fun outRegister => writeOperator_returns
              (unaryOpcode operator) (fun _ _ => Iff.rfl)
              (.byte argRegister (.lastByte outRegister))).congr
        fun offset view => ?_
      simp only [StaysInside, operations, functions, emit, emitUnary,
        allInside_append, allInside_cons, register_inside, allInside_nil,
        Emission.outcome, List.length_nil]
      cases operator <;>
        simp only [unaryOpcode, unaryInstruction, Code.fits_seq,
          Code.fits_instruction, Code.fits_operands, instructionReach,
          instructionBytes, List.length_cons, List.length_nil] <;>
        grind
  | if_ range test thenArm elseArm testIh thenIh elseIh =>
      refine (compileIf_returns (compileExpression_generates input test)
        (compileExpression_generates input thenArm)
        (compileExpression_generates input elseArm) (testIh scope)
        (thenIh scope) (elseIh scope)).congr fun offset view => ?_
      simp only [StaysInside, operations, functions, emit, emitIf,
        allInside_append, List.forall_mem_append, Code.fits_seq,
        Code.fits_branch, Nat.add_assoc]
      grind
  | tuple range first rest length firstIh restIh =>
      refine ((writeLoadLiteral_returns _).bind
        (writeLoadLiteral_generates _) fun lenReg =>
          .after getFreeIntRegister_total getFreeIntRegister_generates
            fun outReg => .opcode .newTuple (.byte lenReg (.byte outReg
              ((compileTupleMembers_inside scope outReg length 0
                (firstIh scope)).before (compileTupleMembers_generates
                  (compileExpression_generates input first) outReg length 0)
                  fun _ => .ret outReg)))).congr fun offset view => ?_
      simp only [StaysInside, operations, functions, emit, emitTuple,
        emitLiteral, allInside_cons, register_inside, true_and,
        Code.fits_seq, Code.fits_instruction, instructionReach,
        instructionBytes, Code.bytes, Emission.outcome, List.length_cons,
        List.length_nil, Nat.add_assoc]
      grind

/-! ## The module -/

/--
A compilation returns if and only if every function of the module uses its
binding array and its closure list inside the blocks it was given for them, and
all its requests for code are served.
-/
theorem compileModule_returns_iff (input : CompileInput)
    (expression : Expression) :
    (∃ result, compileModule input expression = .ok result) ↔
      ∀ f ∈ moduleFunctions input expression, f.Inside input := by
  have fresh := initCompileContext_contained (input.uninit 0)
  have whole := (compileExpression_returns input expression .entry).bind
    (compileExpression_generates input expression) fun resultRegister =>
      finishCompile_returns resultRegister 0 (addFunction moduleInit).1
        (return 0) fun _ => ⟨_, rfl⟩
  have entry : (entryFunction input expression).view.top ≤ 8 :=
    Nat.zero_le 8
  rw [moduleFunctions, List.forall_mem_append, List.forall_mem_singleton,
    function_inside entry]
  refine (whole
    { context := initCompileContext (input.uninit 0)
      module := (addFunction moduleInit).2.2
      errors := []
      finished := []
      searched := [] } fresh).trans ?_
  change (_ ∧ _ ∧ _) ∧ 0 + _ + 1 ≤ codeLimit ↔ _
  rw [Nat.zero_add]
  constructor
  · rintro ⟨⟨arrays, code, nested⟩, last⟩
    exact ⟨nested, arrays, code, last⟩
  · rintro ⟨nested, arrays, code, last⟩
    exact ⟨⟨arrays, code, nested⟩, last⟩

end Millie.Compiler
