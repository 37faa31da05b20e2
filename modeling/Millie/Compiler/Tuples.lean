import Millie.Compiler.Apart
import Millie.Compiler.Decoding
import Millie.Compiler.LiveRegisters
import Millie.Machine.Pointers

/-!
# Tuples

The loop of `_CompileTuple` compiles the first component in every round.  The
code of a tuple is therefore the same whatever its other components are, so that
it evaluates none of them; what it leaves in the slots of the new array are the
values of as many evaluations of the first one.
-/

namespace Millie.Compiler

open Relation
open Millie.Symbols Millie.Syntax Millie.Machine

/-! ## Tuple expressions -/

/-- A tuple expression as `_ParseTuple` builds it, and its components. -/
inductive TupleOf : Expression → List Expression → Prop where
  | two (range finalRange : TokenRange) (first last : Expression) :
      TupleOf (.tuple range first (.tupleFinal finalRange last) 2)
        [first, last]
  | more {rest : Expression} {components : List Expression}
      (range : TokenRange) (first : Expression)
      (tail : TupleOf rest components) :
      TupleOf (.tuple range first rest (components.length + 1))
        (first :: components)

/-- The length of a tuple expression counts its components. -/
theorem TupleOf.shape {expression : Expression} {components : List Expression}
    (tuple : TupleOf expression components) :
    ∃ range first rest others, components = first :: others ∧
      expression = .tuple range first rest components.length := by
  cases tuple with
  | two range finalRange first last =>
      exact ⟨range, first, _, [last], rfl, rfl⟩
  | more range first tail => exact ⟨range, first, _, _, rfl, rfl⟩

/-! ## Turns -/

/--
A round of the loop: the component whose turn it is, and the states of the
compiler before and after the round.
-/
structure Turn where
  component : Expression
  before : View
  after : View

namespace Turn

/-- What compiling the component in its turn gives. -/
def emission (input : CompileInput) (turn : Turn) : Emission :=
  emit input turn.component turn.before

end Turn

/-- The turns of the components when every round compiles the same. -/
def turns (member : View → Emission) : List Expression → View → List Turn
  | [], _ => []
  | component :: components, view =>
      ⟨component, view, (member view).view⟩ ::
        turns member components (member view).view

/-- The first slots have offsets that the machine reads back. -/
theorem toOffset_slot {i : Nat} (small : i < 2 ^ 15) :
    toOffset (UInt16.ofNat i) = .ok i := by
  have low : (UInt16.ofNat i).toNat = i := by
    rw [UInt16.toNat_ofNat', Nat.mod_eq_of_lt (by omega)]
  unfold toOffset toInt16
  rw [low, if_pos small, if_pos (Int.natCast_nonneg i)]
  rfl

/-! ## Runs -/

/--
A run that evaluates each component once, in order: the words are what the code
of the components leaves in their result registers.
-/
inductive Builds (input : CompileInput) (module : Module)
    (function : CompiledExpression) :
    List Turn → FrameState → FrameState → List Word → Prop where
  | nil (frame : FrameState) : Builds input module function [] frame frame []
  | cons {turn : Turn} {turns : List Turn}
      {frame evaluated stored exit : FrameState} {word : Word}
      {words : List Word}
      (placed : Placed function.code frame.ip
        (turn.emission input).code.bytes)
      (steps : Steps module function frame evaluated)
      (done : evaluated.ip =
        frame.ip + (turn.emission input).code.bytes.length)
      (value : readReg evaluated.registers (turn.emission input).reg =
        .ok word)
      (step : Step module function evaluated stored)
      (builds : Builds input module function turns stored exit words) :
      Builds input module function (turn :: turns) frame exit
        (word :: words)

theorem readReg_of_file {registers : List Word} {reg : UInt8} {word : Word}
    (holds : fileOf registers reg = word) (known : word ≠ .uninit) :
    readReg registers reg = .ok word := by
  unfold fileOf at holds
  unfold readReg
  cases found : registers[reg.toNat]? with
  | some other =>
      rw [found] at holds
      exact congrArg Except.ok holds
  | none =>
      rw [found] at holds
      exact absurd holds.symm known

section

variable {module : Module} {function : CompiledExpression}

/-- Steps by instructions that do not name a register. -/
theorem Code.Omits.confined {code : Code} {apart : UInt8}
    (omits : code.Omits apart) {set : Set Nat} {frame after : FrameState}
    (points : PointsInto set (some apart) frame.registers frame.memory)
    (fresh : ∀ b, frame.memory.length ≤ b → b ∈ set)
    (steps : StepsBy module function code.instructions frame after) :
    Confined set (some apart) frame.memory after.registers after.memory := by
  induction steps with
  | refl => exact ⟨points, .refl _⟩
  | tail _ step ih =>
      rcases step with ⟨step, i, ip, fetched, member⟩
      have grown := ih.extends_.grows
      have last := step.confined fetched ih.points
        (fun reg named same => omits i member (Option.some.inj same ▸ named))
        fun b old _ => fresh b (Nat.le_trans grown old)
      exact ⟨last.points, ih.extends_.trans last.extends_⟩

/--
While the components are evaluated, one register has the only pointer to the
array.
-/
structure Holds (out : UInt8) (array : Nat) (slots : List Word)
    (frame : FrameState) : Prop where
  register : fileOf frame.registers out = .block array
  slots : frame.memory[array]? = some slots
  points : PointsInto { b | b ≠ array } (some out) frame.registers
    frame.memory

theorem Holds.inside {out : UInt8} {array : Nat} {slots : List Word}
    {frame : FrameState} (holds : Holds out array slots frame) :
    array < frame.memory.length :=
  (List.getElem?_eq_some_iff.mp holds.slots).1

/-- Evaluating a component leaves the array alone. -/
theorem Holds.evaluate {out : UInt8} {array : Nat} {slots : List Word}
    {frame after : FrameState} (holds : Holds out array slots frame)
    {code : Code} (omits : code.Omits out)
    (steps : StepsBy module function code.instructions frame after)
    (executes : code.Executes (fileOf frame.registers)
      (fileOf after.registers)) : Holds out array slots after := by
  have confined := omits.confined holds.points
    (fun b old same => by
      subst same
      exact Nat.not_le_of_lt holds.inside old) steps
  constructor
  · rw [omits.spares.keeps _ _ executes out rfl]
    exact holds.register
  · rw [confined.extends_.kept array holds.inside (fun other => other rfl)]
    exact holds.slots
  · exact confined.points

/-- Storing a component's value in its slot. -/
theorem Holds.store {out reg : UInt8} {slot : UInt16} {array i ip : Nat}
    {slots : List Word} {frame after : FrameState}
    (holds : Holds out array slots frame) (differs : reg ≠ out)
    (offset : toOffset slot = .ok i)
    (fetched : fetch function.code frame.ip =
      .ok (.storea64 out slot reg, ip))
    (step : Step module function frame after) :
    ∃ word, readReg frame.registers reg = .ok word ∧ after.ip = ip ∧
      Holds out array (slots.set i word) after := by
  cases step with
  | call fetched' calls returns written =>
      rw [fetched] at fetched'
      cases fetched'
  | perform fetched' plain performed =>
      rw [fetched] at fetched'
      cases fetched'
      have register := readReg_of_file holds.register nofun
      simp only [perform, register, offset, Stop.ok_bind,
        Stop.bind_eq_ok_iff] at performed
      rcases performed with ⟨word, value, memory, stores, same⟩
      cases same
      have wordIn := holds.points.read value
        fun same => differs (Option.some.inj same).symm
      simp only [storeWord, holds.slots] at stores
      split at stores
      · cases stores
        refine ⟨word, value, rfl, holds.register, ?_, holds.points.registers,
          ?_⟩
        · exact List.getElem?_set_self holds.inside
        · intro cells member other inCells
          rcases List.mem_or_eq_of_mem_set member with old | rfl
          · exact holds.points.memory cells old other inCells
          · rcases List.mem_or_eq_of_mem_set inCells with old | rfl
            · exact holds.points.memory slots
                (List.mem_of_getElem? holds.slots) other old
            · exact wordIn
      · cases stores

/-- Quiet code that is generated is structured. -/
theorem emit_structured {input : CompileInput} {expression : Expression}
    {view : View} (room : (emit input expression view).view.registers ≤ 256)
    (quiet : (emit input expression view).view.errors = []) :
    (emit input expression view).code.Structured :=
  (emit_tracked (fun (_ : UInt8) (live : False) => live.elim) input
    expression (Held.Describes.of view 0) (Nat.zero_le _) room
    quiet).tidy.structured

theorem perform_literal (value : UInt64) (reg : UInt8) (frame : FrameState) :
    perform module (literalInstruction value reg) frame =
      loadImmediate value reg frame := by
  have loaded := loadedLiteral_literalInstruction value reg
  unfold literalInstruction at loaded ⊢
  by_cases byte : value ≤ 0xFF
  · simp only [if_pos byte] at loaded ⊢
    exact congrArg (loadImmediate · reg frame) (Option.some.inj loaded)
  by_cases word : value ≤ 0xFFFF
  · simp only [if_neg byte, if_pos word] at loaded ⊢
    exact congrArg (loadImmediate · reg frame) (Option.some.inj loaded)
  by_cases double : value ≤ 0xFFFFFFFF
  · simp only [if_neg byte, if_neg word, if_pos double] at loaded ⊢
    exact congrArg (loadImmediate · reg frame) (Option.some.inj loaded)
  · simp only [if_neg byte, if_neg word, if_neg double]
    rfl

end

end Millie.Compiler
