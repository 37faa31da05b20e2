import Millie.Compiler.Clobber
import Millie.Compiler.GeneratorSound

/-!
# Whether live registers survive

The code of an expression, executed on any path through its branches, leaves the
registers of the live bindings and the closure pointer alone if and only if no
`if` in it ends its then arm in one of them, unless the else arm ends there too.
-/

namespace Millie.Compiler

open Millie.Symbols Millie.Syntax Millie.Machine

/-! ## Executions that keep registers -/

/-- Executing the code on any path leaves the live registers unchanged. -/
def Code.Keeps (live : UInt8 → Prop) (code : Code) : Prop :=
  ∀ before after, code.Executes before after →
    ∀ reg, live reg → after reg = before reg

section

variable {live : UInt8 → Prop}

theorem Code.Spares.keeps {code : Code} (spares : code.Spares live) :
    code.Keeps live := by
  rintro before after executes reg isLive
  induction executes with
  | empty file => rfl
  | @instruction i before after leads =>
      apply leads.kept
      intro writes
      exact spares i (List.mem_singleton_self i) reg writes isLive
  | seq _ _ firstIh secondIh =>
      rcases spares_seq.mp spares with ⟨firstSpares, secondSpares⟩
      exact (secondIh secondSpares).trans (firstIh firstSpares)
  | taken _ ih => exact ih (spares_branch.mp spares).1
  | skipped _ ih => exact ih (spares_branch.mp spares).2

/-- A register can be written with what it holds. -/
theorem leads_self {i : Instruction}
    (noMove : ∀ srcReg dstReg, i ≠ .mov srcReg dstReg) (file : RegisterFile) :
    Leads i file file := by
  cases writes : destination i with
  | some reg =>
      have same : Leads i file (Function.update file reg (file reg)) :=
        leads_destination writes noMove (file reg)
      rwa [Function.update_eq_self] at same
  | none =>
      cases i with
      | ret | storea64 | jmp | jz | unknown => rfl
      | _ => cases writes

/-- A path through then arms that changes no register. -/
theorem Code.Tidy.executes_self {code : Code} (tidy : code.Tidy live)
    (file : RegisterFile) : code.Executes file file := by
  induction tidy with
  | empty => exact .empty file
  | instruction _ noMove _ => exact .instruction (leads_self noMove file)
  | seq _ _ firstIh secondIh => exact .seq firstIh secondIh
  | branch _ _ thenIh _ => exact .taken thenIh

theorem executes_moveResult (elseReg thenReg : UInt8) (file : RegisterFile) :
    ∃ after, (moveResult elseReg thenReg).Executes file after := by
  unfold moveResult
  split
  · exact ⟨_, .instruction rfl⟩
  · exact ⟨file, .empty file⟩

/-- A path that moves another register into a live one. -/
theorem Code.Tidy.executes_move {code : Code} (tidy : code.Tidy live)
    (clobbers : ¬code.Spares live) :
    ∃ srcReg dstReg, live dstReg ∧ srcReg ≠ dstReg ∧ ∀ file, ∃ after,
      code.Executes file after ∧ after dstReg = file srcReg := by
  induction tidy with
  | empty => exact absurd nofun clobbers
  | instruction _ _ spares => exact absurd (spares_instruction spares) clobbers
  | @seq first second firstTidy secondTidy firstIh secondIh =>
      by_cases firstSpares : first.Spares live
      · have secondClobbers : ¬second.Spares live := fun secondSpares =>
          clobbers (spares_seq.mpr ⟨firstSpares, secondSpares⟩)
        rcases secondIh secondClobbers with
          ⟨srcReg, dstReg, isLive, differ, moves⟩
        refine ⟨srcReg, dstReg, isLive, differ, fun file => ?_⟩
        rcases moves file with ⟨after, runs, moved⟩
        exact ⟨after, .seq (firstTidy.executes_self file) runs, moved⟩
      · rcases firstIh firstSpares with ⟨srcReg, dstReg, isLive, differ, moves⟩
        refine ⟨srcReg, dstReg, isLive, differ, fun file => ?_⟩
        rcases moves file with ⟨after, runs, moved⟩
        exact ⟨after, .seq runs (secondTidy.executes_self after), moved⟩
  | @branch testReg elseReg thenReg thenCode elseCode _ elseTidy thenIh
      elseIh =>
      by_cases thenSpares : thenCode.Spares live
      · by_cases moveSpares : (moveResult elseReg thenReg).Spares live
        · have elseClobbers : ¬elseCode.Spares live := fun elseSpares =>
            clobbers (spares_branch.mpr
              ⟨thenSpares, spares_seq.mpr ⟨elseSpares, moveSpares⟩⟩)
          rcases elseIh elseClobbers with
            ⟨srcReg, dstReg, isLive, differ, moves⟩
          refine ⟨srcReg, dstReg, isLive, differ, fun file => ?_⟩
          rcases moves file with ⟨after, runs, moved⟩
          rcases executes_moveResult elseReg thenReg after with ⟨last, ends⟩
          exact ⟨last, .skipped (.seq runs ends),
            (moveSpares.keeps after last ends dstReg isLive).trans moved⟩
        · rw [spares_moveResult, Classical.not_imp] at moveSpares
          rcases moveSpares with ⟨isLive, differ⟩
          refine ⟨elseReg, thenReg, isLive, differ, fun file =>
            ⟨Function.update file thenReg (file elseReg), ?_, ?_⟩⟩
          · refine .skipped (.seq (elseTidy.executes_self file) ?_)
            rw [moveResult, if_pos differ]
            exact .instruction rfl
          · exact Function.update_self ..
      · rcases thenIh thenSpares with ⟨srcReg, dstReg, isLive, differ, moves⟩
        refine ⟨srcReg, dstReg, isLive, differ, fun file => ?_⟩
        rcases moves file with ⟨after, runs, moved⟩
        exact ⟨after, .taken runs, moved⟩

/-- Code in the emitted shape keeps what it spares, and nothing more. -/
theorem Code.Tidy.keeps_iff {code : Code} (tidy : code.Tidy live) :
    code.Keeps live ↔ code.Spares live := by
  constructor
  · intro keeps
    by_contra clobbers
    rcases tidy.executes_move clobbers with
      ⟨srcReg, dstReg, isLive, differ, moves⟩
    let file : RegisterFile := fun reg =>
      if reg = dstReg then .uninit else .int 0
    rcases moves file with ⟨after, runs, moved⟩
    rw [keeps file after runs dstReg isLive] at moved
    simp [file, differ] at moved
  · exact Code.Spares.keeps

end

/-! ## The code of an expression -/

/--
The registers that are live when an expression is compiled: those of the
bindings on the stack and, in the body of a lambda, the closure pointer.
-/
def Live (inLambda : Bool) (state : CompileState) (reg : UInt8) : Prop :=
  (inLambda = true ∧ reg = 0) ∨
    ∃ i < state.context.bindingTop, (state.context.bindings.cells i).reg = reg

/-- A run of the machine through a block leaves the registers alone. -/
def RunsKeep (live : UInt8 → Prop) (code : Code) : Prop :=
  ∀ (module : Module) (function : CompiledExpression) (start : Nat),
    Placed function.code start code.bytes →
    ∀ frame last, frame.ip = start → Steps module function frame last →
      (last.ip < start ∨ start + code.bytes.length ≤ last.ip) →
      ∃ exit, Steps module function frame exit ∧
        Steps module function exit last ∧
        exit.ip = start + code.bytes.length ∧
        ∀ reg, live reg →
          fileOf exit.registers reg = fileOf frame.registers reg

/--
The code that compiling an expression appends keeps the live registers on every
path if and only if no `if` ends its then arm in one of them without its else
arm; the machine then keeps them in every run through the code.
-/
theorem live_registers_iff {input : CompileInput} {expression : Expression}
    {state after : CompileState} {resultReg : UInt8} (inLambda : Bool)
    (contained : Contained state.context)
    (returns : compileExpression input expression state =
      .ok (resultReg, after))
    (quiet : after.errors = []) (few : after.context.maxRegisters ≤ 256)
    (taken : ∀ reg, Live inLambda state reg →
      reg.toNat < state.context.maxRegisters) :
    let code := (emit input expression (view state)).code
    let spares := Spares (Live inLambda state) expression
      (Held.of (view state))
    written after = written state ++ code.bytes ∧
      (code.Keeps (Live inLambda state) ↔ spares) ∧
      (spares → code.Short → RunsKeep (Live inLambda state) code) := by
  have reaches := compileExpression_generates input expression state resultReg
    after contained returns
  have viewIs : view after = (emit input expression (view state)).view :=
    reaches.view
  have emittedFew : (emit input expression (view state)).view.registers ≤ 256 :=
    viewIs ▸ few
  have emittedQuiet : (emit input expression (view state)).view.errors = [] :=
    viewIs ▸ quiet
  have tracked := emit_tracked taken input expression
    (Held.Describes.of (view state) state.context.maxRegisters)
    (Nat.le_refl _) emittedFew emittedQuiet
  have keeps := tracked.tidy.keeps_iff.trans tracked.spares
  refine ⟨reaches.written, keeps, fun spares short => ?_⟩
  intro module function start placed frame last at_ steps outside
  rcases Code.executes_of_steps tracked.tidy.structured short placed at_ steps
    outside with ⟨exit, toExit, rest, exitIp, executes⟩
  exact ⟨exit, toExit.steps, rest, exitIp, keeps.mpr spares _ _ executes⟩

/--
The state in which the body of `fn x => …` is compiled, `x` being symbol 1: the
closure pointer in register 0 and the parameter in register 1.
-/
def parameterState : CompileState where
  context :=
    { initCompileContext fun _ => ⟨0, 0⟩ with
      integerRegisters := 2
      maxRegisters := 2
      bindings := ⟨8, Function.update (fun _ => ⟨0, 0⟩) 0 ⟨1, 1⟩⟩
      bindingTop := 1 }
  module := (addFunction moduleInit).2.2
  errors := []
  finished := []
  searched := []

theorem parameterState_contained : Contained parameterState.context := by
  constructor <;> decide

theorem parameterState_live {inLambda : Bool} {reg : UInt8}
    (live : Live inLambda parameterState reg) : reg = 0 ∨ reg = 1 := by
  rcases live with ⟨-, rfl⟩ | ⟨i, below, rfl⟩
  · exact .inl rfl
  · have zero : i = 0 := Nat.lt_one_iff.mp below
    subst zero
    exact .inr rfl

/-- `if true then 7 else x`. -/
def sparingIf : Expression :=
  .if_ ⟨0, 0⟩ (.true_ ⟨0, 0⟩) (.integerConstant ⟨0, 0⟩ 7)
    (.identifier ⟨0, 0⟩ 1)

/-- The then arm of `if true then 7 else x` ends in a new register. -/
theorem live_registers_spared :
    (emit zeroedInput sparingIf (view parameterState)).code.Keeps
      (Live true parameterState) := by
  have runs : ((compileExpression zeroedInput sparingIf
      parameterState).toOption.map fun result =>
        (result.2.errors, result.2.context.maxRegisters)) = some ([], 4) := by
    decide +kernel
  cases returns : compileExpression zeroedInput sparingIf parameterState with
  | error stop =>
      rw [returns] at runs
      cases runs
  | ok result =>
      rw [returns] at runs
      simp only [Except.toOption, Option.map_some, Option.some.injEq,
        Prod.mk.injEq] at runs
      have small : ∀ reg, Live true parameterState reg →
          reg.toNat < parameterState.context.maxRegisters := by
        intro reg live
        rcases parameterState_live live with rfl | rfl
        · decide
        · decide
      refine (live_registers_iff true parameterState_contained returns runs.1
        (by rw [runs.2]; decide) small).2.1.mpr ?_
      refine ⟨trivial, trivial, trivial, ?_⟩
      rintro reg isNew
      cases isNew

/-- `if false then x else 7`. -/
def clobberingIf : Expression :=
  .if_ ⟨0, 0⟩ (.false_ ⟨0, 0⟩) (.identifier ⟨0, 0⟩ 1)
    (.integerConstant ⟨0, 0⟩ 7)

/-- `(fn x => (if false then x else 7) + x) 5`. -/
def clobberedUse : Expression :=
  .apply ⟨0, 0⟩
    (.lambda ⟨0, 0⟩ 1
      (.binary ⟨0, 0⟩ .tokPlus clobberingIf (.identifier ⟨0, 0⟩ 1)))
    (.integerConstant ⟨0, 0⟩ 5)

/-- The code of `if false then x else 7`. -/
def clobberingCode : List UInt8 :=
  [1, 0, 2, 16, 2, 3, 0, 15, 6, 0, 1, 7, 3, 17, 3, 1]

/-- A run of that code, from 5 in the register of `x` to 7 in it. -/
theorem clobberingCode_steps {function : CompiledExpression}
    (same : function.code = clobberingCode) :
    Steps moduleInit function
      ⟨[.int 0, .int 5, .int 0, .int 0], 0, []⟩
      ⟨[.int 0, .int 7, .int 0, .int 7], 16, []⟩ := by
  have step : ∀ {frame after : FrameState} (instruction : Instruction)
      {ip : Nat}, fetch clobberingCode frame.ip = .ok (instruction, ip) →
      instruction.Plain →
      perform moduleInit instruction { frame with ip := ip } = .ok after →
      Step moduleInit function frame after := by
    intro frame after instruction ip fetched plain performed
    exact .perform (same ▸ fetched) plain performed
  have tested : Step moduleInit function
      ⟨[.int 0, .int 5, .int 0, .int 0], 0, []⟩
      ⟨[.int 0, .int 5, .int 0, .int 0], 3, []⟩ :=
    step (.loadi8 0 2) rfl trivial rfl
  have jumped : Step moduleInit function
      ⟨[.int 0, .int 5, .int 0, .int 0], 3, []⟩
      ⟨[.int 0, .int 5, .int 0, .int 0], 10, []⟩ :=
    step (.jz 2 3) rfl trivial rfl
  have loaded : Step moduleInit function
      ⟨[.int 0, .int 5, .int 0, .int 0], 10, []⟩
      ⟨[.int 0, .int 5, .int 0, .int 7], 13, []⟩ :=
    step (.loadi8 7 3) rfl trivial rfl
  have moved : Step moduleInit function
      ⟨[.int 0, .int 5, .int 0, .int 7], 13, []⟩
      ⟨[.int 0, .int 7, .int 0, .int 7], 16, []⟩ :=
    step (.mov 3 1) rfl trivial rfl
  exact .head tested (.head jumped (.head loaded (.single moved)))

/--
The code of `if false then x else 7` leaves 7 in the register of `x`, and
`(fn x => (if false then x else 7) + x) 5` evaluates to 14.
-/
theorem live_registers_clobbered :
    (∃ result after,
      compileExpression zeroedInput clobberingIf parameterState =
          .ok (result, after) ∧
        after.errors = [] ∧ after.context.maxRegisters = 4 ∧
        Live true parameterState 1 ∧
        ∃ function frame last, function.code = written after ∧
          frame.ip = 0 ∧ Steps moduleInit function frame last ∧
          last.ip = function.code.length ∧
          fileOf frame.registers 1 = .int 5 ∧
          fileOf last.registers 1 = .int 7) ∧
      ∃ funcId after,
        compileModule zeroedInput clobberedUse = .ok (funcId, after) ∧
          after.errors = [] ∧
          ∃ memory, evaluateCode after.module 32 funcId (.int 0) (.int 0) [] =
            .ok (.int 14, memory) := by
  constructor
  · have runs : ((compileExpression zeroedInput clobberingIf
        parameterState).toOption.map fun result => (result.2.errors,
          result.2.context.maxRegisters, written result.2)) =
        some ([], 4, clobberingCode) := by
      decide +kernel
    cases returns : compileExpression zeroedInput clobberingIf
        parameterState with
    | error stop =>
        rw [returns] at runs
        cases runs
    | ok result =>
        rw [returns] at runs
        simp only [Except.toOption, Option.map_some, Option.some.injEq,
          Prod.mk.injEq] at runs
        rcases runs with ⟨errors, registers, bytes⟩
        refine ⟨result.1, result.2, rfl, errors, registers,
          .inr ⟨0, Nat.zero_lt_one, rfl⟩,
          ⟨written result.2, 16, 4, 0, .staticClosure 0, 1⟩, _, _, rfl, ?_,
          clobberingCode_steps bytes, ?_, ?_, ?_⟩
        · rfl
        · rw [bytes]
          rfl
        · rfl
        · rfl
  · have runs : ((compileModule zeroedInput clobberedUse).toOption.bind
        fun result => (evaluateCode result.2.module 32 result.1 (.int 0)
          (.int 0) []).toOption.map fun value => (result.2.errors, value)) =
        some ([], .int 14, []) := by
      decide +kernel
    cases returns : compileModule zeroedInput clobberedUse with
    | error stop =>
        rw [returns] at runs
        cases runs
    | ok result =>
        rw [returns] at runs
        cases value : evaluateCode result.2.module 32 result.1 (.int 0)
            (.int 0) [] with
        | error stop =>
            simp [Except.toOption, value] at runs
        | ok value' =>
            simp only [Except.toOption, Option.bind_some, value,
              Option.map_some, Option.some.injEq, Prod.mk.injEq] at runs
            rcases value' with ⟨word, memory⟩
            rcases runs with ⟨errors, same⟩
            cases same
            exact ⟨result.1, result.2, rfl, errors, [], value⟩

end Millie.Compiler
