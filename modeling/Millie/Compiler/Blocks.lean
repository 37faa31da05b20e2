import Millie.Compiler.Layout
import Millie.Machine.Steps

/-!
# Executing generated code

What a block of generated code does to the registers on any path through its
branches, and that a run of the virtual machine that enters a block and leaves
it again has followed such a path to the block's end.
-/

namespace Millie.Compiler

open Relation
open Millie.Machine

/-! ## Registers -/

/-- What every register holds; a register outside the frame holds nothing. -/
abbrev RegisterFile := UInt8 → Word

/-- The registers of a frame. -/
def fileOf (registers : List Word) : RegisterFile := fun reg =>
  registers[reg.toNat]?.getD .uninit

theorem writeReg_file {registers after : List Word} {reg : UInt8} {word : Word}
    (written : writeReg registers reg word = .ok after) :
    fileOf after = Function.update (fileOf registers) reg word := by
  unfold writeReg at written
  split at written
  · rename_i inside
    cases written
    ext other
    by_cases same : other = reg
    · subst same
      simp [fileOf, inside]
    · have apart : reg.toNat ≠ other.toNat := fun equal =>
        same (UInt8.toNat_inj.mp equal).symm
      simp [fileOf, Function.update_of_ne same, List.getElem?_set_ne apart]
  · cases written

theorem readReg_file {registers : List Word} {reg : UInt8} {word : Word}
    (read : readReg registers reg = .ok word) : fileOf registers reg = word := by
  unfold readReg at read
  split at read
  · rename_i found
    cases read
    simp [fileOf, found]
  · cases read

/-! ## Instructions -/

/-- The register that an instruction writes. -/
def destination : Instruction → Option UInt8
  | .loadi8 _ reg | .loadi16 _ reg | .loadi32 _ reg | .loadi64 _ reg =>
      some reg
  | .loada64 _ _ dstReg | .newClosure _ dstReg | .newTuple _ dstReg
  | .mov _ dstReg => some dstReg
  | .call _ _ retReg | .add _ _ retReg | .sub _ _ retReg | .mul _ _ retReg
  | .eq _ _ retReg | .neg _ retReg => some retReg
  | .ret | .storea64 _ _ _ | .jmp _ | .jz _ _ | .unknown _ => none

/-- An instruction after which the next one is executed. -/
def Straight : Instruction → Prop
  | .ret | .jmp _ | .jz _ _ | .unknown _ => False
  | _ => True

/-- What an instruction does to the registers, whatever it computes. -/
def Leads (instruction : Instruction) (before after : RegisterFile) : Prop :=
  match instruction with
  | .mov srcReg dstReg => after = Function.update before dstReg (before srcReg)
  | _ =>
      match destination instruction with
      | some reg => ∃ word, after = Function.update before reg word
      | none => after = before

theorem leads_destination {instruction : Instruction} {before : RegisterFile}
    {reg : UInt8} (writes : destination instruction = some reg)
    (noMove : ∀ srcReg dstReg, instruction ≠ .mov srcReg dstReg) (word : Word) :
    Leads instruction before (Function.update before reg word) := by
  cases instruction with
  | mov srcReg dstReg => exact absurd rfl (noMove srcReg dstReg)
  | _ =>
      first
      | cases writes; exact ⟨word, rfl⟩
      | cases writes

/-- A register that is not written keeps its contents. -/
theorem Leads.kept {instruction : Instruction} {before after : RegisterFile}
    {reg : UInt8} (leads : Leads instruction before after)
    (other : destination instruction ≠ some reg) : after reg = before reg := by
  have update : ∀ {dst : UInt8} {word : Word},
      destination instruction = some dst →
      Function.update before dst word reg = before reg := by
    rintro dst word writes
    apply Function.update_of_ne
    rintro rfl
    exact other writes
  cases instruction with
  | mov srcReg dstReg =>
      rw [leads]
      exact update rfl
  | ret | storea64 | jmp | jz | unknown => rw [leads]
  | _ =>
      rcases leads with ⟨word, same⟩
      rw [same]
      exact update rfl

theorem write_leads {registers after : List Word} {reg : UInt8} {word : Word}
    {instruction : Instruction}
    (written : writeReg registers reg word = .ok after)
    (writes : destination instruction = some reg)
    (noMove : ∀ srcReg dstReg, instruction ≠ .mov srcReg dstReg) :
    Leads instruction (fileOf registers) (fileOf after) := by
  rw [writeReg_file written]
  exact leads_destination writes noMove word

/-- The machine does what the instruction does to the registers. -/
theorem perform_leads {module : Module} {instruction : Instruction}
    {frame after : FrameState} (plain : instruction.Plain)
    (straight : Straight instruction)
    (performed : perform module instruction frame = .ok after) :
    after.ip = frame.ip ∧
      Leads instruction (fileOf frame.registers) (fileOf after.registers) := by
  cases instruction with
  | ret | jmp | jz | unknown => exact straight.elim
  | call => exact plain.elim
  | loadi8 val reg | loadi16 val reg | loadi32 val reg | loadi64 val reg =>
      rcases Stop.bind_eq_ok_iff.mp performed with ⟨registers, written, same⟩
      cases same
      exact ⟨rfl, write_leads written rfl nofun⟩
  | add leftReg rightReg retReg | sub leftReg rightReg retReg
  | mul leftReg rightReg retReg =>
      simp only [perform, arithmetic, Stop.bind_eq_ok_iff] at performed
      rcases performed with ⟨_, -, _, -, _, -, _, -, registers, written, same⟩
      cases same
      exact ⟨rfl, write_leads written rfl nofun⟩
  | neg argReg retReg =>
      simp only [perform, Stop.bind_eq_ok_iff] at performed
      rcases performed with ⟨_, -, _, -, registers, written, same⟩
      cases same
      exact ⟨rfl, write_leads written rfl nofun⟩
  | eq leftReg rightReg retReg =>
      simp only [perform, Stop.bind_eq_ok_iff] at performed
      rcases performed with ⟨_, -, _, -, _, -, registers, written, same⟩
      cases same
      exact ⟨rfl, write_leads written rfl nofun⟩
  | mov srcReg dstReg =>
      simp only [perform, Stop.bind_eq_ok_iff] at performed
      rcases performed with ⟨word, read, registers, written, same⟩
      cases same
      refine ⟨rfl, ?_⟩
      rw [Leads, writeReg_file written, readReg_file read]
  | newClosure funcidReg dstReg =>
      simp only [perform, Stop.bind_eq_ok_iff] at performed
      rcases performed with ⟨_, -, _, -, _, -, _, -, registers, written, same⟩
      cases same
      exact ⟨rfl, write_leads written rfl nofun⟩
  | loada64 srcReg offset dstReg =>
      simp only [perform, Stop.bind_eq_ok_iff] at performed
      rcases performed with ⟨_, -, _, -, _, -, registers, written, same⟩
      cases same
      exact ⟨rfl, write_leads written rfl nofun⟩
  | storea64 srcReg offset valReg =>
      simp only [perform, Stop.bind_eq_ok_iff] at performed
      rcases performed with ⟨_, -, _, -, _, -, _, -, same⟩
      cases same
      exact ⟨rfl, rfl⟩
  | newTuple lenReg dstReg =>
      simp only [perform, Stop.bind_eq_ok_iff] at performed
      rcases performed with ⟨_, -, _, -, registers, written, same⟩
      cases same
      exact ⟨rfl, write_leads written rfl nofun⟩

section

variable {module : Module} {function : CompiledExpression}
    {frame after : FrameState} {ip : Nat}

/-- A step of a straight instruction goes on to the next one. -/
theorem step_leads {instruction : Instruction}
    (fetched : fetch function.code frame.ip = .ok (instruction, ip))
    (straight : Straight instruction) (step : Step module function frame after) :
    after.ip = ip ∧
      Leads instruction (fileOf frame.registers) (fileOf after.registers) := by
  cases step with
  | perform fetched' plain performed =>
      rw [fetched] at fetched'
      cases fetched'
      exact perform_leads plain straight performed
  | call fetched' calls returns written =>
      rw [fetched] at fetched'
      cases fetched'
      exact ⟨rfl, write_leads written rfl nofun⟩

/-- Short distances are reinterpreted as themselves. -/
theorem jumpTarget_short {distance : Nat} (short : distance < 2 ^ 15) :
    jumpTarget ip (UInt16.ofNat distance) = .ok (ip + distance) := by
  have small : (UInt16.ofNat distance).toNat = distance :=
    Nat.mod_eq_of_lt (Nat.lt_trans short (by decide))
  have forward : (0 : Int) ≤ ip + distance := by omega
  simp only [jumpTarget, toInt16, small, if_pos short, if_pos forward]
  exact congrArg Except.ok (by omega)

theorem step_jmp {distance : Nat}
    (fetched : fetch function.code frame.ip =
      .ok (.jmp (UInt16.ofNat distance), ip)) (short : distance < 2 ^ 15)
    (step : Step module function frame after) :
    after.ip = ip + distance ∧ after.registers = frame.registers := by
  cases step with
  | perform fetched' plain performed =>
      rw [fetched] at fetched'
      cases fetched'
      simp only [perform, jumpTarget_short short, Stop.ok_bind] at performed
      cases performed
      exact ⟨rfl, rfl⟩
  | call fetched' calls returns written =>
      rw [fetched] at fetched'
      cases fetched'

theorem step_jz {testReg : UInt8} {distance : Nat}
    (fetched : fetch function.code frame.ip =
      .ok (.jz testReg (UInt16.ofNat distance), ip))
    (short : distance < 2 ^ 15) (step : Step module function frame after) :
    (after.ip = ip ∨ after.ip = ip + distance) ∧
      after.registers = frame.registers := by
  cases step with
  | perform fetched' plain performed =>
      rw [fetched] at fetched'
      cases fetched'
      simp only [perform, Stop.bind_eq_ok_iff] at performed
      rcases performed with ⟨word, -, zero, -, rest⟩
      split at rest
      · rw [jumpTarget_short short] at rest
        cases rest
        exact ⟨.inr rfl, rfl⟩
      · cases rest
        exact ⟨.inl rfl, rfl⟩
  | call fetched' calls returns written =>
      rw [fetched] at fetched'
      cases fetched'

end

/-! ## Steps by some instructions -/

/-- One step, by one of some instructions. -/
def StepBy (module : Module) (function : CompiledExpression)
    (instructions : List Instruction) (frame after : FrameState) : Prop :=
  Step module function frame after ∧
    ∃ i ip, fetch function.code frame.ip = .ok (i, ip) ∧ i ∈ instructions

/-- Steps in one frame, by some instructions. -/
abbrev StepsBy (module : Module) (function : CompiledExpression)
    (instructions : List Instruction) : FrameState → FrameState → Prop :=
  ReflTransGen (StepBy module function instructions)

section

variable {module : Module} {function : CompiledExpression}
    {frame after : FrameState} {instructions more : List Instruction}

theorem StepsBy.steps (steps : StepsBy module function instructions frame after) :
    Steps module function frame after :=
  ReflTransGen.mono (p := Step module function) (fun _ _ step => step.1) _ _
    steps

theorem StepsBy.mono (steps : StepsBy module function instructions frame after)
    (subset : instructions ⊆ more) :
    StepsBy module function more frame after :=
  ReflTransGen.mono (p := StepBy module function more)
    (fun _ _ ⟨step, i, ip, fetched, member⟩ =>
      ⟨step, i, ip, fetched, subset member⟩) _ _ steps

end

/-! ## Blocks -/

namespace Code

/-- The code is instructions that go on to the next one, and branches. -/
def Structured : Code → Prop
  | empty => True
  | instruction i => Straight i
  | operands _ => False
  | seq first second => first.Structured ∧ second.Structured
  | branch _ thenCode elseCode => thenCode.Structured ∧ elseCode.Structured

/-- The distances of the jumps fit into their offsets. -/
def Short : Code → Prop
  | empty | instruction _ | operands _ => True
  | seq first second => first.Short ∧ second.Short
  | branch _ thenCode elseCode =>
      thenCode.bytes.length + 3 < 2 ^ 15 ∧ elseCode.bytes.length < 2 ^ 15 ∧
        thenCode.Short ∧ elseCode.Short

/-- What a block does to the registers on a path through its branches. -/
inductive Executes : Code → RegisterFile → RegisterFile → Prop where
  | empty (file : RegisterFile) : Executes .empty file file
  | instruction {i : Instruction} {before after : RegisterFile}
      (leads : Leads i before after) : Executes (.instruction i) before after
  | seq {first second : Code} {before middle after : RegisterFile}
      (firstRuns : Executes first before middle)
      (secondRuns : Executes second middle after) :
      Executes (.seq first second) before after
  | taken {testReg : UInt8} {thenCode elseCode : Code}
      {before after : RegisterFile} (runs : Executes thenCode before after) :
      Executes (.branch testReg thenCode elseCode) before after
  | skipped {testReg : UInt8} {thenCode elseCode : Code}
      {before after : RegisterFile} (runs : Executes elseCode before after) :
      Executes (.branch testReg thenCode elseCode) before after

/-- Where the parts of a branch stand. -/
theorem placed_branch {code : List UInt8} {start : Nat} {testReg : UInt8}
    {thenCode elseCode : Code}
    (placed : Placed code start (branch testReg thenCode elseCode).bytes) :
    Placed code start (instructionBytes
        (.jz testReg (UInt16.ofNat (thenCode.bytes.length + 3)))) ∧
      Placed code (start + 4) thenCode.bytes ∧
      Placed code (start + 4 + thenCode.bytes.length)
        (instructionBytes (.jmp (UInt16.ofNat elseCode.bytes.length))) ∧
      Placed code (start + 4 + thenCode.bytes.length + 3) elseCode.bytes := by
  have jmp := placed.left.right
  have elsePlaced := placed.right
  rw [List.length_append, ← Nat.add_assoc] at jmp elsePlaced
  rw [List.length_append, ← Nat.add_assoc] at elsePlaced
  exact ⟨placed.left.left.left, placed.left.left.right, jmp, elsePlaced⟩

theorem straight_known {i : Instruction} (straight : Straight i) : Known i := by
  rintro op rfl
  exact straight

/-- A run that leaves a block has followed a path to its end. -/
theorem executes_of_steps {module : Module} {function : CompiledExpression}
    {code : Code} (structured : code.Structured) (short : code.Short)
    {start : Nat} (placed : Placed function.code start code.bytes)
    {frame last : FrameState} (at_ : frame.ip = start)
    (steps : Steps module function frame last)
    (outside : last.ip < start ∨ start + code.bytes.length ≤ last.ip) :
    ∃ exit, StepsBy module function code.instructions frame exit ∧
      Steps module function exit last ∧
      exit.ip = start + code.bytes.length ∧
      code.Executes (fileOf frame.registers) (fileOf exit.registers) := by
  induction code generalizing start frame last with
  | empty => exact ⟨frame, .refl, steps, at_, .empty _⟩
  | operands bytes => exact structured.elim
  | instruction i =>
      have fetched := fetch_placed (straight_known structured) (at_ ▸ placed)
      rcases steps.cases_head with rfl | ⟨after, step, rest⟩
      · have positive : 0 < (instructionBytes i).length := by
          cases i <;> exact Nat.succ_pos _
        simp only [bytes] at outside
        omega
      · rcases step_leads fetched structured step with ⟨ip, leads⟩
        have own : StepBy module function [i] frame after :=
          ⟨step, _, _, fetched, List.mem_singleton_self i⟩
        exact ⟨after, .single own, rest, at_ ▸ ip, .instruction leads⟩
  | seq first second firstIh secondIh =>
      have length : (seq first second).bytes.length =
          first.bytes.length + second.bytes.length := List.length_append
      rw [length] at outside ⊢
      rcases firstIh structured.1 short.1 placed.left at_ steps (by omega) with
        ⟨middle, toMiddle, rest, middleIp, firstRuns⟩
      rcases secondIh structured.2 short.2 placed.right middleIp rest (by omega)
        with ⟨exit, toExit, rest, exitIp, secondRuns⟩
      refine ⟨exit, ?_, rest, by omega, .seq firstRuns secondRuns⟩
      exact (toMiddle.mono (List.subset_append_left _ _)).trans
        (toExit.mono (List.subset_append_right _ _))
  | branch testReg thenCode elseCode thenIh elseIh =>
      rcases short with ⟨shortThen, shortElse, thenShort, elseShort⟩
      rcases placed_branch placed with ⟨jz, thenPlaced, jmp, elsePlaced⟩
      rw [length_branch] at outside ⊢
      have fetchedJz : fetch function.code frame.ip = .ok (_, frame.ip + 4) :=
        fetch_placed (by simp [Known]) (at_ ▸ jz)
      rcases steps.cases_head with rfl | ⟨tested, step, rest⟩
      · omega
      rcases step_jz fetchedJz shortThen step with ⟨testedIp, testedFile⟩
      have tests : StepBy module function
          (branch testReg thenCode elseCode).instructions frame tested :=
        ⟨step, _, _, fetchedJz, List.mem_cons_self ..⟩
      rw [at_] at testedIp
      rw [← testedFile]
      rcases testedIp with taken | skipped
      · rcases thenIh structured.1 thenShort thenPlaced taken rest (by omega)
          with ⟨done, toDone, rest, doneIp, runs⟩
        have fetchedJmp : fetch function.code done.ip = .ok (_, done.ip + 3) :=
          fetch_placed (by simp [Known]) (doneIp ▸ jmp)
        rcases rest.cases_head with rfl | ⟨exit, leave, rest⟩
        · omega
        rcases step_jmp fetchedJmp shortElse leave with ⟨exitIp, exitFile⟩
        have inThen : StepsBy module function
            (branch testReg thenCode elseCode).instructions tested done :=
          toDone.mono fun i member => List.mem_cons_of_mem _
            (List.mem_append_left _ member)
        have leaves : StepBy module function
            (branch testReg thenCode elseCode).instructions done exit :=
          ⟨leave, _, _, fetchedJmp, by simp [instructions]⟩
        exact ⟨exit, .head tests (inThen.tail leaves), rest, by omega,
          .taken (exitFile ▸ runs)⟩
      · rcases elseIh structured.2 elseShort elsePlaced (by omega) rest
          (by omega) with ⟨exit, toExit, rest, exitIp, runs⟩
        have inElse : StepsBy module function
            (branch testReg thenCode elseCode).instructions tested exit :=
          toExit.mono fun i member => List.mem_cons_of_mem _
            (List.mem_append_right _ (List.mem_cons_of_mem _ member))
        exact ⟨exit, .head tests inElse, rest, by omega, .skipped runs⟩

end Code

end Millie.Compiler
