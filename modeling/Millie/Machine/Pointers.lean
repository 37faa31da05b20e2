import Millie.Machine.Steps
import Mathlib.Data.Set.Basic

/-!
# Where pointers lead

A run never makes up a pointer: the blocks it can point to are those that its
registers and its memory point to already and those that it allocates.  It
therefore leaves every other block as it was.
-/

namespace Millie.Machine

open Relation
open Millie.Compiler

/-! ## Pointers into a set of blocks -/

/-- A pointer to a block is one to a block of the set. -/
def Word.In (set : Set Nat) (word : Word) : Prop :=
  ∀ b, word = .block b → b ∈ set

/--
The pointers in a frame's registers, one register apart, and in memory are to
blocks of a set.
-/
structure PointsInto (set : Set Nat) (holder : Option UInt8)
    (registers : List Word) (memory : Memory) : Prop where
  registers : ∀ reg word, readReg registers reg = .ok word →
    holder = some reg ∨ word.In set
  memory : ∀ cells ∈ memory, ∀ word ∈ cells, word.In set

/-- Memory has grown, and only blocks of the set have changed. -/
structure Extends (set : Set Nat) (before after : Memory) : Prop where
  grows : before.length ≤ after.length
  kept : ∀ b < before.length, b ∉ set → after[b]? = before[b]?

namespace Extends

variable {set : Set Nat} {before middle after : Memory}

theorem refl (memory : Memory) : Extends set memory memory :=
  ⟨Nat.le_refl _, fun _ _ _ => rfl⟩

theorem trans (first : Extends set before middle)
    (second : Extends set middle after) : Extends set before after where
  grows := Nat.le_trans first.grows second.grows
  kept b inside outside :=
    (second.kept b (Nat.lt_of_lt_of_le inside first.grows) outside).trans
      (first.kept b inside outside)

theorem allocate (memory : Memory) (cells : List Word) :
    Extends set memory (allocateBlock memory cells).2 where
  grows := by simp [allocateBlock]
  kept b inside _ := List.getElem?_append_left inside

end Extends

section

variable {set : Set Nat} {holder : Option UInt8} {registers : List Word}
  {memory : Memory}

theorem int_in (value : UInt64) : (Word.int value).In set :=
  nofun

theorem readReg_writeReg {after : List Word} {reg : UInt8} {word : Word}
    (written : writeReg registers reg word = .ok after) (other : UInt8) :
    readReg after other =
      if other = reg then .ok word else readReg registers other := by
  unfold writeReg at written
  split at written
  · rename_i inside
    cases written
    by_cases same : other = reg
    · subst same
      simp [readReg, inside]
    · have apart : reg.toNat ≠ other.toNat := fun equal =>
        same (UInt8.toNat_inj.mp equal).symm
      simp [readReg, same, List.getElem?_set_ne apart]
  · cases written

namespace PointsInto

/-- Writing a register with a pointer into the set. -/
theorem write (points : PointsInto set holder registers memory)
    {after : List Word} {reg : UInt8} {word : Word}
    (written : writeReg registers reg word = .ok after)
    (wordIn : word.In set) : PointsInto set holder after memory := by
  refine ⟨fun other found read => ?_, points.memory⟩
  rw [readReg_writeReg written] at read
  split at read
  · cases read
    exact .inr wordIn
  · exact points.registers other found read

/-- What a register holds that is not the one apart. -/
theorem read (points : PointsInto set holder registers memory) {reg : UInt8}
    {word : Word} (reads : readReg registers reg = .ok word)
    (apart : holder ≠ some reg) : word.In set :=
  (points.registers reg word reads).resolve_left apart

theorem mono (points : PointsInto set holder registers memory)
    {larger : Set Nat} (subset : set ⊆ larger) :
    PointsInto larger holder registers memory where
  registers reg word read := (points.registers reg word read).imp_right
    fun inSet b block => subset (inSet b block)
  memory cells member word inCells b block :=
    subset (points.memory cells member word inCells b block)

end PointsInto

/-! ## Memory -/

theorem loadWord_in {module : Module} {word result : Word} {offset : Nat}
    (cellsIn : ∀ cells ∈ memory, ∀ word ∈ cells, word.In set)
    (loads : loadWord module memory word offset = .ok result) :
    result.In set := by
  unfold loadWord at loads
  split at loads
  · split at loads
    · split at loads
      · rename_i found _ _ inCells
        cases loads
        exact cellsIn _ (List.mem_of_getElem? found) _
          (List.mem_of_getElem? inCells)
      · cases loads
    · cases loads
  · rcases Stop.bind_eq_ok_iff.mp loads with ⟨entry, -, rest⟩
    split at rest
    · cases rest
      exact int_in _
    · cases rest
  · cases loads

theorem storeWord_in {after : Memory} {array value : Word} {offset : Nat}
    (cellsIn : ∀ cells ∈ memory, ∀ word ∈ cells, word.In set)
    (arrayIn : array.In set) (valueIn : value.In set)
    (stores : storeWord memory array offset value = .ok after) :
    (∀ cells ∈ after, ∀ word ∈ cells, word.In set) ∧
      Extends set memory after := by
  unfold storeWord at stores
  split at stores
  · rename_i address
    split at stores
    · rename_i cells found
      split at stores
      · cases stores
        constructor
        · intro other member word inOther
          rcases List.mem_or_eq_of_mem_set member with old | rfl
          · exact cellsIn other old word inOther
          · rcases List.mem_or_eq_of_mem_set inOther with old | rfl
            · exact cellsIn cells (List.mem_of_getElem? found) word old
            · exact valueIn
        · refine ⟨by simp, fun b inside outside => ?_⟩
          apply List.getElem?_set_ne
          rintro rfl
          exact outside (arrayIn _ rfl)
      · cases stores
    · cases stores
  · cases stores

theorem allocateBlock_in (cells : List Word)
    (cellsIn : ∀ cells ∈ memory, ∀ word ∈ cells, word.In set)
    (newIn : ∀ word ∈ cells, word.In set) :
    ∀ block ∈ (allocateBlock memory cells).2, ∀ word ∈ block, word.In set :=
  List.forall_mem_append.mpr ⟨cellsIn, List.forall_mem_singleton.mpr newIn⟩

end

/-! ## Instructions -/

/-- What a part of a run preserves of a frame. -/
structure Confined (set : Set Nat) (holder : Option UInt8)
    (before : Memory) (registers : List Word) (after : Memory) : Prop where
  points : PointsInto set holder registers after
  extends_ : Extends set before after

section

variable {set : Set Nat} {holder : Option UInt8} {module : Module}
  {frame after : FrameState}

/-- An instruction that leaves memory alone and writes one register. -/
theorem PointsInto.confined
    (points : PointsInto set holder frame.registers frame.memory)
    {registers : List Word} {reg : UInt8} {word : Word}
    (written : writeReg frame.registers reg word = .ok registers)
    (wordIn : word.In set) :
    Confined set holder frame.memory registers frame.memory :=
  ⟨points.write written wordIn, .refl _⟩

/-- An instruction that allocates a block and writes its address. -/
theorem PointsInto.allocates
    (points : PointsInto set holder frame.registers frame.memory)
    {registers : List Word} {reg : UInt8} {cells : List Word}
    (written : writeReg frame.registers reg (.block frame.memory.length) =
      .ok registers)
    (new : frame.memory.length ∈ set) (cellsIn : ∀ word ∈ cells, word.In set) :
    Confined set holder frame.memory registers
      (allocateBlock frame.memory cells).2 := by
  have wordIn : (Word.block frame.memory.length).In set := by
    intro b same
    cases same
    exact new
  exact ⟨⟨(points.write written wordIn).registers,
    allocateBlock_in cells points.memory cellsIn⟩, .allocate _ cells⟩

/-- One instruction that does not use the register apart. -/
theorem perform_confined {instruction : Instruction}
    (plain : instruction.Plain)
    (points : PointsInto set holder frame.registers frame.memory)
    (apart : ∀ reg ∈ instruction.registers, holder ≠ some reg)
    (fresh : ∀ b, frame.memory.length ≤ b → b < after.memory.length → b ∈ set)
    {ip : Nat} (performed : perform module instruction { frame with ip := ip } =
      .ok after) :
    Confined set holder frame.memory after.registers after.memory := by
  have same : Confined set holder frame.memory frame.registers frame.memory :=
    ⟨points, .refl _⟩
  cases instruction with
  | ret | unknown | call => exact plain.elim
  | loadi8 val reg | loadi16 val reg | loadi32 val reg | loadi64 val reg =>
      rcases Stop.bind_eq_ok_iff.mp performed with ⟨registers, written, same⟩
      cases same
      exact points.confined written (int_in _)
  | add leftReg rightReg retReg | sub leftReg rightReg retReg
  | mul leftReg rightReg retReg =>
      simp only [perform, arithmetic, Stop.bind_eq_ok_iff] at performed
      rcases performed with ⟨_, -, _, -, _, -, _, -, registers, written, same⟩
      cases same
      exact points.confined written (int_in _)
  | neg argReg retReg =>
      simp only [perform, Stop.bind_eq_ok_iff] at performed
      rcases performed with ⟨_, -, _, -, registers, written, same⟩
      cases same
      exact points.confined written (int_in _)
  | eq leftReg rightReg retReg =>
      simp only [perform, Stop.bind_eq_ok_iff] at performed
      rcases performed with ⟨_, -, _, -, _, -, registers, written, same⟩
      cases same
      exact points.confined written (int_in _)
  | jmp offset =>
      rcases Stop.bind_eq_ok_iff.mp performed with ⟨target, -, moved⟩
      cases moved
      exact same
  | jz testReg offset =>
      simp only [perform, Stop.bind_eq_ok_iff] at performed
      rcases performed with ⟨_, -, zero, -, rest⟩
      split at rest
      · rcases Stop.bind_eq_ok_iff.mp rest with ⟨target, -, moved⟩
        cases moved
        exact same
      · cases rest
        exact same
  | mov srcReg dstReg =>
      simp only [perform, Stop.bind_eq_ok_iff] at performed
      rcases performed with ⟨word, read, registers, written, same⟩
      cases same
      have source := apart srcReg (by simp [Instruction.registers])
      exact points.confined written (points.read read source)
  | newClosure funcidReg dstReg =>
      simp only [perform, Stop.bind_eq_ok_iff] at performed
      rcases performed with ⟨_, -, _, -, _, -, target, -, registers, written,
        same⟩
      cases same
      split at written
      · rename_i captures
        rw [if_pos captures] at fresh ⊢
        refine points.allocates written (fresh _ (Nat.le_refl _) ?_) ?_
        · simp [allocateClosure, allocateBlock]
        · intro word member
          rcases List.mem_cons.mp member with rfl | slot
          · exact int_in _
          · rw [List.eq_of_mem_replicate slot]
            exact nofun
      · rename_i static
        rw [if_neg static]
        exact points.confined written nofun
  | loada64 srcReg offset dstReg =>
      simp only [perform, Stop.bind_eq_ok_iff] at performed
      rcases performed with ⟨array, -, _, -, word, loads, registers, written,
        same⟩
      cases same
      exact points.confined written (loadWord_in points.memory loads)
  | storea64 srcReg offset valReg =>
      simp only [perform, Stop.bind_eq_ok_iff] at performed
      rcases performed with ⟨array, readArray, value, readValue, _, -, memory,
        stores, same⟩
      cases same
      rcases storeWord_in points.memory
        (points.read readArray (apart srcReg (by simp [Instruction.registers])))
        (points.read readValue (apart valReg (by simp [Instruction.registers])))
        stores with ⟨memoryIn, extends_⟩
      exact ⟨⟨points.registers, memoryIn⟩, extends_⟩
  | newTuple lenReg dstReg =>
      simp only [perform, Stop.bind_eq_ok_iff] at performed
      rcases performed with ⟨_, -, size, -, registers, written, same⟩
      cases same
      refine points.allocates written (fresh _ (Nat.le_refl _) ?_) ?_
      · simp [allocateTuple, allocateBlock]
      · intro word member
        rw [List.eq_of_mem_replicate member]
        exact nofun

end

/-! ## Runs -/

section

variable {set : Set Nat} {module : Module}

/-- A callee starts with no pointers but the closure and the argument. -/
theorem enterFrame_in {callee : CompiledExpression} {closure arg : Word}
    {entry : List Word} {memory : Memory} (closureIn : closure.In set)
    (argIn : arg.In set)
    (cellsIn : ∀ cells ∈ memory, ∀ word ∈ cells, word.In set)
    (entered : enterFrame callee closure arg = .ok entry) :
    PointsInto set none entry memory := by
  rcases Stop.bind_eq_ok_iff.mp entered with ⟨registers, first, second⟩
  have zeroed : PointsInto set none
      (List.replicate callee.registerCount (.int 0)) memory := by
    refine ⟨fun reg word read => .inr ?_, cellsIn⟩
    unfold readReg at read
    split at read
    · rename_i found
      cases read
      rw [List.eq_of_mem_replicate (List.mem_of_getElem? found)]
      exact int_in 0
    · cases read
  exact (zeroed.write first closureIn).write second argIn

theorem pointsInto_univ (registers : List Word) (memory : Memory) :
    PointsInto Set.univ none registers memory :=
  ⟨fun _ _ _ => .inr fun _ _ => trivial, fun _ _ _ _ _ _ => trivial⟩

theorem perform_grows {instruction : Instruction} {frame after : FrameState}
    {ip : Nat} (plain : instruction.Plain)
    (performed : perform module instruction { frame with ip := ip } =
      .ok after) :
    frame.memory.length ≤ after.memory.length :=
  (perform_confined plain (pointsInto_univ _ _) nofun
    (fun _ _ _ => trivial) performed).extends_.grows

/-- Memory only grows. -/
theorem runFrame_grows {fuel : Nat} {code : CompiledExpression}
    {frame : FrameState} {result : Word × Memory}
    (runs : runFrame module fuel code frame = .ok result) :
    frame.memory.length ≤ result.2.length := by
  induction fuel generalizing code frame result with
  | zero => cases runs
  | succ fuel ih =>
      cases fetched : fetch code.code frame.ip with
      | error stop =>
          rw [runFrame, fetched] at runs
          cases runs
      | ok next =>
          rcases next with ⟨instruction, ip⟩
          rcases instruction.kinds with plain | halts |
            ⟨funcReg, argReg, retReg, rfl⟩
          · rw [runFrame_plain fetched plain] at runs
            rcases Stop.bind_eq_ok_iff.mp runs with ⟨after, performed, rest⟩
            exact Nat.le_trans (perform_grows plain performed) (ih rest)
          · rw [runFrame_halts fetched halts] at runs
            rcases Stop.bind_eq_ok_iff.mp runs with ⟨word, -, same⟩
            cases same
            exact Nat.le_refl _
          · rcases (runFrame_call fetched).mp runs with
              ⟨callee, entry, retval, memory, registers, -, returns, -, rest⟩
            have called := ih returns
            exact Nat.le_trans called (ih rest)

/-- A whole run returns and leaves only pointers into the set. -/
theorem runFrame_confined {fuel : Nat} {code : CompiledExpression}
    {frame : FrameState} {result : Word × Memory}
    (runs : runFrame module fuel code frame = .ok result)
    (points : PointsInto set none frame.registers frame.memory)
    (fresh : ∀ b, frame.memory.length ≤ b → b < result.2.length → b ∈ set) :
    result.1.In set ∧ (∀ cells ∈ result.2, ∀ word ∈ cells, word.In set) ∧
      Extends set frame.memory result.2 := by
  induction fuel generalizing code frame result with
  | zero => cases runs
  | succ fuel ih =>
      cases fetched : fetch code.code frame.ip with
      | error stop =>
          rw [runFrame, fetched] at runs
          cases runs
      | ok next =>
          rcases next with ⟨instruction, ip⟩
          rcases instruction.kinds with plain | halts |
            ⟨funcReg, argReg, retReg, rfl⟩
          · rw [runFrame_plain fetched plain] at runs
            rcases Stop.bind_eq_ok_iff.mp runs with ⟨after, performed, rest⟩
            have grows := perform_grows plain performed
            have later := runFrame_grows rest
            have first := perform_confined plain points (by simp)
              (fun b old new => fresh b old (Nat.lt_of_lt_of_le new later))
              performed
            rcases ih rest first.points fun b old new =>
              fresh b (Nat.le_trans grows old) new with
              ⟨resultIn, cellsIn, extends_⟩
            exact ⟨resultIn, cellsIn, first.extends_.trans extends_⟩
          · rw [runFrame_halts fetched halts] at runs
            rcases Stop.bind_eq_ok_iff.mp runs with ⟨word, read, same⟩
            cases same
            exact ⟨points.read read (by simp), points.memory, .refl _⟩
          · rcases (runFrame_call fetched).mp runs with
              ⟨callee, entry, retval, memory, registers,
                ⟨closure, arg, readClosure, -, readArg, entered⟩, returns,
                written, rest⟩
            have grows := runFrame_grows returns
            have later := runFrame_grows rest
            have entryPoints := enterFrame_in (points.read readClosure (by simp))
              (points.read readArg (by simp)) points.memory entered
            rcases ih returns entryPoints fun b old new =>
              fresh b old (Nat.lt_of_lt_of_le new later) with
              ⟨retIn, memoryIn, called⟩
            have back : PointsInto set none registers memory :=
              (PointsInto.mk points.registers memoryIn).write written retIn
            rcases ih rest back fun b old new =>
              fresh b (Nat.le_trans grows old) new with
              ⟨resultIn, cellsIn, extends_⟩
            exact ⟨resultIn, cellsIn, called.trans extends_⟩

/-- One step of a frame, by an instruction that does not use a register. -/
theorem Step.confined {holder : Option UInt8} {code : CompiledExpression}
    {frame after : FrameState} {instruction : Instruction} {ip : Nat}
    (step : Step module code frame after)
    (fetched : fetch code.code frame.ip = .ok (instruction, ip))
    (points : PointsInto set holder frame.registers frame.memory)
    (apart : ∀ reg ∈ instruction.registers, holder ≠ some reg)
    (fresh : ∀ b, frame.memory.length ≤ b → b < after.memory.length →
      b ∈ set) :
    Confined set holder frame.memory after.registers after.memory := by
  cases step with
  | perform fetched' plain performed =>
      rw [fetched] at fetched'
      cases fetched'
      exact perform_confined plain points apart fresh performed
  | call fetched' calls returns written =>
      rw [fetched] at fetched'
      cases fetched'
      rcases calls with ⟨closure, arg, readClosure, -, readArg, entered⟩
      rcases returns with ⟨fuel, returns⟩
      have closureIn := points.read readClosure (apart _ (by
        simp [Instruction.registers]))
      have argIn := points.read readArg (apart _ (by
        simp [Instruction.registers]))
      have entryPoints := enterFrame_in closureIn argIn points.memory entered
      rcases runFrame_confined returns entryPoints fresh with
        ⟨retIn, memoryIn, extends_⟩
      exact ⟨(PointsInto.mk points.registers memoryIn).write written retIn,
        extends_⟩

end

/-! ## Valid frames -/

/-- Every pointer in registers and memory is to a block that was allocated. -/
def Valid (registers : List Word) (memory : Memory) : Prop :=
  PointsInto { b | b < memory.length } none registers memory

section

variable {module : Module}

/-- Steps keep a frame valid. -/
theorem Step.valid {code : CompiledExpression} {frame after : FrameState}
    (step : Step module code frame after)
    (valid : Valid frame.registers frame.memory) :
    Valid after.registers after.memory := by
  have grows : frame.memory.length ≤ after.memory.length := by
    cases step with
    | perform fetched plain performed =>
        exact perform_grows plain performed
    | call fetched calls returns written =>
        rcases returns with ⟨fuel, returns⟩
        exact runFrame_grows returns
  have points : PointsInto { b | b < after.memory.length } none
      frame.registers frame.memory :=
    PointsInto.mono valid fun b inside => Nat.lt_of_lt_of_le inside grows
  have fetches : ∃ instruction ip, fetch code.code frame.ip =
      .ok (instruction, ip) := by
    cases step with
    | perform fetched plain performed => exact ⟨_, _, fetched⟩
    | call fetched calls returns written => exact ⟨_, _, fetched⟩
  rcases fetches with ⟨instruction, ip, fetched⟩
  exact (step.confined fetched points nofun fun b _ new => new).points

end

end Millie.Machine
