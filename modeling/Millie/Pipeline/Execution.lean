import Millie.Pipeline.Interpretation
import Millie.Pipeline.Representation

/-!
# Running the code of the leaves

What the code for a literal, an identifier, an operator and a new closure makes
of the registers and the memory: it writes registers that were never taken
before, and it fills the slots of a new block before anything points to it.
-/

namespace Millie.Pipeline

open Millie.Symbols Millie.Syntax Millie.Machine Millie.Compiler

/-! ## Registers -/

/-- The registers below a bound hold what they held before. -/
structure Agree (bound : Nat) (before after : Contents) : Prop where
  length : after.registers.length = before.registers.length
  kept : ∀ reg : UInt8, reg.toNat < bound →
    readReg after.registers reg = readReg before.registers reg

section

variable {module : Module} {bound : Nat} {before middle after : Contents}

theorem Agree.refl (bound : Nat) (contents : Contents) :
    Agree bound contents contents :=
  ⟨rfl, fun _ _ => rfl⟩

theorem Agree.trans {more : Nat} (first : Agree bound before middle)
    (second : Agree more middle after) (grows : bound ≤ more) :
    Agree bound before after :=
  ⟨second.length.trans first.length, fun reg below =>
    (second.kept reg (Nat.lt_of_lt_of_le below grows)).trans
      (first.kept reg below)⟩

theorem Agree.less {fewer : Nat} (agree : Agree bound before after)
    (below : fewer ≤ bound) : Agree fewer before after :=
  ⟨agree.length, fun reg inside =>
    agree.kept reg (Nat.lt_of_lt_of_le inside below)⟩

/-- A register inside the frame can be written. -/
theorem writeReg_ok {registers : List Word} {reg : UInt8} (word : Word)
    (inside : reg.toNat < registers.length) :
    ∃ written, writeReg registers reg word = .ok written := by
  unfold writeReg
  rw [if_pos inside]
  exact ⟨_, rfl⟩

theorem writeReg_length {registers written : List Word} {reg : UInt8}
    {word : Word} (writes : writeReg registers reg word = .ok written) :
    written.length = registers.length := by
  unfold writeReg at writes
  split at writes
  · cases writes
    exact List.length_set
  · cases writes

theorem readReg_written {registers written : List Word} {reg : UInt8}
    {word : Word} (writes : writeReg registers reg word = .ok written) :
    readReg written reg = .ok word := by
  rw [readReg_writeReg writes, if_pos rfl]

/-- Writing a register leaves the ones below it alone. -/
theorem Agree.write {registers : List Word} {memory : Memory} {reg : UInt8}
    {word : Word}
    (writes : writeReg before.registers reg word = .ok registers)
    (high : bound ≤ reg.toNat) :
    Agree bound before ⟨registers, memory⟩ := by
  refine ⟨writeReg_length writes, fun other below => ?_⟩
  have differ : other ≠ reg := by
    rintro rfl
    omega
  exact (readReg_writeReg writes other).trans (if_neg differ)

/-! ## Literals -/

theorem runs_literal (module : Module) (reg : UInt8) (value : UInt64)
    (inside : reg.toNat < before.registers.length) :
    ∃ registers, writeReg before.registers reg (.int value) = .ok registers ∧
      Runs module (.instruction (literalInstruction value reg)) before
        ⟨registers, before.memory⟩ := by
  rcases writeReg_ok (.int value) inside with ⟨registers, writes⟩
  refine ⟨registers, writes, .perform ?_ fun ip => ?_⟩
  · have loaded := loadedLiteral_literalInstruction value reg
    cases kind : literalInstruction value reg <;>
      first
      | exact trivial
      | (rw [kind] at loaded; cases loaded)
  · rw [perform_literal]
    simp only [loadImmediate, Contents.frame, writes, Stop.ok_bind]
    rfl

/-! ## Identifiers -/

/-- The code of an identifier leaves the symbol's word in its register. -/
theorem runs_identifier {closure : List Symbol} {view : View} {scope : Scope}
    {id : Symbol} {word : Word} (tracks : Tracks view scope)
    (bound : (scope.resolve id).isSome)
    (clear : (Event.search view scope id).Unobstructed)
    (kept : (emitIdentifier id view).view.closure <+: closure)
    (few : closure.length ≤ 16)
    (room : (emitIdentifier id view).view.registers ≤ before.registers.length)
    (small : before.registers.length ≤ 256)
    (reads : Reads module closure scope before id word) :
    ∃ registers, Runs module (emitIdentifier id view).code before
        ⟨registers, before.memory⟩ ∧
      Agree view.registers before ⟨registers, before.memory⟩ ∧
      readReg registers (emitIdentifier id view).reg = .ok word := by
  have found := search_register tracks bound clear
  unfold Reads at reads
  cases located : scope.register id with
  | some reg =>
      rw [located] at found reads
      rw [emitIdentifier_bound found]
      exact ⟨before.registers, .empty before, .refl _ before, reads⟩
  | none =>
      rw [located] at found reads
      rw [emitIdentifier_closed found] at kept room ⊢
      rcases reads with ⟨member, pointer, read, loads⟩
      rcases View.close_idxOf kept with ⟨-, index⟩
      have slot := slot_toNat member few
      rw [← index] at slot
      have inside := List.idxOf_lt_length_of_mem member
      have offset : toOffset (UInt16.ofNat (view.closure.idxOf id) + 1) =
          .ok (closure.idxOf id + 1) := by
        have same : UInt16.ofNat (view.closure.idxOf id) + 1 =
            UInt16.ofNat (closure.idxOf id + 1) := by
          apply UInt16.toNat_inj.mp
          rw [slot, index, UInt16.toNat_ofNat', Nat.mod_eq_of_lt (by omega)]
        rw [same]
        exact toOffset_slot (by omega)
      have taken : view.registers < 256 := Nat.le_trans room small
      have next : view.nextReg.toNat = view.registers := nextReg_toNat taken
      rcases writeReg_ok word (next ▸ room :
        view.nextReg.toNat < before.registers.length) with
        ⟨registers, writes⟩
      refine ⟨registers, .perform trivial fun ip => ?_,
        .write writes (Nat.le_of_eq next.symm), readReg_written writes⟩
      simp only [perform, Contents.frame, read, offset, loads, writes,
        Stop.ok_bind]
      rfl

/-! ## Closures -/

/-- Storing into the slot after the ones that are filled. -/
theorem storeWord_next (memory : Memory) (done : List Word) (rest : Nat)
    (word : Word) :
    storeWord (memory ++ [done ++ List.replicate (rest + 1) .uninit])
        (.block memory.length) done.length word =
      .ok (memory ++ [done ++ [word] ++ List.replicate rest .uninit]) := by
  have inside : done.length <
      (done ++ List.replicate (rest + 1) Word.uninit).length := by simp
  have filled : (done ++ List.replicate (rest + 1) Word.uninit).set
      done.length word = done ++ [word] ++ List.replicate rest .uninit := by
    rw [List.set_append_right _ _ (Nat.le_refl _), Nat.sub_self,
      List.replicate_succ, List.set_cons_zero, List.append_assoc]
    rfl
  simp only [storeWord, List.getElem?_concat_length, if_pos inside, filled]
  rw [List.set_append_right _ _ (Nat.le_refl _), Nat.sub_self,
    List.set_cons_zero]

section

variable {input : CompileInput} {functions : List Function}
  {closure : List Symbol} {scope : Scope} {register : UInt8}

/--
The code that fills a new block: each slot gets the word that the enclosing
function reads for its symbol.
-/
theorem runs_closedValues (base : Contents) (cells : Symbol → Word)
    (few : closure.length ≤ 16) (symbols : List Symbol) (i : Nat)
    (view : View) (done : List Word) (tracks : Tracks view scope)
    (bound : ∀ symbol ∈ symbols, (scope.resolve symbol).isSome)
    (clear : ∀ event ∈ closedSearches scope symbols view, event.Unobstructed)
    (kept : (emitClosedValues register i symbols view).2.closure <+: closure)
    (room : (emitClosedValues register i symbols view).2.registers ≤
      before.registers.length)
    (small : before.registers.length ≤ 256)
    (taken : register.toNat < view.registers)
    (reads : ∀ symbol ∈ symbols,
      Reads module closure scope base symbol (cells symbol))
    (below : ∀ symbol ∈ symbols,
      ((scope.register symbol).getD 0).toNat < register.toNat)
    (agree : Agree register.toNat base before)
    (pointer : readReg before.registers register =
      .ok (.block base.memory.length))
    (memory : before.memory =
      base.memory ++ [done ++ List.replicate symbols.length .uninit])
    (filled : done.length = i + 1) (total : i + symbols.length ≤ 16) :
    ∃ after, Runs module (emitClosedValues register i symbols view).1 before
        after ∧
      Agree view.registers before after ∧
      after.memory = base.memory ++ [done ++ symbols.map cells] := by
  induction symbols generalizing i view done before with
  | nil => exact ⟨before, .empty before, .refl _ before, memory⟩
  | cons symbol symbols ih =>
      let value := emitIdentifier symbol view
      have later := emitClosedValues_continues register symbols (i + 1)
        value.view
      have grows := emitIdentifier_continues symbol view
      rcases List.forall_mem_cons.mp clear with ⟨clearHere, clearLater⟩
      rcases List.forall_mem_cons.mp bound with ⟨boundHere, boundLater⟩
      rcases List.forall_mem_cons.mp reads with ⟨readsHere, readsLater⟩
      rcases List.forall_mem_cons.mp below with ⟨belowHere, belowLater⟩
      have current : Reads module closure scope before symbol (cells symbol) :=
        readsHere.keep (agree.kept _ belowHere) ⟨_, memory.symm⟩
      rcases runs_identifier tracks boundHere clearHere
        (later.closure.trans kept) few (Nat.le_trans later.registers room)
        small current with ⟨registers, loads, loaded, read⟩
      -- The value goes into the next slot.
      have array : readReg registers register =
          .ok (.block base.memory.length) :=
        (loaded.kept register taken).trans pointer
      have stores := storeWord_next base.memory done symbols.length
        (cells symbol)
      rw [← List.length_cons (a := symbol), ← memory, filled] at stores
      have offset : toOffset (UInt16.ofNat (i + 1)) = .ok (i + 1) := by
        rw [List.length_cons] at total
        exact toOffset_slot (by omega)
      let stored : Contents := ⟨registers, base.memory ++
        [done ++ [cells symbol] ++ List.replicate symbols.length .uninit]⟩
      have store : Runs module (.instruction (.storea64 register
          (UInt16.ofNat (i + 1)) (emitIdentifier symbol view).reg))
          ⟨registers, before.memory⟩ stored := by
        refine .perform trivial fun ip => ?_
        simp only [perform, Contents.frame, array, read, offset, stores,
          Stop.ok_bind]
        rfl
      -- The other slots follow.
      have same : Agree view.registers before stored :=
        ⟨loaded.length, loaded.kept⟩
      have longer : (done ++ [cells symbol]).length = i + 1 + 1 := by
        simp [filled]
      have rest : i + 1 + symbols.length ≤ 16 := by
        rw [List.length_cons] at total
        omega
      rcases ih (i + 1) value.view (done ++ [cells symbol])
        (tracks.continues grows) boundLater clearLater kept
        (same.length.symm ▸ room) (same.length.symm ▸ small)
        (Nat.lt_of_lt_of_le taken grows.registers) readsLater belowLater
        (agree.trans (same.less (Nat.le_of_lt taken)) (Nat.le_refl _)) array
        rfl longer rest with ⟨after, runs, agrees, final⟩
      refine ⟨after, .seq loads (.seq store runs),
        same.trans agrees grows.registers, ?_⟩
      rw [final, List.append_assoc]
      rfl

/-- What `NEW_CLOSURE` makes of a function. -/
theorem runs_newClosure {f : Function} {idReg : UInt8} (before : Contents)
    (register : UInt8)
    (linked : Linked input module functions) (member : f ∈ functions)
    (read : readReg before.registers idReg =
      .ok (.int (UInt64.ofNat f.id)))
    (inside : register.toNat < before.registers.length) :
    ∃ pointer memory registers,
      (pointer, memory) =
        (if f.closure input = [] then (.static f.id, before.memory)
        else (.block before.memory.length, before.memory ++
          [.int (UInt64.ofNat f.id) ::
            List.replicate (f.closure input).length .uninit])) ∧
      writeReg before.registers register pointer = .ok registers ∧
      Runs module (.instruction (.newClosure idReg register)) before
        ⟨registers, memory⟩ := by
  have index := toIndex_ofNat (linked.small f member)
  have entry := linked.entry f member
  have length : (f.entry input).closureLength = (f.closure input).length := rfl
  by_cases empty : f.closure input = []
  · rcases writeReg_ok (.static f.id) inside with ⟨registers, writes⟩
    refine ⟨.static f.id, before.memory, registers, by rw [if_pos empty],
      writes, .perform trivial fun ip => ?_⟩
    have none_ : ¬(f.entry input).closureLength > 0 := by
      rw [length, empty]
      exact Nat.lt_irrefl 0
    simp only [perform, Contents.frame, read, Stop.ok_bind, Word.toInt, index,
      entry, if_neg none_, writes]
    rfl
  · rcases writeReg_ok (.block before.memory.length) inside with
      ⟨registers, writes⟩
    refine ⟨_, _, registers, by rw [if_neg empty], writes,
      .perform trivial fun ip => ?_⟩
    have some_ : (f.closure input).length > 0 := List.length_pos_iff.mpr empty
    simp only [perform, Contents.frame, read, Stop.ok_bind, Word.toInt, index,
      entry, length, if_pos some_, allocateClosure, allocateBlock, writes]
    rfl

/-- The code that creates a closure leaves its value in the register. -/
theorem runs_lambda {env : Environment} {selfId : Option Symbol}
    {lambdaId : Symbol} {body : Expression} {view : View}
    (linked : Linked input module functions)
    (named : selfId ≠ some invalidSymbol)
    (enclosed : Enclosed input functions lambdaId (selfSymbol selfId) body view
      scope)
    (creating : Creating input closure before.registers.length lambdaId
      (selfSymbol selfId) body register view scope)
    (small : before.registers.length ≤ 256) (few : closure.length ≤ 16)
    (framed : Framed input module functions closure scope env
      ((lambdaFunction input lambdaId (selfSymbol selfId) body view
        scope).closure input) before) :
    ∃ after word, Runs module (emitLambdaImpl input lambdaId (emit input body)
        (selfSymbol selfId) register view).code before after ∧
      Agree register.toNat before after ∧
      before.memory <+: after.memory ∧
      readReg after.registers register = .ok word ∧
      Represents input functions after.memory word
        (.closure env selfId lambdaId body) := by
  let f := lambdaFunction input lambdaId (selfSymbol selfId) body view scope
  let start := closureView input lambdaId (selfSymbol selfId)
    (emit input body) view
  have later := emitClosedValues_continues register (f.closure input) 0 start
  have room : (emitClosedValues register 0 (f.closure input)
    start).2.registers ≤ before.registers.length := creating.room
  have kept : (emitClosedValues register 0 (f.closure input)
    start).2.closure <+: closure := creating.kept
  have taken : view.registers < before.registers.length :=
    Nat.le_trans later.registers room
  have next : view.nextReg.toNat = view.registers :=
    nextReg_toNat (Nat.lt_of_lt_of_le taken small)
  have under := creating.next
  have member : f ∈ functions := enclosed.member
  -- The function's id and the new closure.
  rcases runs_literal module view.nextReg (UInt64.ofNat f.id)
    (next ▸ taken) with ⟨loaded, writesId, loads⟩
  have idAgrees : Agree view.registers before ⟨loaded, before.memory⟩ :=
    .write writesId (Nat.le_of_eq next.symm)
  have length : loaded.length = before.registers.length := idAgrees.length
  rcases runs_newClosure ⟨loaded, before.memory⟩ register linked member
    (readReg_written writesId) (by dsimp only; omega) with
    ⟨pointer, memory, created, made, writes, creates⟩
  have agrees : Agree register.toNat before ⟨created, memory⟩ :=
    (idAgrees.less (by omega)).trans (.write writes (Nat.le_refl _))
      (Nat.le_refl _)
  have read := readReg_written writes
  by_cases empty : f.closure input = []
  · -- Nothing is captured.
    rw [if_pos empty] at made
    cases made
    have closed : (emitClosedValues register 0 (f.closure input) start).1 =
        .empty := by
      rw [empty]
      rfl
    have fills : Runs module (emitClosedValues register 0 (f.closure input)
        start).1 ⟨created, before.memory⟩ ⟨created, before.memory⟩ := by
      rw [closed]
      exact .empty _
    refine ⟨_, _, .seq loads (.seq creates fills), agrees, List.prefix_rfl,
      read, ?_⟩
    let values : Symbol → Value := fun _ => .int 0
    have points : Points input before.memory f (fun _ => .uninit)
        (.static f.id) := .static empty
    have found : ∀ symbol ∈ f.closure input,
        env.lookup symbol = some (values symbol) := fun symbol inside =>
      absurd inside (empty ▸ List.not_mem_nil)
    exact .closure named enclosed points found fun symbol inside =>
      absurd inside (empty ▸ List.not_mem_nil)
  · -- The captured words fill a new block.
    rw [if_neg empty] at made
    cases made
    have inhabited : Nonempty Value := ⟨.int 0⟩
    have nonempty : Nonempty Word := ⟨.uninit⟩
    choose! values cells found reads represents using framed
    have boundAll : ∀ symbol ∈ f.closure input,
        (scope.resolve symbol).isSome := fun symbol inside =>
      enclosed.bound symbol (enclosed.mem_closure_iff.mp inside)
    have below : ∀ symbol ∈ f.closure input,
        ((scope.register symbol).getD 0).toNat < register.toNat := by
      intro symbol inside
      cases located : scope.register symbol with
      | some reg => exact creating.below symbol inside reg located
      | none => exact creating.pointer symbol inside located
    have tracks : Tracks start scope := enclosed.tracks.continues
      ((finishFunction_continues input (emit_continues input body) _ _
        view).trans (emitLiteral_continues _ _))
    rcases runs_closedValues before cells few (f.closure input) 0 start
      [.int (UInt64.ofNat f.id)] tracks boundAll enclosed.closed kept
      (agrees.length.symm ▸ room) (agrees.length.symm ▸ small)
      (show register.toNat < view.registers + 1 by omega) reads below agrees
      read rfl rfl (by
        have few := linked.slots f member
        omega) with ⟨after, fills, filled, final⟩
    refine ⟨after, _, .seq loads (.seq creates fills), agrees.trans filled
      (show register.toNat ≤ view.registers + 1 by omega), ⟨_, final.symm⟩,
      (filled.kept register
        (show register.toNat < view.registers + 1 by omega)).trans read, ?_⟩
    refine .closure named enclosed (.block empty ?_) found fun symbol inside =>
      (represents symbol inside).grow ⟨_, final.symm⟩
    rw [final]
    exact List.getElem?_concat_length

end

end

end Millie.Pipeline
