import Millie.Compiler.Blocks
import Millie.Compiler.Decoding
import Millie.Compiler.Totality

/-!
# Jump targets

Where the two jumps of every branch in a function's code continue.  The
distances are stored in sixteen bits and read back as signed, so a jump goes
where it should exactly when its distance is below `2 ^ 15`.
-/

namespace Millie.Compiler

open Millie.Symbols Millie.Syntax Millie.Machine

/-! ## Steps of the jumps -/

/-- A distance survives its way through sixteen bits when it is short. -/
theorem jumpTarget_iff {ip distance : Nat} :
    jumpTarget ip (UInt16.ofNat distance) = .ok (ip + distance) ↔
      distance < 2 ^ 15 := by
  refine ⟨fun target => ?_, jumpTarget_short⟩
  have short : toInt16 (UInt16.ofNat distance) < 2 ^ 15 := by
    have small := (UInt16.ofNat distance).toNat_lt
    unfold toInt16
    split <;> omega
  unfold jumpTarget at target
  dsimp only at target
  split at target
  · have same := Except.ok.inj target
    omega
  · cases target

section

variable {module : Module} {entry : CompiledExpression}
  {frame after : FrameState} {offset : UInt16} {ip : Nat}

/-- A `JMP` changes nothing but the instruction pointer. -/
theorem step_jmp_iff
    (fetched : fetch entry.code frame.ip = .ok (.jmp offset, ip)) :
    Step module entry frame after ↔
      ∃ target, jumpTarget ip offset = .ok target ∧
        after = { frame with ip := target } := by
  constructor
  · intro step
    cases step with
    | perform fetched' plain performed =>
        rw [fetched] at fetched'
        cases fetched'
        rcases Stop.bind_eq_ok_iff.mp performed with ⟨target, jumps, same⟩
        exact ⟨target, jumps, (Except.ok.inj same).symm⟩
    | call fetched' calls returns written =>
        rw [fetched] at fetched'
        cases fetched'
  · rintro ⟨target, jumps, rfl⟩
    exact .perform fetched trivial (Stop.bind_eq_ok_iff.mpr ⟨target, jumps, rfl⟩)

/-- Whether a register holds zero. -/
def testsZero (frame : FrameState) (testReg : UInt8) : Except Stop Bool :=
  readReg frame.registers testReg >>= isZero

/-- A `JZ` with a zero register changes nothing but the instruction pointer. -/
theorem step_jz_iff {testReg : UInt8}
    (fetched : fetch entry.code frame.ip = .ok (.jz testReg offset, ip))
    (zero : testsZero frame testReg = .ok true) :
    Step module entry frame after ↔
      ∃ target, jumpTarget ip offset = .ok target ∧
        after = { frame with ip := target } := by
  rcases Stop.bind_eq_ok_iff.mp zero with ⟨word, reads, isZero_⟩
  have performs : perform module (.jz testReg offset) { frame with ip := ip } =
      jumpTarget ip offset >>= fun target =>
        .ok { frame with ip := target } := by
    simp only [perform, reads, isZero_, Stop.ok_bind, if_true]
    rfl
  constructor
  · intro step
    cases step with
    | perform fetched' plain performed =>
        rw [fetched] at fetched'
        cases fetched'
        rw [performs] at performed
        rcases Stop.bind_eq_ok_iff.mp performed with ⟨target, jumps, same⟩
        exact ⟨target, jumps, (Except.ok.inj same).symm⟩
    | call fetched' calls returns written =>
        rw [fetched] at fetched'
        cases fetched'
  · rintro ⟨target, jumps, rfl⟩
    refine .perform fetched trivial ?_
    rw [performs]
    exact Stop.bind_eq_ok_iff.mpr ⟨target, jumps, rfl⟩

end

/-! ## Branches in code -/

/-- A branch and the address at which it starts. -/
structure Site where
  start : Nat
  testReg : UInt8
  thenCode : Code
  elseCode : Code

namespace Site

/-- The address of the `JMP` that ends the first arm. -/
def jmpStart (site : Site) : Nat :=
  site.start + 4 + site.thenCode.bytes.length

/-- The address of the first byte of the second arm. -/
def elseStart (site : Site) : Nat :=
  site.jmpStart + 3

/-- The address of the first byte after the branch. -/
def stop (site : Site) : Nat :=
  site.elseStart + site.elseCode.bytes.length

/-- The code of the branch. -/
def code (site : Site) : Code :=
  .branch site.testReg site.thenCode site.elseCode

end Site

/--
The branches of code that starts at an address.  An `if` expression is the only
one whose own code is a branch.
-/
def Code.sites (start : Nat) : Code → List Site
  | empty | instruction _ | operands _ => []
  | seq first second =>
      first.sites start ++ second.sites (start + first.bytes.length)
  | branch testReg thenCode elseCode =>
      let site : Site := ⟨start, testReg, thenCode, elseCode⟩
      site :: (thenCode.sites (start + 4) ++ elseCode.sites site.elseStart)

theorem jz_known (testReg : UInt8) (offset : UInt16) :
    Known (.jz testReg offset) :=
  nofun

theorem jmp_known (offset : UInt16) : Known (.jmp offset) :=
  nofun

/-- Reading code from its start reaches its end. -/
theorem Boundary.through {bytes : List UInt8} {code : Code} {ip : Nat}
    (clean : code.Clean) (placed : Placed bytes ip code.bytes)
    (boundary : Boundary bytes ip) :
    Boundary bytes (ip + code.bytes.length) := by
  induction code generalizing ip with
  | empty => exact boundary
  | operands bytes => exact clean.elim
  | instruction i => exact .next boundary (fetch_placed clean placed)
  | seq first second firstIh secondIh =>
      have middle := firstIh clean.1 placed.left boundary
      have last := secondIh clean.2 placed.right middle
      rw [Code.bytes, List.length_append, ← Nat.add_assoc]
      exact last
  | branch testReg thenCode elseCode thenIh elseIh =>
      rcases Code.placed_branch placed with ⟨jz, thenPlaced, jmp, elsePlaced⟩
      have afterJz := Boundary.next boundary (fetch_placed (jz_known _ _) jz)
      have afterThen := thenIh clean.1 thenPlaced afterJz
      have afterJmp := Boundary.next afterThen (fetch_placed (jmp_known _) jmp)
      rw [Code.length_branch, ← Nat.add_assoc, ← Nat.add_assoc, ← Nat.add_assoc]
      exact elseIh clean.2 elsePlaced afterJmp

/-- What holds of a branch wherever it stands in clean code. -/
structure Site.Stands (bytes : List UInt8) (last : Nat) (site : Site) :
    Prop where
  placed : Placed bytes site.start site.code.bytes
  elseStart : Boundary bytes site.elseStart
  stop : Boundary bytes site.stop
  inside : site.stop ≤ last

theorem Code.sites_stand {bytes : List UInt8} {code : Code} {start last : Nat}
    (clean : code.Clean) (placed : Placed bytes start code.bytes)
    (boundary : Boundary bytes start)
    (inside : start + code.bytes.length ≤ last) :
    ∀ site ∈ code.sites start, site.Stands bytes last := by
  induction code generalizing start with
  | empty | instruction => exact nofun
  | operands bytes => exact clean.elim
  | seq first second firstIh secondIh =>
      rw [Code.bytes, List.length_append, ← Nat.add_assoc] at inside
      refine List.forall_mem_append.mpr ⟨?_, ?_⟩
      · exact firstIh clean.1 placed.left boundary (by omega)
      · exact secondIh clean.2 placed.right
          (boundary.through clean.1 placed.left) inside
  | branch testReg thenCode elseCode thenIh elseIh =>
      rcases Code.placed_branch placed with ⟨jz, thenPlaced, jmp, elsePlaced⟩
      have afterJz := Boundary.next boundary (fetch_placed (jz_known _ _) jz)
      have afterThen := afterJz.through clean.1 thenPlaced
      have afterJmp := Boundary.next afterThen (fetch_placed (jmp_known _) jmp)
      have afterElse := Boundary.through clean.2 elsePlaced afterJmp
      rw [Code.length_branch] at inside
      refine List.forall_mem_cons.mpr ⟨⟨placed, afterJmp, afterElse, ?_⟩,
        List.forall_mem_append.mpr ⟨?_, ?_⟩⟩
      · simp only [Site.stop, Site.elseStart, Site.jmpStart]
        omega
      · exact thenIh clean.1 thenPlaced afterJz (by omega)
      · refine elseIh clean.2 elsePlaced afterJmp ?_
        simp only [Site.elseStart, Site.jmpStart]
        omega

/-! ## Where the jumps continue -/

/--
Both jumps of a branch continue where they should: the `JZ`, when its register is
zero, at the second arm and the `JMP` after the branch, with nothing else
changed; both addresses are instruction boundaries of the function's code.
-/
structure Site.Right (entry : CompiledExpression) (site : Site) : Prop where
  jz : ∀ module frame, frame.ip = site.start →
    testsZero frame site.testReg = .ok true → ∀ after,
      Step module entry frame after ↔
        after = { frame with ip := site.elseStart }
  jmp : ∀ module frame, frame.ip = site.jmpStart → ∀ after,
    Step module entry frame after ↔ after = { frame with ip := site.stop }
  elseStart : Boundary entry.code site.elseStart ∧
    site.elseStart < entry.code.length
  stop : Boundary entry.code site.stop ∧ site.stop < entry.code.length

/-- The distances of both jumps fit into a signed offset. -/
def Site.Short (site : Site) : Prop :=
  site.thenCode.bytes.length + 3 < 2 ^ 15 ∧
    site.elseCode.bytes.length < 2 ^ 15

/-- One address is the only one to continue at if the target is that address. -/
theorem continues_at_iff {frame : FrameState} {offset : UInt16} {ip goal : Nat} :
    (∀ after, (∃ target, jumpTarget ip offset = .ok target ∧
        after = { frame with ip := target }) ↔
      after = { frame with ip := goal }) ↔
    jumpTarget ip offset = .ok goal := by
  constructor
  · intro same
    rcases (same { frame with ip := goal }).mpr rfl with
      ⟨target, jumps, equal⟩
    have ips : goal = target := congrArg FrameState.ip equal
    rw [jumps, ips]
  · intro jumps after
    constructor
    · rintro ⟨target, jumps', rfl⟩
      rw [jumps] at jumps'
      cases jumps'
      rfl
    · rintro rfl
      exact ⟨goal, jumps, rfl⟩

section

variable {entry : CompiledExpression} {site : Site} {last : Nat}

theorem Site.Stands.jz_iff (stands : site.Stands entry.code last)
    (module : Module) {frame : FrameState} (at_ : frame.ip = site.start)
    (zero : testsZero frame site.testReg = .ok true) :
    (∀ after, Step module entry frame after ↔
        after = { frame with ip := site.elseStart }) ↔
      site.thenCode.bytes.length + 3 < 2 ^ 15 := by
  have fetched := fetch_placed (jz_known _ _)
    (Code.placed_branch stands.placed).1
  rw [← at_] at fetched
  have target : site.elseStart = frame.ip + 4 +
      (site.thenCode.bytes.length + 3) := by
    rw [at_]
    exact Nat.add_assoc _ _ _
  simp only [step_jz_iff fetched zero]
  rw [continues_at_iff, target]
  exact jumpTarget_iff

theorem Site.Stands.jmp_iff (stands : site.Stands entry.code last)
    (module : Module) {frame : FrameState} (at_ : frame.ip = site.jmpStart) :
    (∀ after, Step module entry frame after ↔
        after = { frame with ip := site.stop }) ↔
      site.elseCode.bytes.length < 2 ^ 15 := by
  have fetched : fetch entry.code site.jmpStart = _ :=
    fetch_placed (jmp_known _) (Code.placed_branch stands.placed).2.2.1
  rw [← at_] at fetched
  have target : site.stop = frame.ip + 3 + site.elseCode.bytes.length := by
    rw [at_]
    rfl
  simp only [step_jmp_iff fetched]
  rw [continues_at_iff, target]
  exact jumpTarget_iff

/-- A frame in which every register is zero. -/
def zeroFrame (ip : Nat) : FrameState :=
  ⟨List.replicate 256 (.int 0), ip, []⟩

theorem zeroFrame_tests (ip : Nat) (reg : UInt8) :
    testsZero (zeroFrame ip) reg = .ok true := by
  have inside : (List.replicate 256 (Word.int 0))[reg.toNat]? =
      some (.int 0) := List.getElem?_replicate_of_lt reg.toNat_lt
  simp only [testsZero, zeroFrame, readReg, inside, Stop.ok_bind]
  rfl

/-- The jumps of a branch are right exactly when they are short. -/
theorem Site.Stands.right_iff (stands : site.Stands entry.code last)
    (inside : last < entry.code.length) : site.Right entry ↔ site.Short := by
  constructor
  · intro right
    constructor
    · exact (stands.jz_iff moduleInit rfl (zeroFrame_tests _ _)).mp
        (right.jz moduleInit (zeroFrame site.start) rfl (zeroFrame_tests _ _))
    · exact (stands.jmp_iff moduleInit rfl).mp
        (right.jmp moduleInit (zeroFrame site.jmpStart) rfl)
  · rintro ⟨thenShort, elseShort⟩
    have ends := stands.inside
    constructor
    · exact fun module frame at_ zero =>
        (stands.jz_iff module at_ zero).mpr thenShort
    · exact fun module frame at_ => (stands.jmp_iff module at_).mpr elseShort
    · refine ⟨stands.elseStart, ?_⟩
      have before : site.elseStart ≤ site.stop := Nat.le_add_right _ _
      omega
    · exact ⟨stands.stop, by omega⟩

end

/-! ## The branches of a module -/

/-- The branches in a function's code. -/
def Function.sites (input : CompileInput) (f : Function) : List Site :=
  (f.emission input).code.sites 0

/-- The jumps of a module's branches are right exactly when they are short. -/
theorem Function.right_iff {input : CompileInput} {f : Function}
    (quiet : (f.emission input).view.errors = []) :
    ∀ site ∈ f.sites input, site.Right (f.entry input) ↔ site.Short := by
  intro site inSites
  have clean := (emit_plain input f.body f.view quiet).1
  have placed : Placed (f.entry input).code 0 (f.emission input).code.bytes :=
    .start _ _
  have length : (f.emission input).code.bytes.length <
      (f.entry input).code.length := by
    change _ < List.length (_ ++ _)
    rw [List.length_append]
    exact Nat.lt_succ_self _
  have stands := Code.sites_stand clean placed .start
    (Nat.le_of_eq (Nat.zero_add _)) site inSites
  exact stands.right_iff length

/--
The functions that a compilation without an error finishes are the module's; in
each of them, the jumps of a branch are right if and only if the first arm's code
with its `JMP`, and the second arm's with its `MOV`, are shorter than `2 ^ 15`
bytes.
-/
theorem jumps_right_iff {input : CompileInput} {expression : Expression}
    {funcId : Nat} {after : CompileState}
    (returns : compileModule input expression = .ok (funcId, after))
    (quiet : after.errors = []) :
    (after.finished = (moduleFunctions input expression).map fun f =>
        (f.id, f.entry input)) ∧
      ∀ f ∈ moduleFunctions input expression, ∀ site ∈ f.sites input,
        site.Right (f.entry input) ↔ site.Short :=
  ⟨compileModule_functions returns, fun f member =>
    f.right_iff (moduleFunctions_quiet returns quiet f member)⟩

/-! ## Chains of conditionals -/

/-- `if x then x else if x then x else … x`. -/
def nestedIfs : Nat → Expression
  | 0 => .identifier ⟨0, 0⟩ 1
  | count + 1 =>
      .if_ ⟨0, 0⟩ (.identifier ⟨0, 0⟩ 1) (.identifier ⟨0, 0⟩ 1)
        (nestedIfs count)

/-- `let x = true in` a chain of conditionals. -/
def manyIfs (count : Nat) : Expression :=
  .let_ ⟨0, 0⟩ 1 (.true_ ⟨0, 0⟩) (nestedIfs count)

/-- The symbol of the chain is bound to a register. -/
def Bound (view : View) (reg : UInt8) : Prop :=
  View.search view.bindings 1 view.top = some reg

/-- What a chain emits: seven bytes for each conditional, and no register. -/
structure Chain (view : View) (reg : UInt8) (count : Nat)
    (emission : Emission) : Prop where
  length : emission.code.bytes.length = 7 * count
  result : emission.reg = reg
  bound : Bound emission.view reg
  top : emission.view.top = view.top
  errors : emission.view.errors = view.errors

section

variable {input : CompileInput} {view : View} {reg : UInt8}

theorem emitIdentifier_chain (bound : Bound view reg) :
    Chain view reg 0 (emitIdentifier 1 view) := by
  rw [emitIdentifier_bound bound]
  exact ⟨rfl, rfl, bound, rfl, rfl⟩

/-- The arms leave their results in one register, so nothing is moved. -/
theorem moveResult_same (reg : UInt8) : moveResult reg reg = .empty :=
  if_neg (not_not.mpr rfl)

/-- The branch that a chain starts with. -/
def chainSite (input : CompileInput) (count : Nat) (start : Nat)
    (view : View) : Site :=
  let tested := emitIdentifier 1 view
  let armed := emitIdentifier 1 tested.view
  let elsed := emit input (nestedIfs count) armed.view
  ⟨start, tested.reg, armed.code,
    .seq elsed.code (moveResult elsed.reg armed.reg)⟩

theorem nestedIfs_code (input : CompileInput) (count : Nat) (view : View) :
    (emit input (nestedIfs (count + 1)) view).code =
      .seq (emitIdentifier 1 view).code (chainSite input count 0 view).code :=
  rfl

theorem nestedIfs_chain (input : CompileInput) (count : Nat)
    (bound : Bound view reg) :
    Chain view reg count (emit input (nestedIfs count) view) := by
  induction count generalizing view with
  | zero => exact emitIdentifier_chain bound
  | succ count ih =>
      have test := emitIdentifier_chain bound
      have thenArm := emitIdentifier_chain test.bound
      have elseArm := ih thenArm.bound
      refine ⟨?_, thenArm.result, elseArm.bound,
        elseArm.top.trans (thenArm.top.trans test.top),
        elseArm.errors.trans (thenArm.errors.trans test.errors)⟩
      rw [nestedIfs_code, Code.bytes, List.length_append, test.length,
        Site.code, Code.length_branch]
      dsimp only [chainSite]
      rw [thenArm.length, Code.bytes, List.length_append, elseArm.length,
        elseArm.result, thenArm.result, moveResult_same, Code.bytes]
      simp only [List.length_nil]
      omega

/-- The second arm of a chain's first branch is the rest of the chain. -/
theorem chainSite_short_iff (input : CompileInput) (count start : Nat)
    (bound : Bound view reg) :
    (chainSite input count start view).Short ↔ 7 * count < 2 ^ 15 := by
  have test := emitIdentifier_chain bound
  have thenArm := emitIdentifier_chain test.bound
  have elseArm := nestedIfs_chain input count thenArm.bound
  unfold Site.Short
  dsimp only [chainSite]
  rw [thenArm.length, Code.bytes, List.length_append, elseArm.length,
    elseArm.result, thenArm.result, moveResult_same, Code.bytes]
  simp

theorem nestedIfs_functions (input : CompileInput) (count : Nat) (view : View)
    (scope : Scope) : functions input (nestedIfs count) view scope = [] := by
  induction count generalizing view with
  | zero => rfl
  | succ count ih =>
      rw [nestedIfs, functions, ih]
      rfl

theorem nestedIfs_inside (input : CompileInput) (count : Nat)
    (bound : Bound view reg) (small : view.top < 8) :
    AllInside (operations input (nestedIfs count) view) := by
  have identifier : ∀ view : View, Bound view reg → view.top < 8 →
      AllInside (identifierOperations 1 view) := by
    intro view bound small
    rw [identifierOperations, show View.search _ _ _ = _ from bound]
    simpa using small
  induction count generalizing view with
  | zero => exact identifier view bound small
  | succ count ih =>
      have test := emitIdentifier_chain bound
      have thenArm := emitIdentifier_chain test.bound
      have testSmall := test.top ▸ small
      rw [nestedIfs, operations, allInside_append, allInside_append]
      refine ⟨identifier _ bound small, identifier _ test.bound testSmall,
        ih thenArm.bound ?_⟩
      exact thenArm.top ▸ testSmall

end

/-- The state in which the chain of `manyIfs` is emitted. -/
def chainView : View :=
  (entryView zeroedInput).take.push 1 0

theorem chainView_bound : Bound chainView 0 :=
  rfl

/-- A chain whose code fits the buffer compiles without an error. -/
theorem manyIfs_compiles {count : Nat} (short : 7 * count + 5 ≤ codeLimit) :
    ∃ funcId after,
    compileModule zeroedInput (manyIfs count) = .ok (funcId, after) ∧
      after.errors = [] := by
  have inside : ∀ f ∈ moduleFunctions zeroedInput (manyIfs count),
      f.Inside zeroedInput := by
    intro f member
    have none_ : functions zeroedInput (manyIfs count) (entryView zeroedInput)
        .entry = [] := by
      rw [manyIfs, functions, nestedIfs_functions]
      rfl
    rw [moduleFunctions, none_, List.nil_append] at member
    rw [List.mem_singleton.mp member]
    have top : (entryFunction zeroedInput (manyIfs count)).view.top ≤ 8 :=
      Nat.zero_le 8
    have body := nestedIfs_inside zeroedInput count chainView_bound (by decide)
    have chain := nestedIfs_chain zeroedInput count chainView_bound
    refine (function_inside top).mpr
      ⟨allInside_append.mpr ⟨allInside_cons.mpr ⟨trivial, allInside_nil⟩,
        allInside_cons.mpr ⟨(push_inside 0).mpr (by decide), body⟩⟩,
        Code.fits_of_short ?_⟩
    change (Code.seq _ _).bytes.length + 2 ≤ codeLimit
    rw [Code.length_seq]
    change 3 + (emit zeroedInput (nestedIfs count) chainView).code.bytes.length +
      2 ≤ codeLimit
    rw [chain.length]
    omega
  rcases (compileModule_returns_iff zeroedInput (manyIfs count)).mpr inside with
    ⟨⟨funcId, after⟩, returns⟩
  rcases compileModule_ok returns with ⟨-, -, errors, -⟩
  exact ⟨funcId, after, returns, errors.trans
    (nestedIfs_chain zeroedInput count chainView_bound).errors⟩

/-- The first branch of `manyIfs`, after the three bytes that load `true`. -/
theorem manyIfs_site (count : Nat) :
    chainSite zeroedInput count 3 chainView ∈
      (entryFunction zeroedInput (manyIfs (count + 1))).sites zeroedInput :=
  List.mem_append_right _ (List.mem_append_right _ (List.mem_cons_self ..))

theorem manyIfs_right_iff (count : Nat) :
    (chainSite zeroedInput count 3 chainView).Right
        ((entryFunction zeroedInput (manyIfs (count + 1))).entry zeroedInput) ↔
      7 * count < 2 ^ 15 := by
  have quiet : ((entryFunction zeroedInput (manyIfs (count + 1))).emission
      zeroedInput).view.errors = [] :=
    (nestedIfs_chain zeroedInput (count + 1) chainView_bound).errors
  exact (Function.right_iff quiet _ (manyIfs_site count)).trans
    (chainSite_short_iff zeroedInput count 3 chainView_bound)

/-- The jumps of the first branch of a chain of five are right. -/
theorem jumps_right_chain : ∃ funcId after,
    compileModule zeroedInput (manyIfs 5) = .ok (funcId, after) ∧
      (chainSite zeroedInput 4 3 chainView).Right
        ((entryFunction zeroedInput (manyIfs 5)).entry zeroedInput) := by
  rcases manyIfs_compiles (show 7 * 5 + 5 ≤ codeLimit by decide) with
    ⟨funcId, after, returns, quiet⟩
  have sites := (jumps_right_iff returns quiet).2
    (entryFunction zeroedInput (manyIfs 5))
    (List.mem_append_right _ (List.mem_singleton.mpr rfl))
  have short := chainSite_short_iff zeroedInput 4 3 chainView_bound
  exact ⟨funcId, after, returns,
    (sites _ (manyIfs_site 4)).mpr (short.mpr (by decide))⟩

/--
A chain of 4683 conditionals compiles without an error, but the `JMP` of its
first branch, which has to skip 32774 bytes, does not continue after it.
-/
theorem jumps_wrong_chain : ∃ funcId after,
    compileModule zeroedInput (manyIfs 4683) = .ok (funcId, after) ∧
      after.errors = [] ∧
      ∃ site ∈ (entryFunction zeroedInput (manyIfs 4683)).sites zeroedInput,
        ¬site.Right
          ((entryFunction zeroedInput (manyIfs 4683)).entry zeroedInput) := by
  rcases manyIfs_compiles
    (show 7 * 4683 + 5 ≤ codeLimit by decide) with ⟨funcId, after, returns, quiet⟩
  refine ⟨funcId, after, returns, quiet, _, manyIfs_site 4682, ?_⟩
  rw [manyIfs_right_iff]
  decide

end Millie.Compiler
