import Millie.Compiler.Blocks
import Millie.Compiler.Frames

/-!
# Live registers

An identifier compiles to the register of its binding, so an `if` whose then arm
ends in a variable moves the result of its else arm into the variable's own
register.  Every other instruction writes a register that was never taken.  The
code of an expression leaves the live registers alone exactly when no `if` does
that to one of them.
-/

namespace Millie.Compiler

open Millie.Symbols Millie.Syntax Millie.Machine

/-! ## Where a result stands -/

/--
The binding memory seen from inside an expression: the symbol of every entry,
and its register unless the entry was pushed for a new register meanwhile.
-/
structure Held where
  entries : Nat → Symbol × Option UInt8
  top : Nat

namespace Held

def push (held : Held) (symbol : Symbol) (reg : Option UInt8) : Held :=
  ⟨Function.update held.entries held.top (symbol, reg), held.top + 1⟩

def pop (held : Held) : Held :=
  { held with top := held.top - 1 }

/-- The register that a symbol had before, searching from `i` down. -/
def search (entries : Nat → Symbol × Option UInt8) (id : Symbol) :
    Nat → Option UInt8
  | 0 => if (entries 0).1 = id then (entries 0).2 else none
  | i + 1 =>
      if (entries (i + 1)).1 = id then (entries (i + 1)).2
      else search entries id i

/-- Every register of a state was there before. -/
def of (view : View) : Held where
  entries i := ((view.bindings i).symbol, some (view.bindings i).reg)
  top := view.top

/-- A step repeated. -/
def repeated (step : Held → Held) : Nat → Held → Held
  | 0, held => held
  | count + 1, held => repeated step count (step held)

end Held

/--
The register, among those that were there before, in which the result of an
expression stands; and the binding memory afterwards.
-/
def resultRegister : Expression → Held → Option UInt8 × Held
  | .identifier _ id, held => (Held.search held.entries id held.top, held)
  | .let_ _ id value body, held =>
      let (reg, held) := resultRegister value held
      let (reg, held) := resultRegister body (held.push id reg)
      (reg, held.pop)
  | .letrec _ id value body, held =>
      match value with
      | .lambda _ _ _ =>
          let (reg, held) := resultRegister body (held.push id none)
          (reg, held.pop)
      | _ => (none, held)
  | .apply _ function argument, held =>
      (none, (resultRegister argument (resultRegister function held).2).2)
  | .binary _ _ left right, held =>
      (none, (resultRegister right (resultRegister left held).2).2)
  | .unary _ _ arg, held => (none, (resultRegister arg held).2)
  | .if_ _ test thenArm elseArm, held =>
      let (reg, held) := resultRegister thenArm (resultRegister test held).2
      (reg, (resultRegister elseArm held).2)
  | .tuple _ first _ length, held =>
      (none, Held.repeated (fun held => (resultRegister first held).2) length
        held)
  | .error _, held | .invalid _, held | .tupleFinal _ _, held =>
      (some 0, held)
  | .integerConstant _ _, held | .true_ _, held | .false_ _, held
  | .lambda _ _ _, held => (none, held)

/-- A condition on every round of a repeated step. -/
def EveryRound (holds : Held → Prop) (step : Held → Held) :
    Nat → Held → Prop
  | 0, _ => True
  | count + 1, held => holds held ∧ EveryRound holds step count (step held)

/--
No `if` ends its then arm in a live register, unless the else arm ends in the
same one.
-/
def Spares (live : UInt8 → Prop) : Expression → Held → Prop
  | .let_ _ id value body, held =>
      let result := resultRegister value held
      Spares live value held ∧ Spares live body (result.2.push id result.1)
  | .letrec _ id value body, held =>
      match value with
      | .lambda _ _ _ => Spares live body (held.push id none)
      | _ => True
  | .apply _ function argument, held =>
      Spares live function held ∧
        Spares live argument (resultRegister function held).2
  | .binary _ _ left right, held =>
      Spares live left held ∧ Spares live right (resultRegister left held).2
  | .unary _ _ arg, held => Spares live arg held
  | .if_ _ test thenArm elseArm, held =>
      let tested := (resultRegister test held).2
      let result := resultRegister thenArm tested
      Spares live test held ∧ Spares live thenArm tested ∧
        Spares live elseArm result.2 ∧
        ∀ reg, result.1 = some reg → live reg →
          (resultRegister elseArm result.2).1 = some reg
  | .tuple _ first _ length, held =>
      EveryRound (Spares live first) (fun held => (resultRegister first held).2)
        length held
  | .identifier _ _, _ | .lambda _ _ _, _ | .integerConstant _ _, _
  | .true_ _, _ | .false_ _, _ | .error _, _ | .invalid _, _
  | .tupleFinal _ _, _ => True

/-! ## What emission does with the binding memory -/

/-- The binding memory as it is; what is new is at or above the base. -/
structure Held.Describes (held : Held) (view : View) (base : Nat) :
    Prop where
  top : held.top = view.top
  symbol : ∀ i, (held.entries i).1 = (view.bindings i).symbol
  old : ∀ i reg, (held.entries i).2 = some reg → (view.bindings i).reg = reg
  new : ∀ i, (held.entries i).2 = none → base ≤ (view.bindings i).reg.toNat

/-- Where a register stands. -/
structure Stands (base : Nat) (result : Option UInt8) (reg : UInt8) : Prop where
  old : ∀ other, result = some other → reg = other
  new : result = none → base ≤ reg.toNat

namespace Held.Describes

variable {held : Held} {view : View} {base : Nat}

theorem of (view : View) (base : Nat) : (Held.of view).Describes view base where
  top := rfl
  symbol _ := rfl
  old _ _ same := Option.some.inj same
  new _ isNone := nomatch isNone

/-- Whatever keeps the binding memory. -/
theorem congr (describes : held.Describes view base) {after : View}
    (top : after.top = view.top) (bindings : after.bindings = view.bindings) :
    held.Describes after base where
  top := describes.top.trans top.symm
  symbol i := by rw [bindings, describes.symbol]
  old i reg := by
    rw [bindings]
    exact describes.old i reg
  new i := by
    rw [bindings]
    exact describes.new i

theorem push (describes : held.Describes view base) (symbol : Symbol)
    {result : Option UInt8} {reg : UInt8} (stands : Stands base result reg) :
    (held.push symbol result).Describes (view.push symbol reg) base where
  top := congrArg (· + 1) describes.top
  symbol i := by
    rw [Held.push, View.push, describes.top]
    by_cases here : i = view.top
    · simp [here]
    · simp [Function.update_of_ne here, describes.symbol]
  old i other := by
    rw [Held.push, View.push, describes.top]
    by_cases here : i = view.top
    · simpa [here] using stands.old other
    · simpa [Function.update_of_ne here] using describes.old i other
  new i := by
    rw [Held.push, View.push, describes.top]
    by_cases here : i = view.top
    · simpa [here] using stands.new
    · simpa [Function.update_of_ne here] using describes.new i

theorem pop (describes : held.Describes view base) :
    held.pop.Describes view.pop base where
  top := congrArg (· - 1) describes.top
  symbol := describes.symbol
  old := describes.old
  new := describes.new

/-- A search finds what the compiler's search finds. -/
theorem search (describes : held.Describes view base) (id : Symbol)
    (i : Nat) :
    (∀ other, Held.search held.entries id i = some other →
        View.search view.bindings id i = some other) ∧
      (Held.search held.entries id i = none →
        ∀ reg, View.search view.bindings id i = some reg → base ≤ reg.toNat) := by
  induction i with
  | zero =>
      rw [Held.search, View.search, describes.symbol]
      split
      · constructor
        · intro other held
          rw [describes.old 0 other held]
        · rintro isNone reg same
          cases same
          exact describes.new 0 isNone
      · exact ⟨nofun, nofun⟩
  | succ i ih =>
      rw [Held.search, View.search, describes.symbol]
      split
      · constructor
        · intro other held
          rw [describes.old (i + 1) other held]
        · rintro isNone reg same
          cases same
          exact describes.new (i + 1) isNone
      · exact ih

end Held.Describes

theorem Stands.fresh {view : View} {base : Nat} (low : base ≤ view.registers)
    (room : view.registers < 256) : Stands base none view.nextReg where
  old := nofun
  new _ := by
    rw [View.nextReg, UInt8.toNat_ofNat']
    exact Nat.le_trans low (Nat.le_of_eq (Nat.mod_eq_of_lt room).symm)

/-! ## Emitted code -/

namespace Code

/-- No instruction writes a live register. -/
def Spares (live : UInt8 → Prop) (code : Code) : Prop :=
  ∀ i ∈ code.instructions, ∀ reg, destination i = some reg → ¬live reg

/--
Code in the shape that is emitted: only the move at the end of an else arm may
write a live register.
-/
inductive Tidy (live : UInt8 → Prop) : Code → Prop where
  | empty : Tidy live .empty
  | instruction {i : Instruction} (straight : Straight i)
      (noMove : ∀ srcReg dstReg, i ≠ .mov srcReg dstReg)
      (spares : ∀ reg, destination i = some reg → ¬live reg) :
      Tidy live (.instruction i)
  | seq {first second : Code} (firstTidy : Tidy live first)
      (secondTidy : Tidy live second) : Tidy live (.seq first second)
  | branch {testReg elseReg thenReg : UInt8} {thenCode elseCode : Code}
      (thenTidy : Tidy live thenCode) (elseTidy : Tidy live elseCode) :
      Tidy live (.branch testReg thenCode
        (.seq elseCode (moveResult elseReg thenReg)))

theorem Tidy.structured {live : UInt8 → Prop} {code : Code}
    (tidy : Tidy live code) : code.Structured := by
  induction tidy with
  | empty => trivial
  | instruction straight => exact straight
  | seq _ _ firstIh secondIh => exact ⟨firstIh, secondIh⟩
  | branch _ _ thenIh elseIh =>
      refine ⟨thenIh, elseIh, ?_⟩
      unfold moveResult
      split
      · exact trivial
      · exact trivial

theorem spares_seq {live : UInt8 → Prop} {first second : Code} :
    (seq first second).Spares live ↔ first.Spares live ∧ second.Spares live := by
  constructor
  · intro spares
    exact ⟨fun i member => spares i (List.mem_append_left _ member),
      fun i member => spares i (List.mem_append_right _ member)⟩
  · rintro ⟨firstSpares, secondSpares⟩ i member
    rcases List.mem_append.mp member with inFirst | inSecond
    · exact firstSpares i inFirst
    · exact secondSpares i inSecond

theorem spares_branch {live : UInt8 → Prop} {testReg : UInt8}
    {thenCode elseCode : Code} :
    (branch testReg thenCode elseCode).Spares live ↔
      thenCode.Spares live ∧ elseCode.Spares live := by
  constructor
  · intro spares
    exact ⟨fun i member => spares i
        (List.mem_cons_of_mem _ (List.mem_append_left _ member)),
      fun i member => spares i (List.mem_cons_of_mem _
        (List.mem_append_right _ (List.mem_cons_of_mem _ member)))⟩
  · rintro ⟨thenSpares, elseSpares⟩ i member
    rcases List.mem_cons.mp member with rfl | member
    · exact nofun
    rcases List.mem_append.mp member with inThen | member
    · exact thenSpares i inThen
    rcases List.mem_cons.mp member with rfl | inElse
    · exact nofun
    · exact elseSpares i inElse

theorem spares_instruction {live : UInt8 → Prop} {i : Instruction}
    (spares : ∀ reg, destination i = some reg → ¬live reg) :
    (instruction i).Spares live := by
  intro other member
  rwa [List.mem_singleton.mp member]

/-- The move spares the live registers unless it is made and writes one. -/
theorem spares_moveResult {live : UInt8 → Prop} {elseReg thenReg : UInt8} :
    (moveResult elseReg thenReg).Spares live ↔
      (live thenReg → elseReg = thenReg) := by
  unfold moveResult
  split
  · rename_i moves
    constructor
    · intro spares isLive
      exact absurd isLive (spares _ (List.mem_singleton_self _) thenReg rfl)
    · intro same i member reg writes isLive
      rw [List.mem_singleton.mp member] at writes
      cases writes
      exact moves (same isLive)
  · rename_i stays
    exact ⟨fun _ _ => not_not.mp stays, fun _ => nofun⟩

end Code

/-- What the binding memory says of an emission. -/
structure Tracked (live : UInt8 → Prop) (base : Nat)
    (result : Option UInt8 × Held) (spares : Prop) (emission : Emission) :
    Prop where
  stands : Stands base result.1 emission.reg
  describes : result.2.Describes emission.view base
  tidy : emission.code.Tidy live
  spares : emission.code.Spares live ↔ spares

theorem binaryInstruction_shape {operator : TokenType}
    {left right out : UInt8} {instruction : Instruction}
    (chosen : binaryInstruction operator left right out = some instruction) :
    Straight instruction ∧
      (∀ srcReg dstReg, instruction ≠ .mov srcReg dstReg) ∧
      destination instruction = some out := by
  cases operator <;> simp [binaryInstruction] at chosen <;> subst chosen <;>
    exact ⟨trivial, by simp, rfl⟩

theorem unaryInstruction_shape {operator : TokenType} {arg out : UInt8}
    {instruction : Instruction}
    (chosen : unaryInstruction operator arg out = some instruction) :
    Straight instruction ∧
      (∀ srcReg dstReg, instruction ≠ .mov srcReg dstReg) ∧
      destination instruction = some out := by
  cases operator with
  | tokMinus =>
      cases chosen
      exact ⟨trivial, nofun, rfl⟩
  | _ => cases chosen

theorem emitTupleMembers_tracked {live : UInt8 → Prop} {base : Nat}
    {first : View → Emission}
    {step : Held → Held} {holds : Held → Prop}
    (continues : ∀ view, Continues view (first view).view)
    (tracked : ∀ {view held}, held.Describes view base →
      base ≤ view.registers → (first view).view.registers ≤ 256 →
      (first view).view.errors = [] →
      (step held).Describes (first view).view base ∧
        (first view).code.Tidy live ∧
        ((first view).code.Spares live ↔ holds held))
    (outReg : UInt8) (count i : Nat) {view : View} {held : Held}
    (describes : held.Describes view base) (low : base ≤ view.registers)
    (room : (emitTupleMembers first outReg i count view).2.registers ≤ 256)
    (quiet : (emitTupleMembers first outReg i count view).2.errors = []) :
    (Held.repeated step count held).Describes
        (emitTupleMembers first outReg i count view).2 base ∧
      (emitTupleMembers first outReg i count view).1.Tidy live ∧
      ((emitTupleMembers first outReg i count view).1.Spares live ↔
        EveryRound holds step count held) := by
  induction count generalizing i view held with
  | zero => exact ⟨describes, .empty, iff_of_true nofun trivial⟩
  | succ count ih =>
      have later := emitTupleMembers_continues continues outReg count (i + 1)
        (first view).view
      rcases tracked describes low (Nat.le_trans later.registers room)
        (errors_nil later quiet) with ⟨after, tidy, spares⟩
      rcases ih (i + 1) after (Nat.le_trans low (continues view).registers)
        room quiet with ⟨final, restTidy, restSpares⟩
      refine ⟨final,
        .seq tidy (.seq (.instruction trivial nofun nofun) restTidy), ?_⟩
      rw [EveryRound, ← spares, ← restSpares]
      constructor
      · intro all
        rcases Code.spares_seq.mp all with ⟨member, rest⟩
        exact ⟨member, (Code.spares_seq.mp rest).2⟩
      · rintro ⟨member, rest⟩
        exact Code.spares_seq.mpr ⟨member, Code.spares_seq.mpr
          ⟨Code.spares_instruction nofun, rest⟩⟩

section

variable {live : UInt8 → Prop} {base : Nat}
    (allocated : ∀ reg, live reg → reg.toNat < base)

include allocated

/-- A new register is not live. -/
theorem Stands.not_live {reg : UInt8} (fresh : Stands base none reg) :
    ¬live reg := fun isLive =>
  Nat.not_lt_of_le (fresh.new rfl) (allocated reg isLive)

/-- Code that is one instruction with a new register as its destination. -/
theorem tidy_fresh {i : Instruction} {reg : UInt8} (straight : Straight i)
    (noMove : ∀ srcReg dstReg, i ≠ .mov srcReg dstReg)
    (writes : destination i = some reg) (fresh : Stands base none reg) :
    (Code.instruction i).Tidy live ∧ (Code.instruction i).Spares live := by
  have spares : ∀ other, destination i = some other → ¬live other := by
    intro other same
    rw [writes] at same
    cases same
    exact fresh.not_live allocated
  exact ⟨.instruction straight noMove spares, Code.spares_instruction spares⟩

theorem emitLiteral_tracked {view : View} {held : Held}
    (describes : held.Describes view base) (low : base ≤ view.registers)
    (room : view.registers < 256) (value : UInt64) :
    Tracked live base (none, held) True (emitLiteral value view) := by
  have fresh := Stands.fresh low room
  have shape : Straight (literalInstruction value view.nextReg) ∧
      (∀ srcReg dstReg, literalInstruction value view.nextReg ≠
        .mov srcReg dstReg) ∧
      destination (literalInstruction value view.nextReg) =
        some view.nextReg := by
    unfold literalInstruction
    split
    · exact ⟨trivial, nofun, rfl⟩
    split
    · exact ⟨trivial, nofun, rfl⟩
    split
    · exact ⟨trivial, nofun, rfl⟩
    · exact ⟨trivial, nofun, rfl⟩
  rcases tidy_fresh allocated shape.1 shape.2.1 shape.2.2 fresh with
    ⟨tidy, spares⟩
  exact ⟨fresh, describes.congr rfl rfl, tidy, iff_true_intro spares⟩

theorem emitIdentifier_tracked {view : View} {held : Held}
    (describes : held.Describes view base) (low : base ≤ view.registers)
    (id : Symbol) (room : (emitIdentifier id view).view.registers ≤ 256) :
    Tracked live base (Held.search held.entries id held.top, held) True
      (emitIdentifier id view) := by
  rcases describes.search id view.top with ⟨old, new⟩
  rw [← describes.top] at old new
  cases found : View.search view.bindings id view.top with
  | some reg =>
      rw [emitIdentifier_bound found]
      rw [← describes.top] at found
      refine ⟨⟨?_, fun isNone => new isNone reg found⟩, describes.congr rfl rfl,
        .empty, iff_true_intro nofun⟩
      intro other same
      rw [old other same] at found
      exact (Option.some.inj found).symm
  | none =>
      rw [emitIdentifier_closed found] at room ⊢
      rw [← describes.top] at found
      have fresh := Stands.fresh low (Nat.lt_of_succ_le room)
      have isNone : Held.search held.entries id held.top = none := by
        cases same : Held.search held.entries id held.top with
        | none => rfl
        | some other =>
            rw [old other same] at found
            cases found
      rcases tidy_fresh (i := .loada64 0
          (UInt16.ofNat (view.closure.idxOf id) + 1) view.nextReg) allocated
        trivial nofun rfl fresh with ⟨tidy, spares⟩
      exact ⟨isNone ▸ fresh, describes.congr rfl rfl, tidy,
        iff_true_intro spares⟩

theorem emitClosedValues_tracked {view : View} {held : Held}
    (describes : held.Describes view base) (low : base ≤ view.registers)
    (closureRegister : UInt8) (i : Nat) (symbols : List Symbol)
    (room : (emitClosedValues closureRegister i symbols view).2.registers ≤
      256) :
    held.Describes (emitClosedValues closureRegister i symbols view).2 base ∧
      (emitClosedValues closureRegister i symbols view).1.Tidy live ∧
      (emitClosedValues closureRegister i symbols view).1.Spares live := by
  induction symbols generalizing i view with
  | nil => exact ⟨describes, .empty, nofun⟩
  | cons symbol symbols ih =>
      have grows := emitClosedValues_continues closureRegister symbols (i + 1)
        (emitIdentifier symbol view).view
      have value := emitIdentifier_tracked allocated describes low symbol
        (Nat.le_trans grows.registers room)
      rcases ih value.describes
        (Nat.le_trans low (emitIdentifier_continues symbol view).registers)
        (i + 1) room with ⟨after, tidy, spares⟩
      exact ⟨after,
        .seq value.tidy (.seq (.instruction trivial nofun nofun) tidy),
        Code.spares_seq.mpr ⟨value.spares.mpr trivial, Code.spares_seq.mpr
          ⟨Code.spares_instruction nofun, spares⟩⟩⟩

theorem emitLambdaImpl_tracked {view : View} {held : Held}
    (describes : held.Describes view base) (low : base ≤ view.registers)
    (input : CompileInput) (lambdaId selfId : Symbol) (body : View → Emission)
    {closureRegister : UInt8} (fresh : Stands base none closureRegister)
    (room : (emitLambdaImpl input lambdaId body selfId closureRegister
      view).view.registers ≤ 256) :
    Tracked live base (none, held) True
      (emitLambdaImpl input lambdaId body selfId closureRegister view) := by
  let added := addFunction view.module
  let emitted := emitBody input lambdaId selfId body view
  let outer := finishFunction added.2.1 added.1 emitted view
  have outerDescribes : held.Describes outer base := describes.congr rfl rfl
  have grows := emitClosedValues_continues closureRegister
    emitted.view.closure 0 (emitLiteral (UInt64.ofNat added.2.1) outer).view
  have literal := emitLiteral_tracked allocated outerDescribes low
    (Nat.lt_of_succ_le (Nat.le_trans grows.registers room))
    (UInt64.ofNat added.2.1)
  rcases emitClosedValues_tracked allocated literal.describes
    (Nat.le_succ_of_le low) closureRegister 0 emitted.view.closure room with
    ⟨after, tidy, spares⟩
  rcases tidy_fresh (i := .newClosure
      (emitLiteral (UInt64.ofNat added.2.1) outer).reg closureRegister)
    allocated trivial nofun rfl fresh with ⟨newTidy, newSpares⟩
  exact ⟨fresh, after, .seq literal.tidy (.seq newTidy tidy),
    iff_true_intro (Code.spares_seq.mpr ⟨literal.spares.mpr trivial,
      Code.spares_seq.mpr ⟨newSpares, spares⟩⟩)⟩

/-- Two expressions and an instruction with a new register as destination. -/
theorem tracked_operands {first second : Emission} {middle final : Held}
    {firstSpares secondSpares : Prop} {firstReg secondReg : Option UInt8}
    (firstTracked : Tracked live base (firstReg, middle) firstSpares first)
    (secondTracked : Tracked live base (secondReg, final) secondSpares second)
    (low : base ≤ second.view.registers) (room : second.view.registers < 256)
    {i : Instruction}
    (shape : Straight i ∧ (∀ srcReg dstReg, i ≠ .mov srcReg dstReg) ∧
      destination i = some second.view.nextReg) :
    Tracked live base (none, final) (firstSpares ∧ secondSpares)
      ⟨.seq first.code (.seq second.code (.instruction i)),
        second.view.nextReg, second.view.take⟩ := by
  have fresh := Stands.fresh low room
  rcases tidy_fresh allocated shape.1 shape.2.1 shape.2.2 fresh with
    ⟨tidy, spares⟩
  refine ⟨fresh, secondTracked.describes.congr rfl rfl,
    .seq firstTracked.tidy (.seq secondTracked.tidy tidy), ?_⟩
  rw [← firstTracked.spares, ← secondTracked.spares]
  constructor
  · intro all
    rcases Code.spares_seq.mp all with ⟨inFirst, rest⟩
    exact ⟨inFirst, (Code.spares_seq.mp rest).1⟩
  · rintro ⟨inFirst, inSecond⟩
    exact Code.spares_seq.mpr ⟨inFirst, Code.spares_seq.mpr ⟨inSecond, spares⟩⟩

theorem tracked_if {test thenArm elseArm : Emission}
    {tested afterThen afterElse : Held}
    {testSpares thenSpares elseSpares : Prop}
    {testReg thenReg elseReg : Option UInt8}
    (testTracked : Tracked live base (testReg, tested) testSpares test)
    (thenTracked : Tracked live base (thenReg, afterThen) thenSpares thenArm)
    (elseTracked : Tracked live base (elseReg, afterElse) elseSpares elseArm) :
    Tracked live base (thenReg, afterElse)
      (testSpares ∧ thenSpares ∧ elseSpares ∧
        ∀ reg, thenReg = some reg → live reg → elseReg = some reg)
      ⟨.seq test.code (.branch test.reg thenArm.code
          (.seq elseArm.code (moveResult elseArm.reg thenArm.reg))),
        thenArm.reg, elseArm.view⟩ := by
  refine ⟨thenTracked.stands, elseTracked.describes,
    .seq testTracked.tidy (.branch thenTracked.tidy elseTracked.tidy), ?_⟩
  have move : (moveResult elseArm.reg thenArm.reg).Spares live ↔
      ∀ reg, thenReg = some reg → live reg → elseReg = some reg := by
    rw [Code.spares_moveResult]
    constructor
    · rintro same reg held isLive
      have here := thenTracked.stands.old reg held
      rw [here] at same
      have equal := same isLive
      cases held' : elseReg with
      | none =>
          have high := elseTracked.stands.new held'
          rw [equal] at high
          exact absurd (allocated reg isLive) (Nat.not_lt_of_le high)
      | some other =>
          rw [← elseTracked.stands.old other held', equal]
    · intro same isLive
      cases held : thenReg with
      | none =>
          exact absurd (allocated _ isLive)
            (Nat.not_lt_of_le (thenTracked.stands.new held))
      | some reg =>
          have here := thenTracked.stands.old reg held
          rw [here] at isLive ⊢
          exact elseTracked.stands.old reg (same reg held isLive)
  rw [Code.spares_seq, Code.spares_branch, Code.spares_seq, move,
    testTracked.spares, thenTracked.spares, elseTracked.spares]

theorem emit_tracked (input : CompileInput) (expression : Expression)
    {view : View} {held : Held} (describes : held.Describes view base)
    (low : base ≤ view.registers)
    (room : (emit input expression view).view.registers ≤ 256)
    (quiet : (emit input expression view).view.errors = []) :
    Tracked live base (resultRegister expression held)
      (Spares live expression held) (emit input expression view) := by
  induction expression using Expression.functionInduction
    generalizing view held with
  | integerConstant range literalValue =>
      exact emitLiteral_tracked allocated describes low room _
  | true_ range => exact emitLiteral_tracked allocated describes low room _
  | false_ range => exact emitLiteral_tracked allocated describes low room _
  | identifier range id =>
      exact emitIdentifier_tracked allocated describes low id room
  | error range =>
      refine ⟨⟨?_, ?_⟩, describes, .empty, iff_of_true ?_ trivial⟩
      · rintro other same
        exact Option.some.inj same
      · rintro isNone
        cases isNone
      · rintro i member
        cases member
  | invalid range => simp [emit, View.report] at quiet
  | tupleFinal range first firstIh => simp [emit, View.report] at quiet
  | letrecOther range id value body notLambda valueIh bodyIh =>
      rw [emit_letrec_other notLambda] at quiet
      simp [emitLetRec, View.report] at quiet
  | let_ range id value body valueIh bodyIh =>
      let inner := (emit input value view).view.push id
        (emit input value view).reg
      have valueKept := emit_continues input value view
      have bodyKept := emit_continues input body inner
      have valueQuiet : inner.errors = [] := errors_nil bodyKept quiet
      have valueTracked := valueIh describes low
        (Nat.le_trans bodyKept.registers room) valueQuiet
      have bodyTracked := bodyIh
        (valueTracked.describes.push id valueTracked.stands)
        (Nat.le_trans low valueKept.registers) room quiet
      refine ⟨bodyTracked.stands, bodyTracked.describes.pop,
        .seq valueTracked.tidy bodyTracked.tidy, ?_⟩
      exact Code.spares_seq.trans
        (and_congr valueTracked.spares bodyTracked.spares)
  | letrecFunction range id lambdaRange lambdaId lambdaBody body valueIh
      bodyIh =>
      let inner := view.take.push id view.nextReg
      let function := emitLambdaImpl input lambdaId (emit input lambdaBody) id
        view.nextReg inner
      have functionKept := emitLambdaImpl_continues input
        (emit_continues input lambdaBody) lambdaId id view.nextReg inner
      have bodyKept := emit_continues input body function.view
      have registers := Nat.le_trans bodyKept.registers room
      have fresh := Stands.fresh low
        (Nat.lt_of_succ_le (Nat.le_trans functionKept.registers registers))
      have taken : base ≤ inner.registers := Nat.le_succ_of_le low
      have takenDescribes : held.Describes view.take base :=
        describes.congr rfl rfl
      have innerDescribes : (held.push id none).Describes inner base :=
        takenDescribes.push id fresh
      have functionTracked := emitLambdaImpl_tracked allocated innerDescribes
        taken input lambdaId id (emit input lambdaBody) fresh registers
      have bodyTracked := bodyIh functionTracked.describes
        (Nat.le_trans taken functionKept.registers) room quiet
      refine ⟨bodyTracked.stands, bodyTracked.describes.pop,
        .seq functionTracked.tidy bodyTracked.tidy, ?_⟩
      refine Code.spares_seq.trans ?_
      rw [functionTracked.spares, bodyTracked.spares]
      exact and_iff_right trivial
  | lambda range id body bodyIh =>
      have kept := emitLambdaImpl_continues input (emit_continues input body)
        id invalidSymbol view.nextReg view.take
      have fresh := Stands.fresh low
        (Nat.lt_of_succ_le (Nat.le_trans kept.registers room))
      have takenDescribes : held.Describes view.take base :=
        describes.congr rfl rfl
      exact emitLambdaImpl_tracked allocated takenDescribes
        (Nat.le_succ_of_le low) input id invalidSymbol _ fresh room
  | apply range function argument functionIh argumentIh =>
      have functionKept := emit_continues input function view
      have argumentKept := emit_continues input argument
        (emit input function view).view
      have taken := Nat.le_trans low functionKept.registers
      have inside := Nat.le_of_succ_le room
      have functionTracked := functionIh describes low
        (Nat.le_trans argumentKept.registers inside)
        (errors_nil argumentKept quiet)
      have argumentTracked := argumentIh functionTracked.describes taken inside
        quiet
      exact tracked_operands allocated functionTracked argumentTracked
        (Nat.le_trans taken argumentKept.registers) room
        ⟨trivial, by simp, rfl⟩
  | binary range operator left right leftIh rightIh =>
      have leftKept := emit_continues input left view
      have rightKept := emit_continues input right (emit input left view).view
      have taken := Nat.le_trans low leftKept.registers
      rcases emit_binary_quiet quiet with ⟨instruction, chosen, emitted⟩
      rw [emitted] at quiet room ⊢
      have inside := Nat.le_of_succ_le room
      have leftTracked := leftIh describes low
        (Nat.le_trans rightKept.registers inside)
        (errors_nil rightKept quiet)
      have rightTracked := rightIh leftTracked.describes taken inside quiet
      exact tracked_operands allocated leftTracked rightTracked
        (Nat.le_trans taken rightKept.registers) room
        (binaryInstruction_shape chosen)
  | unary range operator arg argIh =>
      have argKept := emit_continues input arg view
      rcases emit_unary_quiet quiet with ⟨instruction, chosen, emitted⟩
      rw [emitted] at quiet room ⊢
      have argTracked := argIh describes low (Nat.le_of_succ_le room) quiet
      have shape := unaryInstruction_shape chosen
      have fresh := Stands.fresh (Nat.le_trans low argKept.registers) room
      rcases tidy_fresh allocated shape.1 shape.2.1 shape.2.2 fresh with
        ⟨tidy, spares⟩
      refine ⟨fresh, argTracked.describes.congr rfl rfl,
        .seq argTracked.tidy tidy, ?_⟩
      exact Code.spares_seq.trans
        ((and_iff_left spares).trans argTracked.spares)
  | if_ range test thenArm elseArm testIh thenIh elseIh =>
      let tested := emit input test view
      let thenEmitted := emit input thenArm tested.view
      have testKept := emit_continues input test view
      have thenKept := emit_continues input thenArm tested.view
      have elseKept := emit_continues input elseArm thenEmitted.view
      have thenQuiet := errors_nil elseKept quiet
      have thenRoom := Nat.le_trans elseKept.registers room
      have afterTest := Nat.le_trans low testKept.registers
      have testTracked := testIh describes low
        (Nat.le_trans thenKept.registers thenRoom)
        (errors_nil thenKept thenQuiet)
      have thenTracked := thenIh testTracked.describes afterTest thenRoom
        thenQuiet
      have elseTracked := elseIh thenTracked.describes
        (Nat.le_trans afterTest thenKept.registers) room quiet
      exact tracked_if allocated testTracked thenTracked elseTracked
  | tuple range first rest length firstIh restIh =>
      let out := view.take.nextReg
      have kept := emitTupleMembers_continues (emit_continues input first) out
        length 0 view.take.take
      have taken : view.take.take.registers ≤ 256 :=
        Nat.le_trans kept.registers room
      have literal := emitLiteral_tracked allocated describes low
        (Nat.le_of_succ_le taken) (UInt64.ofNat length)
      have fresh : Stands base none view.take.nextReg :=
        Stands.fresh (Nat.le_succ_of_le low) taken
      rcases tidy_fresh (i := .newTuple view.nextReg out) allocated trivial
        (by simp) rfl fresh with ⟨newTidy, newSpares⟩
      have takenDescribes : held.Describes view.take.take base :=
        describes.congr rfl rfl
      have member : ∀ {view held}, held.Describes view base →
          base ≤ view.registers →
          (emit input first view).view.registers ≤ 256 →
          (emit input first view).view.errors = [] →
          (resultRegister first held).2.Describes (emit input first view).view
              base ∧
            (emit input first view).code.Tidy live ∧
            ((emit input first view).code.Spares live ↔
              Spares live first held) := by
        intro view held describes low room quiet
        have tracked := firstIh describes low room quiet
        exact ⟨tracked.describes, tracked.tidy, tracked.spares⟩
      rcases emitTupleMembers_tracked (emit_continues input first) member out
        length 0 takenDescribes (Nat.le_succ_of_le (Nat.le_succ_of_le low)) room
        quiet with ⟨after, tidy, spares⟩
      refine ⟨fresh, after, .seq literal.tidy (.seq newTidy tidy), ?_⟩
      refine Code.spares_seq.trans ?_
      rw [literal.spares, Code.spares_seq]
      exact ⟨fun all => spares.mp all.2.2,
        fun all => ⟨trivial, newSpares, spares.mpr all⟩⟩

end

end Millie.Compiler
