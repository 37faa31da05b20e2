import Millie.Pipeline.Execution

/-!
# Compiled code computes values

The code of an expression against its interpretation: where the interpretation
has a value, the code runs to its end and leaves a word for it in its result
register, without disturbing the live registers; where the interpretation runs
out of depth, the code runs out of fuel.
-/

namespace Millie.Pipeline

open Millie.Symbols Millie.Syntax Millie.Machine Millie.Compiler

/-! ## Simulation -/

/-- What running code leaves when it has computed a value. -/
structure Leaves (input : CompileInput) (functions : List Function)
    (live : List UInt8) (reg : UInt8) (before after : Contents)
    (value : Value) : Prop where
  length : after.registers.length = before.registers.length
  memory : before.memory <+: after.memory
  kept : ∀ other ∈ live,
    readReg after.registers other = readReg before.registers other
  result : ∃ word, readReg after.registers reg = .ok word ∧
    Represents input functions after.memory word value

/-- Code does what an interpretation with a bounded depth says. -/
def Simulates (input : CompileInput) (module : Module)
    (functions : List Function) (bound : Nat) (code : Code)
    (live : List UInt8) (reg : UInt8) (before : Contents) :
    Except Stop Value → Prop
  | .ok value => ∃ after, Runs module code before after ∧
      Leaves input functions live reg before after value
  | .error .outOfFuel => Stalls module bound code before
  | .error .undefinedBehaviour => True
  | .error .failed => False

/-- A call does what its interpretation says. -/
def CallSimulates (input : CompileInput) (module : Module)
    (functions : List Function) (bound : Nat) (memory : Memory)
    (function argument : Word) : Except Stop Value → Prop
  | .ok value => ∃ callee entry retval larger,
      calledFunction module memory function = .ok callee ∧
        enterFrame callee function argument = .ok entry ∧
        Evaluates module callee ⟨entry, 0, memory⟩ (retval, larger) ∧
        memory <+: larger ∧ Represents input functions larger retval value
  | .error .outOfFuel => ∃ callee entry,
      calledFunction module memory function = .ok callee ∧
        enterFrame callee function argument = .ok entry ∧
        Exhausts module callee ⟨entry, 0, memory⟩ bound
  | .error .undefinedBehaviour => True
  | .error .failed => False

/-- Every call does what an interpretation of calls says. -/
def Called (input : CompileInput) (module : Module)
    (functions : List Function) (bound : Nat)
    (call : Value → Value → Except Stop Value) : Prop :=
  ∀ {memory function argument functionWord argumentWord},
    Represents input functions memory functionWord function →
    Represents input functions memory argumentWord argument →
    CallSimulates input module functions bound memory functionWord argumentWord
      (call function argument)

section

variable {input : CompileInput} {module : Module} {functions : List Function}
  {bound : Nat} {live : List UInt8} {reg : UInt8}
  {before middle after : Contents}

theorem Leaves.trans {firstLive : List UInt8} {firstReg : UInt8}
    {first value : Value}
    (left : Leaves input functions firstLive firstReg before middle first)
    (right : Leaves input functions live reg middle after value)
    (subset : live ⊆ firstLive) :
    Leaves input functions live reg before after value where
  length := right.length.trans left.length
  memory := left.memory.trans right.memory
  kept other member :=
    (right.kept other member).trans (left.kept other (subset member))
  result := right.result

/-- What `Agree` keeps, whatever is below its bound. -/
theorem Leaves.of_agree {value : Value} {word : Word} {base : Nat}
    (agree : Agree base before after) (taken : ∀ r ∈ live, r.toNat < base)
    (grows : before.memory <+: after.memory)
    (read : readReg after.registers reg = .ok word)
    (represents : Represents input functions after.memory word value) :
    Leaves input functions live reg before after value :=
  ⟨agree.length, grows, fun other member =>
    agree.kept other (taken other member), word, read, represents⟩

/-- A value on which the rest of the code depends. -/
theorem Simulates.seq {first second : Code} {firstLive : List UInt8}
    {firstReg : UInt8} {result : Except Stop Value}
    {next : Value → Except Stop Value}
    (simulates : Simulates input module functions bound first firstLive
      firstReg before result) (subset : live ⊆ firstLive)
    (goesOn : ∀ value middle,
      Leaves input functions firstLive firstReg before middle value →
      Simulates input module functions bound second live reg middle
        (next value)) :
    Simulates input module functions bound (.seq first second) live reg before
      (result >>= next) := by
  cases result with
  | ok value =>
      rcases simulates with ⟨middle, runs, leaves⟩
      have rest := goesOn value middle leaves
      change Simulates input module functions bound (.seq first second) live
        reg before (next value)
      cases last : next value with
      | ok result =>
          rw [last] at rest
          rcases rest with ⟨after, runsOn, leavesOn⟩
          exact ⟨after, .seq runs runsOn, leaves.trans leavesOn subset⟩
      | error stop =>
          rw [last] at rest
          cases stop with
          | outOfFuel => exact Stalls.second runs rest
          | undefinedBehaviour => exact trivial
          | failed => exact rest.elim
  | error stop =>
      cases stop with
      | outOfFuel => exact Stalls.first simulates
      | undefinedBehaviour => exact trivial
      | failed => exact simulates.elim

/-! ## Instructions -/

theorem Represents.of_int {memory : Memory} {word : Word} {value : UInt64}
    (represents : Represents input functions memory word (.int value)) :
    word = .int value := by
  cases represents
  rfl

theorem Represents.of_bool {memory : Memory} {word : Word} {value : Bool}
    (represents : Represents input functions memory word (.bool value)) :
    word = .int (if value then 1 else 0) := by
  cases represents
  rfl

/-- An instruction that writes a value into a register that is not live. -/
theorem simulates_write {i : Instruction} {word : Word} {value : Value}
    (plain : i.Plain)
    (performed : ∀ ip, perform module i (before.frame ip) =
      (writeReg before.registers reg word >>= fun registers =>
        .ok ⟨registers, ip, before.memory⟩))
    (inside : reg.toNat < before.registers.length) (fresh : reg ∉ live)
    (represents : Represents input functions before.memory word value) :
    Simulates input module functions bound (.instruction i) live reg before
      (.ok value) := by
  rcases writeReg_ok word inside with ⟨registers, writes⟩
  refine ⟨⟨registers, before.memory⟩, .perform plain fun ip => ?_,
    writeReg_length writes, List.prefix_rfl, fun other member => ?_,
    word, readReg_written writes, represents⟩
  · rw [performed, writes]
    rfl
  · have differ : other ≠ reg := fun same => fresh (same ▸ member)
    exact (readReg_writeReg writes other).trans (if_neg differ)

section

variable {leftReg rightReg argReg : UInt8} {i : Instruction}
  {left right arg : Value} {leftWord rightWord word : Word}

theorem simulates_onInts {operation : UInt64 → UInt64 → UInt64}
    (plain : i.Plain)
    (performed : ∀ frame, perform module i frame =
      arithmetic operation leftReg rightReg reg frame)
    (leftRead : readReg before.registers leftReg = .ok leftWord)
    (leftStands : Represents input functions before.memory leftWord left)
    (rightRead : readReg before.registers rightReg = .ok rightWord)
    (rightStands : Represents input functions before.memory rightWord right)
    (inside : reg.toNat < before.registers.length) (fresh : reg ∉ live) :
    Simulates input module functions bound (.instruction i) live reg before
      (onInts operation left right) := by
  unfold onInts
  split
  · cases leftStands.of_int
    cases rightStands.of_int
    refine simulates_write plain (fun ip => ?_) inside fresh (.int _)
    simp only [performed, arithmetic, Contents.frame, leftRead, rightRead,
      Stop.ok_bind, Word.toInt]
    rfl
  · exact trivial

theorem simulates_compareValues
    (leftRead : readReg before.registers leftReg = .ok leftWord)
    (leftStands : Represents input functions before.memory leftWord left)
    (rightRead : readReg before.registers rightReg = .ok rightWord)
    (rightStands : Represents input functions before.memory rightWord right)
    (inside : reg.toNat < before.registers.length) (fresh : reg ∉ live) :
    Simulates input module functions bound
      (.instruction (.eq leftReg rightReg reg)) live reg before
      (compareValues left right) := by
  unfold compareValues
  split
  · rename_i left right
    cases leftStands.of_int
    cases rightStands.of_int
    refine simulates_write trivial (fun ip => ?_) inside fresh
      (.bool (left == right))
    simp only [perform, Contents.frame, leftRead, rightRead, Stop.ok_bind,
      wordsEqual]
    rfl
  · rename_i left right
    cases leftStands.of_bool
    cases rightStands.of_bool
    refine simulates_write trivial (fun ip => ?_) inside fresh
      (.bool (left == right))
    simp only [perform, Contents.frame, leftRead, rightRead, Stop.ok_bind,
      wordsEqual]
    cases left <;> cases right <;> rfl
  · exact trivial

theorem simulates_operate {operator : TokenType}
    (chosen : binaryInstruction operator leftReg rightReg reg = some i)
    (leftRead : readReg before.registers leftReg = .ok leftWord)
    (leftStands : Represents input functions before.memory leftWord left)
    (rightRead : readReg before.registers rightReg = .ok rightWord)
    (rightStands : Represents input functions before.memory rightWord right)
    (inside : reg.toNat < before.registers.length) (fresh : reg ∉ live) :
    Simulates input module functions bound (.instruction i) live reg before
      (operate operator left right) := by
  cases operator with
  | tokPlus | tokMinus | tokStar =>
      cases chosen
      exact simulates_onInts trivial (fun frame => rfl) leftRead leftStands
        rightRead rightStands inside fresh
  | tokEquals =>
      cases chosen
      exact simulates_compareValues leftRead leftStands rightRead rightStands
        inside fresh
  | _ => cases chosen

theorem simulates_negate {operator : TokenType}
    (chosen : unaryInstruction operator argReg reg = some i)
    (read : readReg before.registers argReg = .ok word)
    (stands : Represents input functions before.memory word arg)
    (inside : reg.toNat < before.registers.length) (fresh : reg ∉ live) :
    Simulates input module functions bound (.instruction i) live reg before
      (negate operator arg) := by
  cases operator with
  | tokMinus =>
      cases chosen
      cases arg with
      | int arg =>
          cases stands.of_int
          refine simulates_write trivial (fun ip => ?_) inside fresh (.int _)
          simp only [perform, Contents.frame, read, Stop.ok_bind, Word.toInt]
          rfl
      | _ => exact trivial
  | _ => cases chosen

end

theorem simulates_call {call : Value → Value → Except Stop Value}
    (called : Called input module functions bound call)
    {functionReg argumentReg : UInt8} {function argument : Value}
    {functionWord argumentWord : Word}
    (functionRead : readReg before.registers functionReg = .ok functionWord)
    (functionStands : Represents input functions before.memory functionWord
      function)
    (argumentRead : readReg before.registers argumentReg = .ok argumentWord)
    (argumentStands : Represents input functions before.memory argumentWord
      argument)
    (inside : reg.toNat < before.registers.length) (fresh : reg ∉ live) :
    Simulates input module functions bound
      (.instruction (.call functionReg argumentReg reg)) live reg before
      (call function argument) := by
  have simulates := called functionStands argumentStands
  cases result : call function argument with
  | ok value =>
      rw [result] at simulates
      rcases simulates with ⟨callee, entry, retval, larger, calleeIs, entered,
        evaluates, grows, represents⟩
      rcases writeReg_ok retval inside with ⟨registers, writes⟩
      have calls : Calls module (before.frame 0) functionReg argumentReg callee
          entry :=
        ⟨functionWord, argumentWord, functionRead, calleeIs, argumentRead,
          entered⟩
      refine ⟨⟨registers, larger⟩, .call calls evaluates writes,
        writeReg_length writes, grows, fun other member => ?_, retval,
        readReg_written writes, represents⟩
      have differ : other ≠ reg := fun same => fresh (same ▸ member)
      exact (readReg_writeReg writes other).trans (if_neg differ)
  | error stop =>
      rw [result] at simulates
      cases stop with
      | outOfFuel =>
          rcases simulates with ⟨callee, entry, calleeIs, entered, exhausts⟩
          have calls : Calls module (before.frame 0) functionReg argumentReg
              callee entry :=
            ⟨functionWord, argumentWord, functionRead, calleeIs, argumentRead,
              entered⟩
          exact Stalls.call calls exhausts
      | undefinedBehaviour => exact trivial
      | failed => exact simulates.elim

/-! ## Branches -/

/-- The move at the end of an else arm. -/
theorem Simulates.move {code : Code} {elseReg thenReg : UInt8}
    {result : Except Stop Value}
    (simulates : Simulates input module functions bound code live elseReg
      before result)
    (inside : thenReg.toNat < before.registers.length)
    (spared : thenReg ∈ live → elseReg = thenReg) :
    Simulates input module functions bound
      (.seq code (moveResult elseReg thenReg)) live thenReg before result := by
  have whole : (result >>= Except.ok) = result := by cases result <;> rfl
  rw [← whole]
  refine simulates.seq (List.Subset.refl live) fun value middle leaves => ?_
  rcases leaves.result with ⟨word, read, represents⟩
  unfold moveResult
  by_cases moves : elseReg ≠ thenReg
  · rw [if_pos moves]
    refine simulates_write trivial (fun ip => ?_) (leaves.length ▸ inside)
      (fun member => moves (spared member)) represents
    simp only [perform, Contents.frame, read, Stop.ok_bind]
    rfl
  · rw [if_neg moves]
    rw [not_not.mp moves] at read
    exact ⟨middle, .empty middle, rfl, List.prefix_rfl, fun _ _ => rfl, word,
      read, represents⟩

/-- The arms of an `if`, after its test. -/
theorem Simulates.branch {testReg : UInt8} {thenCode elseCode : Code}
    {test : Value} {word : Word} {thenResult elseResult : Except Stop Value}
    (read : readReg before.registers testReg = .ok word)
    (stands : Represents input functions before.memory word test)
    (thenArm : Simulates input module functions bound thenCode live reg before
      thenResult)
    (elseArm : Simulates input module functions bound elseCode live reg before
      elseResult) :
    Simulates input module functions bound
      (.branch testReg thenCode elseCode) live reg before
      (choose test thenResult elseResult) := by
  cases test with
  | bool test =>
      cases stands.of_bool
      cases test with
      | true =>
          have goes : readReg before.registers testReg >>= isZero =
              .ok false := by
            rw [read]
            rfl
          change Simulates input module functions bound _ live reg before
            thenResult
          cases thenResult with
          | ok value =>
              rcases thenArm with ⟨after, runs, leaves⟩
              exact ⟨after, .taken goes runs, leaves⟩
          | error stop =>
              cases stop with
              | outOfFuel => exact Stalls.taken goes thenArm
              | undefinedBehaviour => exact trivial
              | failed => exact thenArm.elim
      | false =>
          have goes : readReg before.registers testReg >>= isZero =
              .ok true := by
            rw [read]
            rfl
          change Simulates input module functions bound _ live reg before
            elseResult
          cases elseResult with
          | ok value =>
              rcases elseArm with ⟨after, runs, leaves⟩
              exact ⟨after, .skipped goes runs, leaves⟩
          | error stop =>
              cases stop with
              | outOfFuel => exact Stalls.skipped goes elseArm
              | undefinedBehaviour => exact trivial
              | failed => exact elseArm.elim
  | _ => exact trivial

/-! ## Expressions -/

section

variable {closure : List Symbol} {view : View} {scope : Scope}
  {env : Environment}

/-- Symbols that a binding does not hide are found as before. -/
theorem Framed.rebind {symbols : List Symbol} {id : Symbol} {other : UInt8}
    (framed : Framed input module functions closure scope env symbols before)
    (differ : ∀ symbol ∈ symbols, symbol ≠ id) :
    Framed input module functions closure (scope.bind id other) env symbols
      before := by
  intro symbol member
  rcases framed symbol member with ⟨value, word, found, reads, represents⟩
  refine ⟨value, word, found, ?_, represents⟩
  unfold Reads at reads ⊢
  rw [register_bind, if_neg (differ symbol member)]
  exact reads

theorem simulates_literal {value : UInt64} {result : Value}
    (room : view.registers < before.registers.length)
    (small : before.registers.length ≤ 256)
    (taken : ∀ r ∈ live, r.toNat < view.registers)
    (represents : Represents input functions before.memory (.int value)
      result) :
    Simulates input module functions bound (emitLiteral value view).code live
      (emitLiteral value view).reg before (.ok result) := by
  have next := nextReg_toNat (Nat.lt_of_lt_of_le room small)
  rcases runs_literal module view.nextReg value (next.symm ▸ room) with
    ⟨registers, writes, runs⟩
  exact ⟨⟨registers, before.memory⟩, runs,
    .of_agree (.write writes (Nat.le_of_eq next.symm)) taken List.prefix_rfl
      (readReg_written writes) represents⟩

/-- The code of a function's creation, as a simulation. -/
theorem simulates_lambda (selfId : Option Symbol) {lambdaId : Symbol}
    {body : Expression}
    (linked : Linked input module functions)
    (named : selfId ≠ some invalidSymbol)
    (enclosed : Enclosed input functions lambdaId (selfSymbol selfId) body view
      scope)
    (creating : Creating input closure before.registers.length lambdaId
      (selfSymbol selfId) body reg view scope)
    (small : before.registers.length ≤ 256) (few : closure.length ≤ 16)
    (taken : ∀ r ∈ live, r.toNat < reg.toNat)
    (framed : Framed input module functions closure scope env
      ((lambdaFunction input lambdaId (selfSymbol selfId) body view
        scope).closure input) before) :
    Simulates input module functions bound
      (emitLambdaImpl input lambdaId (emit input body) (selfSymbol selfId) reg
        view).code live reg before
      (.ok (.closure env selfId lambdaId body)) := by
  rcases runs_lambda linked named enclosed creating small few framed with
    ⟨after, word, runs, agree, grows, read, represents⟩
  exact ⟨after, runs, .of_agree agree taken grows read represents⟩

/-- The register that is taken next is not live. -/
theorem nextReg_fresh (room : view.registers < 256)
    (taken : ∀ r ∈ live, r.toNat < view.registers) : view.nextReg ∉ live := by
  intro member
  have below := taken _ member
  rw [nextReg_toNat room] at below
  exact absurd below (Nat.lt_irrefl _)

/-- Two operands and what an instruction makes of them. -/
theorem simulates_operands {first second : Expression} {i : Instruction}
    {firstResult secondResult : Except Stop Value}
    {next : Value → Value → Except Stop Value} {symbols : List Symbol}
    (firstSimulates : Simulates input module functions bound
      (emit input first view).code (live ++ heldIn scope symbols)
      (emit input first view).reg before firstResult)
    (secondSimulates : ∀ middle,
      middle.registers.length = before.registers.length →
      Framed input module functions closure scope env symbols middle →
      Simulates input module functions bound
        (emit input second (emit input first view).view).code
        ((emit input first view).reg :: live)
        (emit input second (emit input first view).view).reg middle
        secondResult)
    (framed : Framed input module functions closure scope env symbols before)
    (instruction : ∀ {firstValue secondValue firstWord secondWord after},
      after.registers.length = before.registers.length →
      readReg after.registers (emit input first view).reg = .ok firstWord →
      Represents input functions after.memory firstWord firstValue →
      readReg after.registers
        (emit input second (emit input first view).view).reg =
          .ok secondWord →
      Represents input functions after.memory secondWord secondValue →
      Simulates input module functions bound (.instruction i) live reg after
        (next firstValue secondValue)) :
    Simulates input module functions bound
      (.seq (emit input first view).code
        (.seq (emit input second (emit input first view).view).code
          (.instruction i))) live reg before
      (firstResult >>= fun firstValue =>
        secondResult >>= fun secondValue => next firstValue secondValue) := by
  refine firstSimulates.seq (List.subset_append_left _ _)
    fun firstValue middle firstLeaves => ?_
  have middleFramed := framed.keep (fun other member =>
    firstLeaves.kept other (List.mem_append_right _ member))
    firstLeaves.memory
  refine (secondSimulates middle firstLeaves.length middleFramed).seq
    (List.subset_cons_self _ _) fun secondValue after secondLeaves => ?_
  rcases firstLeaves.result with ⟨firstWord, firstRead, firstStands⟩
  rcases secondLeaves.result with ⟨secondWord, secondRead, secondStands⟩
  exact instruction (secondLeaves.length.trans firstLeaves.length)
    ((secondLeaves.kept _ (List.mem_cons_self ..)).trans firstRead)
    (firstStands.grow secondLeaves.memory) secondRead secondStands

/-- The code of an expression does what its interpretation says. -/
theorem emit_simulates (linked : Linked input module functions)
    {call : Value → Value → Except Stop Value}
    (called : Called input module functions bound call)
    (few : closure.length ≤ 16) {size : Nat} (small : size ≤ 256)
    (expression : Expression)
    (visited : Visited input functions expression view scope)
    (fits : Fitting input closure size expression live view scope)
    (framed : Framed input module functions closure scope env
      (compiledSymbols expression) before)
    (sized : before.registers.length = size) :
    Simulates input module functions bound (emit input expression view).code
      live (emit input expression view).reg before
      (interpretWith call expression env) := by
  induction expression using Expression.functionInduction
    generalizing live view scope env before with
  | error | invalid | tuple | tupleFinal => exact visited.plain.elim
  | letrecOther range id value body notLambda valueIh bodyIh =>
      exact absurd visited.plain (plain_letrec_other notLambda range id body)
  | integerConstant range literalValue =>
      exact simulates_literal (sized ▸ fits.room) (sized ▸ small) fits.taken
        (.int literalValue)
  | true_ range =>
      exact simulates_literal (sized ▸ fits.room) (sized ▸ small) fits.taken
        (.bool true)
  | false_ range =>
      exact simulates_literal (sized ▸ fits.room) (sized ▸ small) fits.taken
        (.bool false)
  | identifier range id =>
      rcases framed id (List.mem_singleton_self id) with
        ⟨value, word, found, reads, represents⟩
      rcases runs_identifier visited.tracks
        (visited.bound id (List.mem_singleton_self id))
        (visited.clear _ (List.mem_singleton_self _)) fits.kept few
        (sized ▸ fits.room) (sized ▸ small) reads with
        ⟨registers, runs, agree, read⟩
      rw [interpretWith, valueOf, found]
      exact ⟨⟨registers, before.memory⟩, runs,
        .of_agree agree fits.taken List.prefix_rfl read represents⟩
  | let_ range id value body valueIh bodyIh =>
      rcases visited.let_ with ⟨valueVisited, bodyVisited⟩
      rcases fits.let_ visited with ⟨valueFits, bodyFits⟩
      have valueFramed := framed.mono (List.subset_append_left _ _)
      refine (valueIh valueVisited valueFits valueFramed sized).seq
        (List.subset_append_left _ _) fun bound middle leaves => ?_
      rcases leaves.result with ⟨word, read, represents⟩
      have others := (framed.mono (List.subset_append_right _ _)).keep
        (fun other member => leaves.kept other
          (List.mem_append_right _ member)) leaves.memory
      exact bodyIh bodyVisited bodyFits (others.bind read represents)
        (leaves.length.trans sized)
  | letrecFunction range id lambdaRange lambdaId lambdaBody body lambdaIh
      bodyIh =>
      rcases visited.letrec with ⟨enclosed, bodyVisited⟩
      rcases fits.letrec visited small with ⟨creating, bodyFits⟩
      have named : some id ≠ some invalidSymbol := fun same =>
        visited.plain.1 (Option.some.inj same)
      have next : view.nextReg.toNat = view.registers :=
        Nat.succ.inj creating.next
      have inScope : ∀ symbol ∈ compiledSymbols
          (.letrec range id (.lambda lambdaRange lambdaId lambdaBody) body),
          symbol ≠ id := by
        intro symbol member
        simpa using (List.mem_filter.mp member).2
      have captured : (lambdaFunction input lambdaId id lambdaBody
          (view.take.push id view.nextReg) (scope.bind id
            view.nextReg)).closure input ⊆ compiledSymbols
          (.letrec range id (.lambda lambdaRange lambdaId lambdaBody) body) := by
        intro symbol member
        have inside := enclosed.mem_closure_iff.mp member
        rcases (mem_functionSymbols.mp inside).2.2 with unnamed | notSelf
        · exact absurd unnamed visited.plain.1
        · exact List.mem_filter.mpr
            ⟨List.mem_append_left _ inside, by simpa using notSelf⟩
      have creates : Simulates input module functions bound
          (emitLambdaImpl input lambdaId (emit input lambdaBody) id
            view.nextReg (view.take.push id view.nextReg)).code
          (live ++ heldIn scope
            ((compiledSymbols body).filter (· ≠ id))) view.nextReg before
          (.ok (.closure env (some id) lambdaId lambdaBody)) := by
        refine simulates_lambda (some id) linked named enclosed
          (sized ▸ creating) (sized ▸ small) few ?_
          ((framed.mono captured).rebind fun symbol member =>
            inScope symbol (captured member))
        rw [next]
        refine List.forall_mem_append.mpr ⟨fits.taken,
          heldIn_taken visited.tracks fits.held fits.pointer ?_⟩
        intro symbol member
        rcases List.mem_filter.mp member with ⟨inBody, other⟩
        exact visited.bound symbol
          (List.mem_filter.mpr ⟨List.mem_append_right _ inBody, other⟩)
      change Simulates input module functions bound _ live _ before
        (Except.ok (Value.closure env (some id) lambdaId lambdaBody) >>=
          fun function => interpretWith call body ((id, function) :: env))
      refine creates.seq (List.subset_append_left _ _)
        fun function middle leaves => ?_
      rcases leaves.result with ⟨word, read, represents⟩
      have inBody : (compiledSymbols body).filter (· ≠ id) ⊆ compiledSymbols
          (.letrec range id (.lambda lambdaRange lambdaId lambdaBody)
            body) := by
        intro symbol member
        rcases List.mem_filter.mp member with ⟨inside, other⟩
        exact List.mem_filter.mpr ⟨List.mem_append_right _ inside, other⟩
      have others := (framed.mono inBody).keep
        (fun other member => leaves.kept other
          (List.mem_append_right _ member)) leaves.memory
      exact bodyIh bodyVisited bodyFits (others.bind read represents)
        (leaves.length.trans sized)
  | lambda range id body bodyIh =>
      have enclosed := visited.lambda
      have creating := fits.lambda visited small
      have next : view.nextReg.toNat = view.registers :=
        Nat.succ.inj creating.next
      refine simulates_lambda none linked (Option.some_ne_none _).symm enclosed
        (sized ▸ creating) (sized ▸ small) few (next.symm ▸ fits.taken)
        (framed.mono fun symbol member => ?_)
      exact enclosed.mem_closure_iff.mp member
  | apply range function argument functionIh argumentIh =>
      rcases visited.apply with ⟨functionVisited, argumentVisited⟩
      rcases fits.apply visited with ⟨functionFits, argumentFits⟩
      let last := (emit input argument (emit input function view).view).view
      have room : last.registers < size := fits.room
      have next := nextReg_toNat (Nat.lt_of_lt_of_le room small)
      have fresh : last.nextReg ∉ live :=
        nextReg_fresh (Nat.lt_of_lt_of_le room small) fun r member =>
          Nat.lt_of_lt_of_le (argumentFits.taken r
            (List.mem_cons_of_mem _ member))
            (emit_continues input argument _).registers
      refine simulates_operands
        (functionIh functionVisited functionFits
          (framed.mono (List.subset_append_left _ _)) sized)
        (fun middle length middleFramed => argumentIh argumentVisited
          argumentFits middleFramed (length.trans sized))
        (framed.mono (List.subset_append_right _ _)) ?_
      intro functionValue argumentValue functionWord argumentWord after length
        functionRead functionStands argumentRead argumentStands
      refine simulates_call called functionRead functionStands argumentRead
        argumentStands ?_ fresh
      change last.nextReg.toNat < _
      rw [next, length, sized]
      exact room
  | binary range operator left right leftIh rightIh =>
      rcases visited.binary with ⟨leftVisited, rightVisited⟩
      rcases fits.binary visited with ⟨leftFits, rightFits⟩
      rcases emit_binary_quiet visited.quiet with ⟨i, chosen, whole⟩
      let last := (emit input right (emit input left view).view).view
      have room : last.registers < size := by
        have room := fits.room
        rw [whole] at room
        exact room
      have next := nextReg_toNat (Nat.lt_of_lt_of_le room small)
      have fresh : last.nextReg ∉ live :=
        nextReg_fresh (Nat.lt_of_lt_of_le room small) fun r member =>
          Nat.lt_of_lt_of_le (rightFits.taken r
            (List.mem_cons_of_mem _ member))
            (emit_continues input right _).registers
      rw [whole]
      refine simulates_operands
        (leftIh leftVisited leftFits
          (framed.mono (List.subset_append_left _ _)) sized)
        (fun middle length middleFramed => rightIh rightVisited rightFits
          middleFramed (length.trans sized))
        (framed.mono (List.subset_append_right _ _)) ?_
      intro leftValue rightValue leftWord rightWord after length leftRead
        leftStands rightRead rightStands
      refine simulates_operate chosen leftRead leftStands rightRead rightStands
        ?_ fresh
      change last.nextReg.toNat < _
      rw [next, length, sized]
      exact room
  | unary range operator arg argIh =>
      have argVisited := visited.unary
      have argFits := fits.unary visited
      rcases emit_unary_quiet visited.quiet with ⟨i, chosen, whole⟩
      have room : (emit input arg view).view.registers < size := by
        have room := fits.room
        rw [whole] at room
        exact room
      have next := nextReg_toNat (Nat.lt_of_lt_of_le room small)
      have fresh : (emit input arg view).view.nextReg ∉ live :=
        nextReg_fresh (Nat.lt_of_lt_of_le room small) fun r member =>
          Nat.lt_of_lt_of_le (fits.taken r member)
            (emit_continues input arg view).registers
      rw [whole]
      refine (argIh argVisited argFits framed sized).seq
        (List.Subset.refl live) fun argValue middle leaves => ?_
      rcases leaves.result with ⟨word, read, represents⟩
      refine simulates_negate chosen read represents ?_ fresh
      change (emit input arg view).view.nextReg.toNat < _
      rw [next, leaves.length, sized]
      exact room
  | if_ range test thenArm elseArm testIh thenIh elseIh =>
      rcases visited.if_ with ⟨testVisited, thenVisited, elseVisited⟩
      rcases fits.if_ visited with ⟨testFits, thenFits, elseFits⟩
      have testSymbols : compiledSymbols test ⊆
          compiledSymbols (.if_ range test thenArm elseArm) :=
        List.subset_append_of_subset_left _ (List.subset_append_left _ _)
      have armSymbols : compiledSymbols thenArm ++ compiledSymbols elseArm ⊆
          compiledSymbols (.if_ range test thenArm elseArm) := by
        rw [compiledSymbols, List.append_assoc]
        exact List.subset_append_right _ _
      refine (testIh testVisited testFits (framed.mono testSymbols) sized).seq
        (List.subset_append_left _ _) fun testValue middle leaves => ?_
      rcases leaves.result with ⟨word, read, represents⟩
      have arms := (framed.mono armSymbols).keep
        (fun other member => leaves.kept other
          (List.mem_append_right _ member)) leaves.memory
      have length := leaves.length.trans sized
      refine .branch read represents
        (thenIh thenVisited thenFits
          (arms.mono (List.subset_append_left _ _)) length)
        ((elseIh elseVisited elseFits
          (arms.mono (List.subset_append_right _ _)) length).move ?_
          fits.spared.2.2.2)
      rw [length]
      exact Nat.lt_of_lt_of_le (emit_reg_lt thenVisited thenFits.held)
        thenFits.room

end

end

end Millie.Pipeline
