import Millie.Compiler.Frames
import Millie.Compiler.FunctionTable
import Millie.Compiler.Functions

/-!
# Decoding compiled code

Reading a function's code linearly from its first byte, as the virtual machine
reads operands, yields the instructions that were emitted for it and a return at
the end.  This holds of every function; a module loses functions when its table
moves, so it holds of every entry of a module with at most ten functions.
-/

namespace Millie.Compiler

open Millie.Symbols Millie.Syntax Millie.Machine

/-! ## Plain code -/

/-- Code of known instructions, none of them a return. -/
def Code.Plain (code : Code) : Prop :=
  code.Clean ∧ ∀ i ∈ code.instructions, i ≠ .ret

namespace Code.Plain

theorem empty : Code.Plain .empty :=
  ⟨trivial, nofun⟩

theorem instruction {i : Instruction} (known : Known i) (goesOn : i ≠ .ret) :
    Code.Plain (.instruction i) :=
  ⟨known, fun _ member => List.mem_singleton.mp member ▸ goesOn⟩

theorem seq {first second : Code} (firstPlain : first.Plain)
    (secondPlain : second.Plain) : Code.Plain (.seq first second) := by
  refine ⟨⟨firstPlain.1, secondPlain.1⟩, fun i member => ?_⟩
  rcases List.mem_append.mp member with inFirst | inSecond
  · exact firstPlain.2 i inFirst
  · exact secondPlain.2 i inSecond

theorem branch {thenCode elseCode : Code} (thenPlain : thenCode.Plain)
    (elsePlain : elseCode.Plain) (testReg : UInt8) :
    Code.Plain (.branch testReg thenCode elseCode) := by
  refine ⟨⟨thenPlain.1, elsePlain.1⟩, fun i member => ?_⟩
  rcases List.mem_cons.mp member with jz | member
  · subst jz
    exact nofun
  rcases List.mem_append.mp member with inThen | member
  · exact thenPlain.2 i inThen
  rcases List.mem_cons.mp member with jmp | inElse
  · subst jmp
    exact nofun
  · exact elsePlain.2 i inElse

theorem literal (value : UInt64) (reg : UInt8) :
    Code.Plain (.instruction (literalInstruction value reg)) := by
  unfold literalInstruction
  split
  · exact .instruction nofun nofun
  split
  · exact .instruction nofun nofun
  split
  · exact .instruction nofun nofun
  · exact .instruction nofun nofun

theorem identifier (id : Symbol) (view : View) :
    (emitIdentifier id view).code.Plain := by
  cases found : View.search view.bindings id view.top with
  | some reg =>
      rw [emitIdentifier_bound found]
      exact .empty
  | none =>
      rw [emitIdentifier_closed found]
      exact .instruction nofun nofun

theorem closedValues (closureRegister : UInt8) (symbols : List Symbol)
    (i : Nat) (view : View) :
    (emitClosedValues closureRegister i symbols view).1.Plain := by
  induction symbols generalizing i view with
  | nil => exact .empty
  | cons symbol symbols ih =>
      exact (identifier symbol view).seq
        (.seq (.instruction nofun nofun) (ih (i + 1) _))

theorem moveResult (elseReg thenReg : UInt8) :
    (moveResult elseReg thenReg).Plain := by
  unfold Compiler.moveResult
  split
  · exact .instruction nofun nofun
  · exact .empty

end Code.Plain

/-- An expression without an error has plain code. -/
def EmitsPlain (input : CompileInput) (expression : Expression) : Prop :=
  ∀ view, (emit input expression view).view.errors = [] →
    (emit input expression view).code.Plain

section

variable {input : CompileInput}

theorem emitLambdaImpl_plain (lambdaId selfId : Symbol)
    (body : View → Emission) (closureRegister : UInt8) (view : View) :
    (emitLambdaImpl input lambdaId body selfId closureRegister
      view).code.Plain :=
  (Code.Plain.literal _ _).seq
    (.seq (.instruction nofun nofun) (.closedValues closureRegister _ 0 _))

theorem emitTupleMembers_plain {first : Expression}
    (firstPlain : EmitsPlain input first) (outReg : UInt8)
    (count i : Nat) (view : View)
    (quiet : (emitTupleMembers (emit input first) outReg i count
      view).2.errors = []) :
    (emitTupleMembers (emit input first) outReg i count view).1.Plain := by
  induction count generalizing i view with
  | zero => exact .empty
  | succ count ih =>
      have later := emitTupleMembers_continues (emit_continues input first)
        outReg count (i + 1) (emit input first view).view
      have member := firstPlain view (errors_nil later quiet)
      exact member.seq (.seq (.instruction nofun nofun) (ih (i + 1) _ quiet))

theorem binaryInstruction_goesOn {operator : TokenType}
    {left right out : UInt8} {instruction : Instruction}
    (chosen : binaryInstruction operator left right out = some instruction) :
    instruction ≠ .ret := by
  rintro rfl
  cases binaryInstruction_registers chosen

theorem unaryInstruction_goesOn {operator : TokenType} {arg out : UInt8}
    {instruction : Instruction}
    (chosen : unaryInstruction operator arg out = some instruction) :
    instruction ≠ .ret := by
  rintro rfl
  cases unaryInstruction_registers chosen

theorem emit_plain (input : CompileInput) (expression : Expression) :
    EmitsPlain input expression := by
  intro view quiet
  induction expression using Expression.functionInduction
    generalizing view with
  | integerConstant range literalValue => exact .literal _ _
  | true_ range => exact .literal _ _
  | false_ range => exact .literal _ _
  | error range => exact .empty
  | invalid range => simp [emit, View.report] at quiet
  | tupleFinal range first firstIh => simp [emit, View.report] at quiet
  | identifier range id => exact .identifier id view
  | let_ range id value body valueIh bodyIh =>
      let emitted := emit input value view
      have bodyKept := emit_continues input body
        (emitted.view.push id emitted.reg)
      exact (valueIh view (errors_nil bodyKept.scope quiet)).seq
        (bodyIh _ quiet)
  | letrecFunction range id lambdaRange lambdaId lambdaBody body valueIh
      bodyIh =>
      exact (emitLambdaImpl_plain lambdaId id _ view.nextReg _).seq
        (bodyIh _ quiet)
  | letrecOther range id value body notLambda valueIh bodyIh =>
      rw [emit_letrec_other notLambda] at quiet
      simp [emitLetRec, View.report] at quiet
  | lambda range id body bodyIh => exact emitLambdaImpl_plain _ _ _ _ _
  | apply range function argument functionIh argumentIh =>
      have argumentKept := emit_continues input argument
        (emit input function view).view
      exact (functionIh view (errors_nil argumentKept quiet)).seq
        ((argumentIh _ quiet).seq (.instruction (by simp [Known]) (by simp)))
  | binary range operator left right leftIh rightIh =>
      rcases emit_binary_quiet quiet with ⟨instruction, chosen, whole⟩
      rw [whole] at quiet ⊢
      have rightKept := emit_continues input right (emit input left view).view
      have outer : (emit input right (emit input left view).view).view.errors =
        [] := quiet
      exact (leftIh view (errors_nil rightKept outer)).seq
        ((rightIh _ outer).seq (.instruction (binaryInstruction_known chosen)
          (binaryInstruction_goesOn chosen)))
  | unary range operator arg argIh =>
      rcases emit_unary_quiet quiet with ⟨instruction, chosen, whole⟩
      rw [whole] at quiet ⊢
      exact (argIh view quiet).seq
        (.instruction (unaryInstruction_known chosen)
          (unaryInstruction_goesOn chosen))
  | if_ range test thenArm elseArm testIh thenIh elseIh =>
      have elseKept := emit_continues input elseArm
        (emit input thenArm (emit input test view).view).view
      have thenQuiet := errors_nil elseKept quiet
      have thenKept := emit_continues input thenArm (emit input test view).view
      exact (testIh view (errors_nil thenKept thenQuiet)).seq
        ((thenIh _ thenQuiet).branch ((elseIh _ quiet).seq (.moveResult _ _))
          _)
  | tuple range first rest length firstIh restIh =>
      exact (Code.Plain.literal _ _).seq (.seq (.instruction (by simp [Known]) (by simp))
        (emitTupleMembers_plain firstIh _ length 0 _ quiet))

end

/-! ## Reading code linearly -/

/-- The instructions from an address to the end of the code. -/
def readLinearly (code : List UInt8) (codeLength : Nat) :
    Nat → Nat → Except Stop (List Instruction)
  | 0, _ => .error .outOfFuel
  | fuel + 1, ip =>
      if ip = codeLength then .ok []
      else do
        let (instruction, ip) ← fetch code ip
        let rest ← readLinearly code codeLength fuel ip
        return instruction :: rest

/-- Read a function's code from its first byte to its last. -/
def disassemble (entry : CompiledExpression) :
    Except Stop (List Instruction) :=
  readLinearly entry.code entry.codeLength (entry.codeLength + 1) 0

theorem instructionBytes_pos (instruction : Instruction) :
    0 < (instructionBytes instruction).length := by
  cases instruction <;> exact Nat.zero_lt_succ _

theorem readLinearly_placed {code : List UInt8} {codeLength fuel ip : Nat}
    {instructions : List Instruction}
    (known : ∀ i ∈ instructions, Known i)
    (placed : Placed code ip (instructions.flatMap instructionBytes))
    (end_ : codeLength = ip + (instructions.flatMap instructionBytes).length)
    (enough : (instructions.flatMap instructionBytes).length < fuel) :
    readLinearly code codeLength fuel ip = .ok instructions := by
  induction instructions generalizing fuel ip with
  | nil =>
      cases fuel with
      | zero => cases enough
      | succ fuel => simp [readLinearly, end_]
  | cons first rest ih =>
      have pos := instructionBytes_pos first
      simp only [List.flatMap_cons, List.length_append] at placed end_ enough
      cases fuel with
      | zero => cases enough
      | succ fuel =>
          have fetched := fetch_placed
            (known first (List.mem_cons_self ..)) placed.left
          have later := @ih fuel (ip + (instructionBytes first).length)
            (fun i member => known i (List.mem_cons_of_mem _ member))
            placed.right (by omega) (by omega)
          rw [readLinearly, if_neg (by omega), fetched, Stop.ok_bind]
          simp only [later, Stop.ok_bind]
          rfl

/--
A function's code decodes to the instructions emitted for its body and a return:
they are what is read from it, all of them known, the return last and only.
-/
structure DecodesTo (entry : CompiledExpression)
    (emitted : List Instruction) : Prop where
  length : entry.code.length = entry.codeLength
  read : disassemble entry = .ok (emitted ++ [.ret])
  known : ∀ i ∈ emitted, Known i
  return_ : Instruction.ret ∉ emitted

/-- A function without an error decodes to its instructions. -/
theorem Function.entry_decodes {input : CompileInput} {f : Function}
    (quiet : (f.emission input).view.errors = []) :
    DecodesTo (f.entry input) (f.instructions input) := by
  have plain : (f.emission input).code.Plain :=
    emit_plain input f.body f.view quiet
  have whole : (Code.seq (f.emission input).code (.instruction .ret)).Clean :=
    ⟨plain.1, nofun⟩
  have bytes : (f.entry input).code =
      (f.instructions input ++ [Instruction.ret]).flatMap instructionBytes :=
    whole.bytes_eq
  have size : (f.entry input).codeLength =
      ((f.instructions input ++ [Instruction.ret]).flatMap instructionBytes).length :=
    congrArg List.length bytes
  have placed : Placed (f.entry input).code 0
      ((f.instructions input ++ [Instruction.ret]).flatMap instructionBytes) := by
    refine ⟨[], ?_⟩
    rw [List.drop_zero, List.append_nil]
    exact bytes
  constructor
  · rfl
  · exact readLinearly_placed whole.known placed
      (size.trans (Nat.zero_add _).symm) (by omega)
  · exact plain.1.known
  · exact fun member => plain.2 _ member rfl

/-! ## Literals -/

/-- The literal that an instruction loads. -/
def loadedLiteral : Instruction → Option UInt64
  | .loadi8 val _ => some val.toUInt64
  | .loadi16 val _ => some val.toUInt64
  | .loadi32 val _ => some val.toUInt64
  | .loadi64 val _ => some val
  | _ => none

/-- The literals that instructions load, in order. -/
def loadedLiterals (instructions : List Instruction) : List UInt64 :=
  instructions.filterMap loadedLiteral

/-- The literals of the rounds of a tuple. -/
def tupleLiterals (first : View → Emission)
    (firstLiterals : View → List UInt64) : Nat → View → List UInt64
  | 0, _ => []
  | count + 1, view =>
      firstLiterals view ++
        tupleLiterals first firstLiterals count (first view).view

/--
The literals of an expression, outside its lambdas: integer constants, one and
zero for the booleans, tuple lengths and, for a lambda, its function's id.
-/
def literals (input : CompileInput) : Expression → View → List UInt64
  | .integerConstant _ literalValue, _ => [literalValue]
  | .true_ _, _ => [1]
  | .false_ _, _ => [0]
  | .let_ _ id value body, view =>
      let emitted := emit input value view
      literals input value view ++
        literals input body (emitted.view.push id emitted.reg)
  | .letrec _ id value body, view =>
      match value with
      | .lambda _ lambdaId lambdaBody =>
          let inner := view.take.push id view.nextReg
          UInt64.ofNat (addFunction inner.module).2.1 ::
            literals input body
              (emitLambdaImpl input lambdaId (emit input lambdaBody) id
                view.nextReg inner).view
      | _ => []
  | .lambda _ _ _, view => [UInt64.ofNat (addFunction view.module).2.1]
  | .apply _ function argument, view =>
      literals input function view ++
        literals input argument (emit input function view).view
  | .binary _ _ left right, view =>
      literals input left view ++
        literals input right (emit input left view).view
  | .unary _ _ arg, view => literals input arg view
  | .if_ _ test thenArm elseArm, view =>
      let tested := (emit input test view).view
      literals input test view ++
        (literals input thenArm tested ++
          literals input elseArm (emit input thenArm tested).view)
  | .tuple _ first _ length, view =>
      UInt64.ofNat length ::
        tupleLiterals (emit input first) (literals input first) length
          view.take.take
  | .identifier _ _, _ | .error _, _ | .invalid _, _ | .tupleFinal _ _, _ => []

theorem literals_letrec_other {value : Expression}
    (notLambda : ¬value.IsLambda) (input : CompileInput) (range : TokenRange)
    (id : Symbol) (body : Expression) (view : View) :
    literals input (.letrec range id value body) view = [] := by
  cases value with
  | lambda range id body => exact absurd trivial notLambda
  | _ => rfl

/-- The literals that an expression's code loads are the expression's. -/
def EmitsLiterals (input : CompileInput) (expression : Expression) : Prop :=
  ∀ view, loadedLiterals (emit input expression view).code.instructions =
    literals input expression view

theorem loadedLiterals_append (first second : List Instruction) :
    loadedLiterals (first ++ second) =
      loadedLiterals first ++ loadedLiterals second :=
  List.filterMap_append

/-- Every width holds the literals it is chosen for. -/
theorem loadedLiteral_literalInstruction (value : UInt64) (reg : UInt8) :
    loadedLiteral (literalInstruction value reg) = some value := by
  unfold literalInstruction
  split
  · rename_i small
    have bound : value.toNat ≤ 255 := UInt64.le_iff_toNat_le.mp small
    refine congrArg some (UInt64.toNat_inj.mp ?_)
    simp only [UInt8.toNat_toUInt64, UInt64.toNat_toUInt8]
    omega
  split
  · rename_i small
    have bound : value.toNat ≤ 65535 := UInt64.le_iff_toNat_le.mp small
    refine congrArg some (UInt64.toNat_inj.mp ?_)
    simp only [UInt16.toNat_toUInt64, UInt64.toNat_toUInt16]
    omega
  split
  · rename_i small
    have bound : value.toNat ≤ 4294967295 := UInt64.le_iff_toNat_le.mp small
    refine congrArg some (UInt64.toNat_inj.mp ?_)
    simp only [UInt32.toNat_toUInt64, UInt64.toNat_toUInt32]
    omega
  · rfl

section

variable {input : CompileInput}

theorem emitLiteral_literals (value : UInt64) (view : View) :
    loadedLiterals (emitLiteral value view).code.instructions = [value] := by
  simp [loadedLiterals, emitLiteral, Code.instructions,
    loadedLiteral_literalInstruction]

theorem emitIdentifier_literals (id : Symbol) (view : View) :
    loadedLiterals (emitIdentifier id view).code.instructions = [] := by
  unfold emitIdentifier
  split <;> rfl

theorem emitClosedValues_literals (closureRegister : UInt8)
    (symbols : List Symbol) (i : Nat) (view : View) :
    loadedLiterals
      (emitClosedValues closureRegister i symbols view).1.instructions =
        [] := by
  induction symbols generalizing i view with
  | nil => rfl
  | cons symbol symbols ih =>
      change loadedLiterals (_ ++ (.storea64 _ _ _ :: _)) = []
      rw [loadedLiterals_append, emitIdentifier_literals]
      exact ih (i + 1) _

theorem emitLambdaImpl_literals (lambdaId selfId : Symbol)
    (body : View → Emission) (closureRegister : UInt8) (view : View) :
    loadedLiterals (emitLambdaImpl input lambdaId body selfId closureRegister
      view).code.instructions =
        [UInt64.ofNat (addFunction view.module).2.1] := by
  change loadedLiterals (_ ++ (.newClosure _ _ :: _)) = _
  rw [loadedLiterals_append]
  refine (congrArg₂ (· ++ ·) (emitLiteral_literals _ _)
    (emitClosedValues_literals closureRegister _ 0 _)).trans ?_
  rfl

theorem emitTupleMembers_literals {first : Expression}
    (firstLiterals : EmitsLiterals input first) (outReg : UInt8)
    (count i : Nat) (view : View) :
    loadedLiterals (emitTupleMembers (emit input first) outReg i count
      view).1.instructions =
        tupleLiterals (emit input first) (literals input first) count view := by
  induction count generalizing i view with
  | zero => rfl
  | succ count ih =>
      change loadedLiterals (_ ++ (.storea64 _ _ _ :: _)) = _ ++ _
      rw [loadedLiterals_append, firstLiterals view, ← ih (i + 1)]
      rfl

theorem binaryInstruction_literal {operator : TokenType}
    {left right out : UInt8} {instruction : Instruction}
    (chosen : binaryInstruction operator left right out = some instruction) :
    loadedLiteral instruction = none := by
  cases operator <;> simp [binaryInstruction] at chosen <;> subst chosen <;>
    rfl

theorem unaryInstruction_literal {operator : TokenType} {arg out : UInt8}
    {instruction : Instruction}
    (chosen : unaryInstruction operator arg out = some instruction) :
    loadedLiteral instruction = none := by
  cases operator with
  | tokMinus =>
      cases chosen
      rfl
  | _ => cases chosen

theorem moveResult_literals (elseReg thenReg : UInt8) :
    loadedLiterals (moveResult elseReg thenReg).instructions = [] := by
  unfold moveResult
  split <;> rfl

theorem emit_literals (input : CompileInput) (expression : Expression) :
    EmitsLiterals input expression := by
  intro view
  induction expression using Expression.functionInduction
    generalizing view with
  | integerConstant range literalValue => exact emitLiteral_literals _ view
  | true_ range => exact emitLiteral_literals _ view
  | false_ range => exact emitLiteral_literals _ view
  | error range => rfl
  | invalid range => rfl
  | tupleFinal range first firstIh => rfl
  | identifier range id => exact emitIdentifier_literals id view
  | let_ range id value body valueIh bodyIh =>
      exact (loadedLiterals_append _ _).trans
        (congrArg₂ (· ++ ·) (valueIh view) (bodyIh _))
  | letrecFunction range id lambdaRange lambdaId lambdaBody body valueIh
      bodyIh =>
      exact (loadedLiterals_append _ _).trans
        (congrArg₂ (· ++ ·) (emitLambdaImpl_literals lambdaId id _ _ _)
          (bodyIh _))
  | letrecOther range id value body notLambda valueIh bodyIh =>
      rw [emit_letrec_other notLambda, literals_letrec_other notLambda]
      rfl
  | lambda range id body bodyIh =>
      exact emitLambdaImpl_literals id invalidSymbol _ view.nextReg view.take
  | apply range function argument functionIh argumentIh =>
      change loadedLiterals (_ ++ (_ ++ [.call _ _ _])) = _
      rw [loadedLiterals_append, loadedLiterals_append, functionIh, argumentIh]
      exact congrArg (_ ++ ·) (List.append_nil _)
  | binary range operator left right leftIh rightIh =>
      simp only [emit, emitBinary]
      split
      · rename_i instruction chosen
        change loadedLiterals (_ ++ (_ ++ [instruction])) = _
        rw [loadedLiterals_append, loadedLiterals_append, leftIh, rightIh]
        simp [loadedLiterals, binaryInstruction_literal chosen, literals]
      · change loadedLiterals (_ ++ (_ ++ [])) = _
        rw [loadedLiterals_append, List.append_nil, leftIh, rightIh]
        rfl
  | unary range operator arg argIh =>
      simp only [emit, emitUnary]
      split
      · rename_i instruction chosen
        change loadedLiterals (_ ++ [instruction]) = _
        rw [loadedLiterals_append, argIh]
        simp [loadedLiterals, unaryInstruction_literal chosen, literals]
      · change loadedLiterals (_ ++ []) = _
        rw [List.append_nil, argIh]
        rfl
  | if_ range test thenArm elseArm testIh thenIh elseIh =>
      change loadedLiterals
        (_ ++ (.jz _ _ :: (_ ++ (.jmp _ :: (_ ++ _))))) = _
      rw [loadedLiterals_append, testIh]
      refine congrArg (_ ++ ·) ?_
      change loadedLiterals (_ ++ (.jmp _ :: (_ ++ _))) = _
      rw [loadedLiterals_append, thenIh]
      refine congrArg (_ ++ ·) ?_
      change loadedLiterals (_ ++ _) = _
      rw [loadedLiterals_append, elseIh, moveResult_literals, List.append_nil]
  | tuple range first rest length firstIh restIh =>
      change loadedLiterals (_ ++ (.newTuple _ _ :: _)) = _
      rw [loadedLiterals_append]
      exact congrArg₂ (· ++ ·) (emitLiteral_literals _ view)
        (emitTupleMembers_literals firstIh _ length 0 _)

end

/-! ## Bytes that are already written -/

/-- What is never altered of the code written so far. -/
structure WritingKeeps (input : CompileInput) : Prop where
  growing : ∀ context more grown, Contained context →
    ensureCodeCapacity more context = .ok grown →
    grown.code.front context.codeWrite =
      context.code.front context.codeWrite
  patching : ∀ state after target, Contained state.context →
    target + 2 ≤ (written state).length →
    patchOffset target (written state).length state = .ok ((), after) →
    (written after).length = (written state).length ∧
      ∀ i, i ≠ target → i ≠ target + 1 →
        (written after)[i]? = (written state)[i]?
  compiling : ∀ expression state reg after, Contained state.context →
    compileExpression input expression state = .ok (reg, after) →
    written state <+: written after

/-- A hole of two bytes splits the code around it. -/
theorem hole_split {bytes : List UInt8} {target : Nat}
    (inside : target + 2 ≤ bytes.length) :
    ∃ pre low high post, bytes = pre ++ [low, high] ++ post ∧
      target = pre.length := by
  have first : target < bytes.length := by omega
  have second : target + 1 < bytes.length := by omega
  refine ⟨bytes.take target, bytes[target], bytes[target + 1],
    bytes.drop (target + 2), ?_, ?_⟩
  · rw [List.append_assoc, List.cons_append, List.cons_append, List.nil_append,
      ← List.drop_eq_getElem_cons second, ← List.drop_eq_getElem_cons first,
      List.take_append_drop]
  · rw [List.length_take]
    omega

theorem writing_keeps (input : CompileInput) : WritingKeeps input where
  growing _ _ _ contained ok :=
    (ensureCodeCapacity_ok contained ok).kept _ contained.codeWrite
  patching state after target contained inside ok := by
    rcases hole_split inside with ⟨pre, low, high, post, before, target_⟩
    rcases patchOffset_ok contained before target_ rfl ok with
      ⟨-, -, afterwards⟩
    rw [afterwards, before]
    have same : (bytesU16 (UInt16.ofNat post.length)).length =
        [low, high].length := rfl
    refine ⟨by simp only [List.length_append, same],
      fun i notLow notHigh => ?_⟩
    rcases Nat.lt_or_ge i pre.length with below | above
    · rw [List.append_assoc, List.append_assoc, List.getElem?_append_left below,
        List.getElem?_append_left below]
    · have past : pre.length + 2 ≤ i := by omega
      rw [List.getElem?_append_right, List.getElem?_append_right,
        List.length_append, List.length_append, same]
      all_goals
        simp only [List.length_append, same]
        exact past
  compiling expression state reg after contained ok := by
    have reached := compileExpression_generates input expression state reg after
      contained ok
    rw [reached.written]
    exact List.prefix_append _ _

/-! ## The code of a module -/

/--
Every function of a module decodes to what was emitted for it, with the literals
of its body, and nothing that was written is altered.
-/
structure CodeDecodes (input : CompileInput) (expression : Expression)
    (module : Module) : Prop where
  functions : ∀ f ∈ moduleFunctions input expression, ∃ entry,
    module.entry f.id = some entry ∧ DecodesTo entry (f.instructions input) ∧
      loadedLiterals (f.instructions input) = literals input f.body f.view
  complete : ∀ i < module.functionCount,
    ∃ f ∈ moduleFunctions input expression, f.id = i
  kept : WritingKeeps input

section

variable {input : CompileInput} {expression : Expression} {funcId : Nat}
  {after : CompileState}

theorem compileModule_table
    (returns : compileModule input expression = .ok (funcId, after)) :
    finalTable input expression = ⟨after.module, after.finished⟩ := by
  rcases compileModule_ok returns with ⟨-, moduleIs, -, finishedIs, -⟩
  rw [moduleIs, finishedIs]
  rfl

/-- Every function of the module has an index in the table. -/
theorem functions_allocated
    (returns : compileModule input expression = .ok (funcId, after)) :
    ∀ f ∈ moduleFunctions input expression,
      f.id < after.module.functionCount := by
  intro f member
  have known := finalTable_recorded input expression
  rw [compileModule_table returns] at known
  have listed : (f.id, f.entry input) ∈ after.finished := by
    rw [compileModule_functions returns]
    exact List.mem_map_of_mem member
  exact known _ listed

/-- A table of at most ten entries holds every function of the module. -/
theorem moduleFunctions_stored
    (returns : compileModule input expression = .ok (funcId, after))
    (small : lambdasCompiled expression + 1 ≤ 10) :
    ∀ f ∈ moduleFunctions input expression,
      after.module.entry f.id = some (f.entry input) := by
  intro f member
  have complete := @finalTable_complete input expression small
  rw [compileModule_table returns] at complete
  have listed : (f.id, f.entry input) ∈ after.finished := by
    rw [compileModule_functions returns]
    exact List.mem_map_of_mem member
  rcases complete f.id (functions_allocated returns f member) with
    ⟨entry, finished, stored⟩
  rw [stored, (finished _).mp listed]

/-- Every entry of the table is that of a function of the module. -/
theorem entries_are_functions
    (returns : compileModule input expression = .ok (funcId, after))
    (small : lambdasCompiled expression + 1 ≤ 10) :
    ∀ i < after.module.functionCount,
      ∃ f ∈ moduleFunctions input expression, f.id = i := by
  intro i below
  have complete := @finalTable_complete input expression small
  rw [compileModule_table returns] at complete
  rcases complete i below with ⟨entry, finished, -⟩
  have member := (finished entry).mpr rfl
  change (i, entry) ∈ after.finished at member
  rw [compileModule_functions returns] at member
  rcases List.mem_map.mp member with ⟨f, inModule, same⟩
  exact ⟨f, inModule, congrArg Prod.fst same⟩

/-- In a larger table the entry function's entry is lost. -/
theorem entry_lost
    (returns : compileModule input expression = .ok (funcId, after))
    (large : 10 < lambdasCompiled expression + 1) :
    after.module.entry 0 = none := by
  have lost := @finalTable_lost input expression large
  rwa [compileModule_table returns] at lost

/--
Every function of a module compiled without an error decodes to its emitted
instructions if and only if the module has at most ten functions.
-/
theorem code_decodes_iff
    (returns : compileModule input expression = .ok (funcId, after))
    (quiet : after.errors = []) :
    CodeDecodes input expression after.module ↔
      lambdasCompiled expression + 1 ≤ 10 := by
  constructor
  · intro decodes
    by_contra large
    rcases decodes.functions (entryFunction input expression)
      (List.mem_append_right _ (List.mem_singleton_self _)) with
      ⟨entry, stored, -⟩
    cases (entry_lost returns (Nat.lt_of_not_le large)).symm.trans stored
  · intro small
    refine ⟨fun f member => ?_, entries_are_functions returns small,
      writing_keeps input⟩
    refine ⟨f.entry input, moduleFunctions_stored returns small f member,
      Function.entry_decodes ?_, emit_literals input f.body f.view⟩
    exact moduleFunctions_quiet returns quiet f member

end

/-- The errors of a compilation that returns. -/
def compiledErrors (input : CompileInput) (expression : Expression) :
    Option (List ErrorReport) :=
  (compileModule input expression).toOption.map fun result => result.2.errors

theorem compiledErrors_ok {input : CompileInput} {expression : Expression}
    {errors : List ErrorReport}
    (compiled : compiledErrors input expression = some errors) :
    ∃ funcId after, compileModule input expression = .ok (funcId, after) ∧
      after.errors = errors := by
  unfold compiledErrors at compiled
  cases ok : compileModule input expression with
  | error stop =>
      rw [ok] at compiled
      cases compiled
  | ok result =>
      rw [ok] at compiled
      exact ⟨result.1, result.2, rfl, Option.some.inj compiled⟩

/-- The code of nine lambdas and the entry function decodes. -/
theorem code_decodes_nine : ∃ funcId after,
    compileModule zeroedInput (identityChain 9) = .ok (funcId, after) ∧
      after.errors = [] ∧
      CodeDecodes zeroedInput (identityChain 9) after.module := by
  have compiled : compiledErrors zeroedInput (identityChain 9) = some [] := by
    decide +kernel
  rcases compiledErrors_ok compiled with ⟨funcId, after, returns, quiet⟩
  exact ⟨funcId, after, returns, quiet,
    (code_decodes_iff returns quiet).mpr (by decide)⟩

/-- With ten lambdas the entry function has no code. -/
theorem code_lost_ten : ∃ funcId after,
    compileModule zeroedInput (identityChain 10) = .ok (funcId, after) ∧
      after.errors = [] ∧
      ¬CodeDecodes zeroedInput (identityChain 10) after.module := by
  have compiled : compiledErrors zeroedInput (identityChain 10) = some [] := by
    decide +kernel
  have lost : compiledEntry zeroedInput (identityChain 10) =
      some (11, none) := by
    decide +kernel
  rcases compiledErrors_ok compiled with ⟨funcId, after, returns, quiet⟩
  refine ⟨funcId, after, returns, quiet, fun decodes => ?_⟩
  simp only [compiledEntry, returns, Except.toOption, Option.map_some,
    Option.some.injEq, Prod.mk.injEq] at lost
  rcases decodes.functions (entryFunction zeroedInput (identityChain 10))
    (List.mem_append_right _ (List.mem_singleton_self _)) with
    ⟨entry, stored, -⟩
  cases lost.2.symm.trans stored

end Millie.Compiler
