import Millie.Compiler.Decoding
import Millie.Compiler.Resolution

/-!
# Closure layouts

A function's code loads captured symbols from the slots of its closure and
creates the closures of the functions inside it.  `acts` lists both in order.
The slot that is loaded is always the one recorded for the symbol.  The slots
that are filled are the function's closure list, each from where the enclosing
function keeps the symbol, unless a search ends in an ended binding or the
closure's own register is one of those that are read to fill it.
-/

namespace Millie.Compiler

open Millie.Symbols Millie.Syntax Millie.Machine

/-! ## What a function does with closures -/

/-- A closure that a function's code creates, and where its slots are filled. -/
structure Creation where
  function : Function
  register : UInt8
  view : View
  scope : Scope

/-- An identifier that is compiled, or a closure that is created. -/
inductive Act where
  | identifier (view : View) (scope : Scope) (id : Symbol)
  | closure (creation : Creation)

/-- The closure of a lambda. -/
def lambdaAct (input : CompileInput) (lambdaId selfId : Symbol)
    (body : Expression) (register : UInt8) (view : View) (scope : Scope) :
    Act :=
  .closure ⟨lambdaFunction input lambdaId selfId body view scope, register,
    closureView input lambdaId selfId (emit input body) view, scope⟩

/-- The acts of the rounds of a tuple. -/
def tupleActs (first : View → Emission) (firstActs : View → List Act) :
    Nat → View → List Act
  | 0, _ => []
  | count + 1, view =>
      firstActs view ++ tupleActs first firstActs count (first view).view

/-- The acts of an expression in the function that it is part of. -/
def acts (input : CompileInput) : Expression → View → Scope → List Act
  | .identifier _ id, view, scope => [.identifier view scope id]
  | .let_ _ id value body, view, scope =>
      let emitted := emit input value view
      acts input value view scope ++
        acts input body (emitted.view.push id emitted.reg)
          (scope.bind id emitted.reg)
  | .letrec _ id value body, view, scope =>
      match value with
      | .lambda _ lambdaId lambdaBody =>
          let inner := view.take.push id view.nextReg
          let innerScope := scope.bind id view.nextReg
          lambdaAct input lambdaId id lambdaBody view.nextReg inner innerScope ::
            acts input body
              (emitLambdaImpl input lambdaId (emit input lambdaBody) id
                view.nextReg inner).view innerScope
      | _ => []
  | .lambda _ id body, view, scope =>
      [lambdaAct input id invalidSymbol body view.nextReg view.take scope]
  | .apply _ function argument, view, scope =>
      acts input function view scope ++
        acts input argument (emit input function view).view scope
  | .binary _ _ left right, view, scope =>
      acts input left view scope ++
        acts input right (emit input left view).view scope
  | .unary _ _ arg, view, scope => acts input arg view scope
  | .if_ _ test thenArm elseArm, view, scope =>
      let tested := (emit input test view).view
      acts input test view scope ++
        (acts input thenArm tested scope ++
          acts input elseArm (emit input thenArm tested).view scope)
  | .tuple _ first _ length, view, scope =>
      tupleActs (emit input first) (acts input first · scope) length
        view.take.take
  | .integerConstant _ _, _, _ | .true_ _, _, _ | .false_ _, _, _
  | .error _, _, _ | .invalid _, _, _ | .tupleFinal _ _, _, _ => []

theorem acts_letrec_other {value : Expression} (notLambda : ¬value.IsLambda)
    (input : CompileInput) (range : TokenRange) (id : Symbol)
    (body : Expression) (view : View) (scope : Scope) :
    acts input (.letrec range id value body) view scope = [] := by
  cases value with
  | lambda range id body => exact absurd trivial notLambda
  | _ => rfl

/-- The searches of an act. -/
def Act.searches (input : CompileInput) : Act → List Event
  | identifier view scope id => [.search view scope id]
  | closure creation =>
      closedSearches creation.scope (creation.function.closure input)
        creation.view

/-- The searches of acts, in order. -/
def searchesOf (input : CompileInput) (acts : List Act) : List Event :=
  acts.flatMap (Act.searches input)

/-- The closure that an act creates. -/
def Act.creation : Act → Option Creation
  | identifier _ _ _ => none
  | closure creation => some creation

/-- The symbol that a search leaves to be read from the closure. -/
def Event.read : Event → Option Symbol
  | search view _ id =>
      match View.search view.bindings id view.top with
      | some _ => none
      | none => some id
  | function _ _ _ _ => none

/-- The symbols that acts read from the closure. -/
def readSymbols (input : CompileInput) (acts : List Act) : List Symbol :=
  (searchesOf input acts).filterMap Event.read

namespace Function

/-- The symbols that a function reads from its closure. -/
def reads (input : CompileInput) (f : Function) : List Symbol :=
  readSymbols input (acts input f.body f.view f.scope)

/-- The closures that a function creates. -/
def creations (input : CompileInput) (f : Function) : List Creation :=
  (acts input f.body f.view f.scope).filterMap Act.creation

end Function

/-! ## Layouts -/

/-- The register and the slot that an instruction loads from. -/
def loadedSlot : Instruction → Option (UInt8 × Nat)
  | .loada64 srcReg offset _ => some (srcReg, offset.toNat)
  | _ => none

/-- The instructions create no closure. -/
def NoClosure (instructions : List Instruction) : Prop :=
  ∀ i ∈ instructions, ∀ funcidReg dstReg, i ≠ .newClosure funcidReg dstReg

/-- The register of a symbol that is bound in the scope's own function. -/
def Scope.register (scope : Scope) (id : Symbol) : Option UInt8 :=
  ((scope.resolve id).filter fun binder => binder.depth = scope.depth).map
    Binder.reg

/--
Instructions that fill the slots of a closure and what follows them.  A symbol
of the enclosing function is stored from its register, any other from the slot
of the enclosing function's own closure; nothing else touches the new closure.
-/
inductive Fills (scope : Scope) (closure : List Symbol) (register : UInt8) :
    Nat → List Symbol → List Instruction → List Instruction → Prop where
  | done (i : Nat) (rest : List Instruction) :
      Fills scope closure register i [] rest rest
  | bound {i : Nat} {symbol : Symbol} {symbols : List Symbol} {reg : UInt8}
      {slot : UInt16} {following rest : List Instruction}
      (location : scope.register symbol = some reg) (other : reg ≠ register)
      (slot_ : slot.toNat = i + 1)
      (later : Fills scope closure register (i + 1) symbols following rest) :
      Fills scope closure register i (symbol :: symbols)
        (.storea64 register slot reg :: following) rest
  | captured {i : Nat} {symbol : Symbol} {symbols : List Symbol}
      {temporary : UInt8} {source slot : UInt16}
      {following rest : List Instruction}
      (location : scope.register symbol = none) (other : register ≠ 0)
      (apart : temporary ≠ register)
      (source_ : source.toNat = closure.idxOf symbol + 1)
      (slot_ : slot.toNat = i + 1)
      (later : Fills scope closure register (i + 1) symbols following rest) :
      Fills scope closure register i (symbol :: symbols)
        (.loada64 0 source temporary :: .storea64 register slot temporary ::
          following) rest

/--
Instructions that create exactly the given closures, one after the other: each
is made for its function's id, and its slots are filled at once.
-/
inductive Lays (input : CompileInput) (closure : List Symbol) :
    List Creation → List Instruction → Prop where
  | done {instructions : List Instruction} (none_ : NoClosure instructions) :
      Lays input closure [] instructions
  | create {creation : Creation} {creations : List Creation}
      {before following rest : List Instruction} {funcidReg register : UInt8}
      (none_ : NoClosure before)
      (fills : Fills creation.scope closure register 0
        (creation.function.closure input) following rest)
      (later : Lays input closure creations rest) :
      Lays input closure (creation :: creations)
        (before ++
          literalInstruction (UInt64.ofNat creation.function.id) funcidReg ::
          .newClosure funcidReg register :: following)

/-! ## Acts and functions in the trace -/

section

variable {input : CompileInput}

theorem searchesOf_append (first second : List Act) :
    searchesOf input (first ++ second) =
      searchesOf input first ++ searchesOf input second :=
  List.flatMap_append

theorem lambdaAct_trace (lambdaId selfId : Symbol) (body : Expression)
    (register : UInt8) (view : View) (scope : Scope) :
    searchesOf input
        [lambdaAct input lambdaId selfId body register view scope] ⊆
      lambdaTrace input lambdaId selfId body (trace input body) view scope := by
  rw [searchesOf, List.flatMap_singleton]
  exact fun event member =>
    List.mem_append_right _ (List.mem_cons_of_mem _ member)

theorem tupleActs_trace {first : Expression}
    (firstActs : ∀ view scope, searchesOf input (acts input first view scope) ⊆
      trace input first view scope) (count : Nat) (view : View)
    (scope : Scope) :
    searchesOf input (tupleActs (emit input first) (acts input first · scope)
        count view) ⊆
      tupleTrace (emit input first) (trace input first · scope) count view := by
  induction count generalizing view with
  | zero => exact List.Subset.refl _
  | succ count ih =>
      rw [tupleActs, searchesOf_append]
      exact append_mono (firstActs view scope) (ih _)

/-- The searches of an expression's acts are in its trace. -/
theorem acts_trace (expression : Expression) (view : View) (scope : Scope) :
    searchesOf input (acts input expression view scope) ⊆
      trace input expression view scope := by
  induction expression using Expression.functionInduction
    generalizing view scope with
  | integerConstant | true_ | false_ | error | invalid | tupleFinal
  | identifier => exact List.Subset.refl _
  | let_ range id value body valueIh bodyIh =>
      rw [acts, searchesOf_append]
      exact append_mono (valueIh view scope) (bodyIh _ _)
  | letrecFunction range id lambdaRange lambdaId lambdaBody body valueIh
      bodyIh =>
      rw [acts, ← List.singleton_append, searchesOf_append]
      exact append_mono (lambdaAct_trace lambdaId id lambdaBody _ _ _)
        (bodyIh _ _)
  | letrecOther range id value body notLambda valueIh bodyIh =>
      rw [acts_letrec_other notLambda]
      exact List.nil_subset _
  | lambda range id body bodyIh => exact lambdaAct_trace _ _ _ _ _ _
  | apply range function argument functionIh argumentIh =>
      rw [acts, searchesOf_append]
      exact append_mono (functionIh view scope) (argumentIh _ scope)
  | binary range operator left right leftIh rightIh =>
      rw [acts, searchesOf_append]
      exact append_mono (leftIh view scope) (rightIh _ scope)
  | unary range operator arg argIh => exact argIh view scope
  | if_ range test thenArm elseArm testIh thenIh elseIh =>
      rw [acts, searchesOf_append, searchesOf_append, ← List.append_assoc]
      exact append_mono (append_mono (testIh view scope) (thenIh _ scope))
        (elseIh _ scope)
  | tuple range first rest length firstIh restIh =>
      exact tupleActs_trace firstIh length view.take.take scope

/-- The traces of functions, in order. -/
def tracesOf (input : CompileInput) (functions : List Function) : List Event :=
  functions.flatMap fun f => trace input f.body f.view f.scope

theorem tracesOf_append (first second : List Function) :
    tracesOf input (first ++ second) =
      tracesOf input first ++ tracesOf input second :=
  List.flatMap_append

theorem lambdaFunctions_trace {body : Expression}
    (bodyFunctions : ∀ view scope,
      tracesOf input (functions input body view scope) ⊆
        trace input body view scope)
    (lambdaId selfId : Symbol) (view : View) (scope : Scope) :
    tracesOf input (lambdaFunctions (functions input body)
        (lambdaFunction input lambdaId selfId body view scope)) ⊆
      lambdaTrace input lambdaId selfId body (trace input body) view scope := by
  let function := lambdaFunction input lambdaId selfId body view scope
  rw [lambdaFunctions, tracesOf_append]
  refine List.subset_append_of_subset_left _ (List.append_subset.mpr ⟨?_, ?_⟩)
  · exact bodyFunctions function.view function.scope
  · rw [tracesOf, List.flatMap_singleton]
    exact List.Subset.refl _

theorem tupleFunctions_trace {first : Expression}
    (firstFunctions : ∀ view scope,
      tracesOf input (functions input first view scope) ⊆
        trace input first view scope)
    (count : Nat) (view : View) (scope : Scope) :
    tracesOf input (tupleFunctions (emit input first)
        (functions input first · scope) count view) ⊆
      tupleTrace (emit input first) (trace input first · scope) count view := by
  induction count generalizing view with
  | zero => exact List.Subset.refl _
  | succ count ih =>
      rw [tupleFunctions, tracesOf_append]
      exact append_mono (firstFunctions view scope) (ih _)

/-- The traces of an expression's functions are in its trace. -/
theorem functions_trace (expression : Expression) (view : View)
    (scope : Scope) :
    tracesOf input (functions input expression view scope) ⊆
      trace input expression view scope := by
  induction expression using Expression.functionInduction
    generalizing view scope with
  | integerConstant | true_ | false_ | error | invalid | tupleFinal
  | identifier => exact List.nil_subset _
  | let_ range id value body valueIh bodyIh =>
      rw [functions, tracesOf_append]
      exact append_mono (valueIh view scope) (bodyIh _ _)
  | letrecFunction range id lambdaRange lambdaId lambdaBody body valueIh
      bodyIh =>
      rw [functions, tracesOf_append]
      exact append_mono (lambdaFunctions_trace valueIh lambdaId id _ _)
        (bodyIh _ _)
  | letrecOther range id value body notLambda valueIh bodyIh =>
      rw [functions_letrec_other notLambda]
      exact List.nil_subset _
  | lambda range id body bodyIh => exact lambdaFunctions_trace bodyIh _ _ _ _
  | apply range function argument functionIh argumentIh =>
      rw [functions, tracesOf_append]
      exact append_mono (functionIh view scope) (argumentIh _ scope)
  | binary range operator left right leftIh rightIh =>
      rw [functions, tracesOf_append]
      exact append_mono (leftIh view scope) (rightIh _ scope)
  | unary range operator arg argIh => exact argIh view scope
  | if_ range test thenArm elseArm testIh thenIh elseIh =>
      rw [functions, tracesOf_append, tracesOf_append]
      exact append_mono (append_mono (testIh view scope) (thenIh _ scope))
        (elseIh _ scope)
  | tuple range first rest length firstIh restIh =>
      exact tupleFunctions_trace firstIh length view.take.take scope

end

/-! ## Loads -/

/-- Instructions load exactly some recorded symbols, each from its own slot. -/
structure Loads (closure symbols : List Symbol)
    (instructions : List Instruction) : Prop where
  loaded : instructions.filterMap loadedSlot =
    symbols.map fun symbol => (0, closure.idxOf symbol + 1)
  recorded : symbols ⊆ closure

namespace Loads

variable {closure : List Symbol}

theorem silent {instructions : List Instruction}
    (none_ : instructions.filterMap loadedSlot = []) :
    Loads closure [] instructions :=
  ⟨none_, List.nil_subset _⟩

theorem append {first second : List Symbol}
    {firstCode secondCode : List Instruction}
    (firstLoads : Loads closure first firstCode)
    (secondLoads : Loads closure second secondCode) :
    Loads closure (first ++ second) (firstCode ++ secondCode) where
  loaded := by
    rw [List.filterMap_append, List.map_append, firstLoads.loaded,
      secondLoads.loaded]
  recorded := List.append_subset.mpr
    ⟨firstLoads.recorded, secondLoads.recorded⟩

end Loads

/-- The slot that a symbol has when it is closed over is the one it keeps. -/
theorem View.close_idxOf {before closure : List Symbol} {id : Symbol}
    (kept : View.close before id <+: closure) :
    id ∈ closure ∧ before.idxOf id = closure.idxOf id := by
  rcases kept with ⟨rest, rfl⟩
  unfold View.close
  split
  · rename_i member
    exact ⟨List.mem_append_left _ member,
      by rw [List.idxOf_append, if_pos member]⟩
  · rename_i fresh
    refine ⟨by simp, ?_⟩
    have new : id ∈ before ++ [id] := by simp
    rw [List.idxOf_append, if_pos new, List.idxOf_append, if_neg fresh,
      List.idxOf_eq_length_iff.mpr fresh]
    simp

theorem slot_toNat {closure : List Symbol} {id : Symbol}
    (member : id ∈ closure) (small : closure.length ≤ 16) :
    (UInt16.ofNat (closure.idxOf id) + 1).toNat = closure.idxOf id + 1 := by
  have below := List.idxOf_lt_length_of_mem member
  rw [UInt16.toNat_add, UInt16.toNat_ofNat']
  change (_ % 65536 + 1) % 65536 = _
  omega

section

variable {closure : List Symbol} (small : closure.length ≤ 16)

include small

theorem emitIdentifier_loads {id : Symbol} {view : View} (scope : Scope)
    (kept : (emitIdentifier id view).view.closure <+: closure) :
    Loads closure ([Event.search view scope id].filterMap Event.read)
      (emitIdentifier id view).code.instructions := by
  cases found : View.search view.bindings id view.top with
  | some reg =>
      rw [emitIdentifier_bound found]
      simp only [List.filterMap_cons, Event.read, found, List.filterMap_nil]
      exact .silent rfl
  | none =>
      rw [emitIdentifier_closed found] at kept ⊢
      rcases View.close_idxOf kept with ⟨member, same⟩
      simp only [List.filterMap_cons, Event.read, found, List.filterMap_nil]
      constructor
      · rw [same]
        exact congrArg (fun slot => [((0 : UInt8), slot)])
          (slot_toNat member small)
      · exact List.cons_subset.mpr ⟨member, List.nil_subset _⟩

theorem emitClosedValues_loads {symbols : List Symbol} {view : View}
    (scope : Scope) (register : UInt8) (i : Nat)
    (kept : (emitClosedValues register i symbols view).2.closure <+: closure) :
    Loads closure ((closedSearches scope symbols view).filterMap Event.read)
      (emitClosedValues register i symbols view).1.instructions := by
  induction symbols generalizing view i with
  | nil => exact .silent rfl
  | cons symbol symbols ih =>
      have later := (emitClosedValues_continues register symbols (i + 1)
        (emitIdentifier symbol view).view).closure
      have value := emitIdentifier_loads small scope (later.trans kept)
      have rest := ih (i + 1) kept
      rw [closedSearches, ← List.singleton_append, List.filterMap_append]
      refine value.append ⟨?_, rest.recorded⟩
      exact rest.loaded

end

/-! ## Creations in code -/

/-- The instructions that fill a new closure's slots. -/
def Creation.fill (input : CompileInput) (creation : Creation) :
    List Instruction :=
  (emitClosedValues creation.register 0 (creation.function.closure input)
    creation.view).1.instructions

/--
What holds when a closure is created: its register is the one before last that
was taken, it has few slots, and the closure list of the enclosing function only
grows from here.
-/
structure Creation.Begins (input : CompileInput) (closure : List Symbol)
    (creation : Creation) : Prop where
  register : ∃ registers, creation.register = UInt8.ofNat registers ∧
    creation.view.registers = registers + 2
  fits : (creation.function.closure input).length ≤ 16
  kept : (emitClosedValues creation.register 0
    (creation.function.closure input) creation.view).2.closure <+: closure

/-- Instructions in which the given closures are created one after the other. -/
inductive Built (input : CompileInput) (closure : List Symbol) :
    List Creation → List Instruction → Prop where
  | done {instructions : List Instruction} (none_ : NoClosure instructions) :
      Built input closure [] instructions
  | create {creation : Creation} {creations : List Creation}
      {before after : List Instruction} {funcidReg : UInt8}
      (none_ : NoClosure before) (begins : creation.Begins input closure)
      (later : Built input closure creations after) :
      Built input closure (creation :: creations)
        (before ++
          literalInstruction (UInt64.ofNat creation.function.id) funcidReg ::
          .newClosure funcidReg creation.register ::
          (creation.fill input ++ after))

theorem NoClosure.append {first second : List Instruction}
    (firstNone : NoClosure first) (secondNone : NoClosure second) :
    NoClosure (first ++ second) :=
  List.forall_mem_append.mpr ⟨firstNone, secondNone⟩

theorem Built.before {input : CompileInput} {closure : List Symbol}
    {creations : List Creation} {first second : List Instruction}
    (none_ : NoClosure first) (built : Built input closure creations second) :
    Built input closure creations (first ++ second) := by
  cases built with
  | done none_' => exact .done (none_.append none_')
  | create none_' begins later =>
      rw [← List.append_assoc]
      exact .create (none_.append none_') begins later

theorem Built.append {input : CompileInput} {closure : List Symbol}
    {creations others : List Creation} {first second : List Instruction}
    (firstBuilt : Built input closure creations first)
    (secondBuilt : Built input closure others second) :
    Built input closure (creations ++ others) (first ++ second) := by
  induction firstBuilt with
  | done none_ => exact secondBuilt.before none_
  | create none_ begins later ih =>
      simp only [List.append_assoc, List.cons_append]
      exact .create none_ begins ih

/-! ## Emitted code performs the acts -/

/-- Instructions load what acts read and create the closures of acts. -/
structure Performs (input : CompileInput) (closure : List Symbol)
    (acts : List Act) (instructions : List Instruction) : Prop where
  loads : Loads closure (readSymbols input acts) instructions
  built : Built input closure (acts.filterMap Act.creation) instructions

namespace Performs

variable {input : CompileInput} {closure : List Symbol}

/-- Instructions that neither load from a closure nor create one. -/
theorem silent {instructions : List Instruction}
    (noLoad : instructions.filterMap loadedSlot = [])
    (none_ : NoClosure instructions) :
    Performs input closure [] instructions :=
  ⟨.silent noLoad, .done none_⟩

theorem append {first second : List Act}
    {firstCode secondCode : List Instruction}
    (firstRun : Performs input closure first firstCode)
    (secondRun : Performs input closure second secondCode) :
    Performs input closure (first ++ second) (firstCode ++ secondCode) := by
  constructor
  · rw [readSymbols, searchesOf_append, List.filterMap_append]
    exact firstRun.loads.append secondRun.loads
  · rw [List.filterMap_append]
    exact firstRun.built.append secondRun.built

/-- Silent instructions after an act. -/
theorem before {acts : List Act} {code silentCode : List Instruction}
    (run : Performs input closure acts code)
    (noLoad : silentCode.filterMap loadedSlot = [])
    (none_ : NoClosure silentCode) :
    Performs input closure acts (code ++ silentCode) := by
  have whole := run.append (.silent noLoad none_)
  rwa [List.append_nil] at whole

end Performs

/-- An instruction that neither loads from a closure nor creates one. -/
def Aside (instruction : Instruction) : Prop :=
  loadedSlot instruction = none ∧ NoClosure [instruction]

theorem literalInstruction_aside (value : UInt64) (reg : UInt8) :
    Aside (literalInstruction value reg) := by
  unfold literalInstruction
  split
  · exact ⟨rfl, List.forall_mem_singleton.mpr nofun⟩
  split
  · exact ⟨rfl, List.forall_mem_singleton.mpr nofun⟩
  split
  · exact ⟨rfl, List.forall_mem_singleton.mpr nofun⟩
  · exact ⟨rfl, List.forall_mem_singleton.mpr nofun⟩

theorem binaryInstruction_aside {operator : TokenType}
    {left right out : UInt8} {instruction : Instruction}
    (chosen : binaryInstruction operator left right out = some instruction) :
    Aside instruction := by
  cases operator <;> simp [binaryInstruction] at chosen <;> subst chosen <;>
    simp [Aside, NoClosure, loadedSlot]

theorem unaryInstruction_aside {operator : TokenType} {arg out : UInt8}
    {instruction : Instruction}
    (chosen : unaryInstruction operator arg out = some instruction) :
    Aside instruction := by
  cases operator with
  | tokMinus =>
      cases chosen
      exact ⟨rfl, List.forall_mem_singleton.mpr nofun⟩
  | _ => cases chosen

theorem moveResult_aside (elseReg thenReg : UInt8) :
    (moveResult elseReg thenReg).instructions.filterMap loadedSlot = [] ∧
      NoClosure (moveResult elseReg thenReg).instructions := by
  unfold moveResult
  split
  · exact ⟨rfl, List.forall_mem_singleton.mpr nofun⟩
  · exact ⟨rfl, nofun⟩

namespace Performs

variable {input : CompileInput} {closure : List Symbol} {acts : List Act}
  {code : List Instruction}

/-- One more instruction at the end. -/
theorem snoc (run : Performs input closure acts code)
    {instruction : Instruction} (aside : Aside instruction) :
    Performs input closure acts (code ++ [instruction]) :=
  run.before (by simp [aside.1]) aside.2

/-- One more instruction at the start. -/
theorem cons {instruction : Instruction} (aside : Aside instruction)
    (run : Performs input closure acts code) :
    Performs input closure acts (instruction :: code) :=
  (silent (by simp [aside.1]) aside.2).append run

theorem nil : Performs input closure [] [] :=
  silent rfl nofun

/-- Code with the move of its result after it. -/
theorem move {elseCode : Code}
    (run : Performs input closure acts elseCode.instructions)
    (elseReg thenReg : UInt8) :
    Performs input closure acts
      (Code.seq elseCode (moveResult elseReg thenReg)).instructions :=
  run.before (moveResult_aside elseReg thenReg).1
    (moveResult_aside elseReg thenReg).2

/-- The two arms of a branch with their jumps. -/
theorem branch {others : List Act} {thenCode elseCode : Code}
    (thenRun : Performs input closure acts thenCode.instructions)
    (elseRun : Performs input closure others elseCode.instructions)
    (testReg : UInt8) :
    Performs input closure (acts ++ others)
      (Code.branch testReg thenCode elseCode).instructions := by
  have jmp : Aside (.jmp (UInt16.ofNat elseCode.bytes.length)) :=
    ⟨rfl, List.forall_mem_singleton.mpr nofun⟩
  have jz : Aside
      (.jz testReg (UInt16.ofNat (thenCode.bytes.length + 3))) :=
    ⟨rfl, List.forall_mem_singleton.mpr nofun⟩
  exact .cons jz (thenRun.append (.cons jmp elseRun))

end Performs

section

variable {input : CompileInput} {closure : List Symbol}

theorem SmallClosures.earlier {finished after : List (Nat × CompiledExpression)}
    (small : SmallClosures after) (kept : finished <+: after) :
    SmallClosures finished :=
  fun pair member => small pair (kept.subset member)

theorem emitIdentifier_performs (small : closure.length ≤ 16) {id : Symbol}
    {view : View} (scope : Scope)
    (kept : (emitIdentifier id view).view.closure <+: closure) :
    Performs input closure [.identifier view scope id]
      (emitIdentifier id view).code.instructions := by
  refine ⟨emitIdentifier_loads small scope kept, .done ?_⟩
  unfold emitIdentifier
  split
  · exact nofun
  · exact List.forall_mem_singleton.mpr nofun

theorem emitLambdaImpl_performs (small : closure.length ≤ 16)
    (lambdaId selfId : Symbol) (body : Expression) {view : View}
    {registers : Nat} (taken : view.registers = registers + 1) (scope : Scope)
    (kept : (emitLambdaImpl input lambdaId (emit input body) selfId
      (UInt8.ofNat registers) view).view.closure <+: closure)
    (fits : SmallClosures (emitLambdaImpl input lambdaId (emit input body)
      selfId (UInt8.ofNat registers) view).view.finished) :
    Performs input closure
      [lambdaAct input lambdaId selfId body (UInt8.ofNat registers) view scope]
      (emitLambdaImpl input lambdaId (emit input body) selfId
        (UInt8.ofNat registers) view).code.instructions := by
  let function := lambdaFunction input lambdaId selfId body view scope
  let filled := closureView input lambdaId selfId (emit input body) view
  let creation : Creation :=
    ⟨function, UInt8.ofNat registers, filled, scope⟩
  let literal := literalInstruction (UInt64.ofNat function.id)
    (UInt8.ofNat view.registers)
  have aside : Aside literal := literalInstruction_aside _ _
  constructor
  · have loads := emitClosedValues_loads small scope (UInt8.ofNat registers) 0
      kept
    refine ⟨?_, ?_⟩
    · change List.filterMap loadedSlot (literal :: _ :: _) = _
      rw [List.filterMap_cons, aside.1, readSymbols, searchesOf,
        List.flatMap_singleton]
      exact loads.loaded
    · rw [readSymbols, searchesOf, List.flatMap_singleton]
      exact loads.recorded
  · have recorded := (emitClosedValues_continues (UInt8.ofNat registers)
      (function.closure input) 0 filled).finished
    have fit : (function.closure input).length ≤ 16 :=
      fits (function.id, function.entry input)
        (recorded.subset (List.mem_append_right _ (List.mem_singleton_self _)))
    have begins : creation.Begins input closure :=
      ⟨⟨registers, rfl, congrArg (· + 1) taken⟩, fit, kept⟩
    have built := @Built.create input closure creation [] [] []
      (UInt8.ofNat view.registers) nofun begins (.done nofun)
    rw [List.append_nil] at built
    exact built

theorem emitTupleMembers_performs {first : Expression}
    (firstActs : ∀ {view} (scope : Scope),
      (emit input first view).view.closure <+: closure →
      SmallClosures (emit input first view).view.finished →
      Performs input closure (acts input first view scope)
        (emit input first view).code.instructions)
    (outReg : UInt8) (count i : Nat) {view : View} (scope : Scope)
    (kept : (emitTupleMembers (emit input first) outReg i count
      view).2.closure <+: closure)
    (fits : SmallClosures (emitTupleMembers (emit input first) outReg i count
      view).2.finished) :
    Performs input closure
      (tupleActs (emit input first) (acts input first · scope) count view)
      (emitTupleMembers (emit input first) outReg i count
        view).1.instructions := by
  induction count generalizing i view with
  | zero => exact .nil
  | succ count ih =>
      have later := emitTupleMembers_continues (emit_continues input first)
        outReg count (i + 1) (emit input first view).view
      have store : Aside (.storea64 outReg (UInt16.ofNat i)
          (emit input first view).reg) :=
        ⟨rfl, List.forall_mem_singleton.mpr nofun⟩
      exact (firstActs scope (later.closure.trans kept)
        (fits.earlier later.finished)).append (.cons store (ih (i + 1) kept fits))

/-- An expression's code performs its acts. -/
theorem emit_performs (small : closure.length ≤ 16) (expression : Expression)
    {view : View} (scope : Scope)
    (kept : (emit input expression view).view.closure <+: closure)
    (fits : SmallClosures (emit input expression view).view.finished) :
    Performs input closure (acts input expression view scope)
      (emit input expression view).code.instructions := by
  induction expression using Expression.functionInduction
    generalizing view scope with
  | integerConstant range literalValue =>
      exact .cons (literalInstruction_aside _ _) .nil
  | true_ range => exact .cons (literalInstruction_aside _ _) .nil
  | false_ range => exact .cons (literalInstruction_aside _ _) .nil
  | error range => exact .nil
  | invalid range => exact .nil
  | tupleFinal range first firstIh => exact .nil
  | identifier range id => exact emitIdentifier_performs small scope kept
  | let_ range id value body valueIh bodyIh =>
      let emitted := emit input value view
      have later := emit_continues input body
        (emitted.view.push id emitted.reg)
      exact (valueIh scope (later.closure.trans kept)
        (fits.earlier later.finished)).append (bodyIh _ kept fits)
  | letrecFunction range id lambdaRange lambdaId lambdaBody body valueIh
      bodyIh =>
      let inner := view.take.push id view.nextReg
      let function := emitLambdaImpl input lambdaId (emit input lambdaBody) id
        view.nextReg inner
      have later := emit_continues input body function.view
      have taken : inner.registers = view.registers + 1 := rfl
      have created := emitLambdaImpl_performs small lambdaId id lambdaBody
        taken (scope.bind id view.nextReg) (later.closure.trans kept)
        (fits.earlier later.finished)
      exact created.append (bodyIh _ kept fits)
  | letrecOther range id value body notLambda valueIh bodyIh =>
      rw [emit_letrec_other notLambda, acts_letrec_other notLambda]
      exact .nil
  | lambda range id body bodyIh =>
      have taken : view.take.registers = view.registers + 1 := rfl
      exact emitLambdaImpl_performs small id invalidSymbol body taken scope kept
        fits
  | apply range function argument functionIh argumentIh =>
      have later := emit_continues input argument (emit input function view).view
      have call : Aside (.call (emit input function view).reg
          (emit input argument (emit input function view).view).reg
          (emit input argument (emit input function view).view).view.nextReg) :=
        ⟨rfl, List.forall_mem_singleton.mpr (by simp)⟩
      exact (functionIh scope (later.closure.trans kept)
        (fits.earlier later.finished)).append ((argumentIh scope kept fits).snoc call)
  | binary range operator left right leftIh rightIh =>
      have later := emit_continues input right (emit input left view).view
      have out := emitBinary_continues input range operator (emit input left)
        (emit input right) view
      have rightKept := out.closure.trans kept
      have rightFits := fits.earlier out.finished
      have leftRun := leftIh scope (later.closure.trans rightKept)
        (rightFits.earlier later.finished)
      have rightRun := rightIh scope rightKept rightFits
      simp only [emit, emitBinary]
      split
      · rename_i instruction chosen
        exact leftRun.append (rightRun.snoc (binaryInstruction_aside chosen))
      · refine leftRun.append (rightRun.before rfl ?_)
        rintro i member
        cases member
  | unary range operator arg argIh =>
      have out := emitUnary_continues input range operator (emit input arg) view
      have argRun := argIh scope (out.closure.trans kept) (fits.earlier out.finished)
      simp only [emit, emitUnary]
      split
      · rename_i instruction chosen
        exact argRun.snoc (unaryInstruction_aside chosen)
      · refine argRun.before rfl ?_
        rintro i member
        cases member
  | if_ range test thenArm elseArm testIh thenIh elseIh =>
      have elseLater := emit_continues input elseArm
        (emit input thenArm (emit input test view).view).view
      have thenLater := emit_continues input thenArm (emit input test view).view
      have thenKept := elseLater.closure.trans kept
      have thenFits := fits.earlier elseLater.finished
      exact (testIh scope (thenLater.closure.trans thenKept)
        (thenFits.earlier thenLater.finished)).append
        ((thenIh scope thenKept thenFits).branch
          ((elseIh scope kept fits).move _ _) _)
  | tuple range first rest length firstIh restIh =>
      have create : Aside (.newTuple view.nextReg view.take.nextReg) :=
        ⟨rfl, List.forall_mem_singleton.mpr (by simp)⟩
      exact .cons (literalInstruction_aside _ _) (.cons create
        (emitTupleMembers_performs firstIh view.take.nextReg length 0 scope
          kept fits))

end

/-! ## When the slots are filled as they are laid out -/

/-- Where a symbol is kept is apart from the register of a new closure. -/
def Scope.Apart (scope : Scope) (register : UInt8) (symbol : Symbol) : Prop :=
  match scope.register symbol with
  | some reg => reg ≠ register
  | none => register ≠ 0

/--
Nothing gets in the way of filling a new closure: no search for a symbol of its
list is obstructed, and no symbol is kept in, or reached through, the register
of the closure itself.
-/
structure Creation.Undisturbed (input : CompileInput) (creation : Creation) :
    Prop where
  searches : ∀ event ∈ closedSearches creation.scope
    (creation.function.closure input) creation.view, event.Unobstructed
  registers : ∀ symbol ∈ creation.function.closure input,
    creation.scope.Apart creation.register symbol

instance (scope : Scope) (register : UInt8) :
    DecidablePred (scope.Apart register) := fun symbol =>
  match found : scope.register symbol with
  | some reg => decidable_of_iff (reg ≠ register) (by simp [Scope.Apart, found])
  | none => decidable_of_iff (register ≠ 0) (by simp [Scope.Apart, found])

instance (input : CompileInput) :
    DecidablePred (Creation.Undisturbed input) := fun creation =>
  -- Symbols are finite, but only those of the list are tried.
  letI := List.decidableBAll (creation.scope.Apart creation.register)
    (creation.function.closure input)
  decidable_of_iff
    ((∀ event ∈ closedSearches creation.scope
        (creation.function.closure input) creation.view, event.Unobstructed) ∧
      ∀ symbol ∈ creation.function.closure input,
        creation.scope.Apart creation.register symbol)
    ⟨fun both => ⟨both.1, both.2⟩, fun both => ⟨both.1, both.2⟩⟩

/-- A search is not obstructed exactly when it finds the symbol's register. -/
theorem unobstructed_iff {view : View} {scope : Scope} {id : Symbol}
    (sound : (Event.search view scope id).Sound) :
    (Event.search view scope id).Unobstructed ↔
      View.search view.bindings id view.top = scope.register id := by
  rcases sound with ⟨tracks, bound⟩
  rcases Option.isSome_iff_exists.mp bound with ⟨binder, resolved⟩
  have register : scope.register id =
      if binder.depth = scope.depth then some binder.reg else none := by
    by_cases here : binder.depth = scope.depth
    · simp [Scope.register, resolved, here]
    · simp [Scope.register, resolved, here]
  rw [← search_resolved_iff tracks, register]
  constructor
  · exact fun resolves => resolves binder resolved
  · intro found other same
    cases resolved.symm.trans same
    exact found

section

variable {scope : Scope} {closure : List Symbol} {register : UInt8} {i : Nat}
  {symbol : Symbol} {symbols : List Symbol}
  {following rest : List Instruction}

theorem fills_bound_iff {slot : UInt16} {reg : UInt8} :
    Fills scope closure register i (symbol :: symbols)
        (.storea64 register slot reg :: following) rest ↔
      scope.register symbol = some reg ∧ reg ≠ register ∧
        slot.toNat = i + 1 ∧
        Fills scope closure register (i + 1) symbols following rest := by
  constructor
  · intro fills
    cases fills with
    | bound location other slot_ later => exact ⟨location, other, slot_, later⟩
  · rintro ⟨location, other, slot_, later⟩
    exact .bound location other slot_ later

theorem fills_captured_iff {source slot : UInt16} {temporary : UInt8} :
    Fills scope closure register i (symbol :: symbols)
        (.loada64 0 source temporary :: .storea64 register slot temporary ::
          following) rest ↔
      scope.register symbol = none ∧ register ≠ 0 ∧ temporary ≠ register ∧
        source.toNat = closure.idxOf symbol + 1 ∧ slot.toNat = i + 1 ∧
        Fills scope closure register (i + 1) symbols following rest := by
  constructor
  · intro fills
    cases fills with
    | captured location other apart source_ slot_ later =>
        exact ⟨location, other, apart, source_, slot_, later⟩
  · rintro ⟨location, other, apart, source_, slot_, later⟩
    exact .captured location other apart source_ slot_ later

end

theorem register_ne {first second : Nat} (above : first < second)
    (room : second < first + 256) : UInt8.ofNat second ≠ UInt8.ofNat first := by
  intro same
  have same := congrArg UInt8.toNat same
  simp only [UInt8.toNat_ofNat'] at same
  omega

theorem storeSlot_toNat {i : Nat} (small : i < 16) :
    (UInt16.ofNat (i + 1)).toNat = i + 1 := by
  rw [UInt16.toNat_ofNat']
  omega

/--
The code that fills a new closure fills it as laid out exactly when no search is
obstructed and every symbol is kept apart from the closure's register.
-/
theorem emitClosedValues_fills_iff {scope : Scope} {closure : List Symbol}
    (small : closure.length ≤ 16) {registers : Nat} {symbols : List Symbol}
    {view : View} (i : Nat) {after rest : List Instruction}
    (slots : i + symbols.length ≤ 16) (above : registers < view.registers)
    (room : view.registers + symbols.length ≤ registers + 256)
    (sound : ∀ event ∈ closedSearches scope symbols view, event.Sound)
    (kept : (emitClosedValues (UInt8.ofNat registers) i symbols
      view).2.closure <+: closure) :
    Fills scope closure (UInt8.ofNat registers) i symbols
        ((emitClosedValues (UInt8.ofNat registers) i symbols
          view).1.instructions ++ after) rest ↔
      ((∀ event ∈ closedSearches scope symbols view, event.Unobstructed) ∧
        ∀ symbol ∈ symbols, scope.Apart (UInt8.ofNat registers) symbol) ∧
        rest = after := by
  induction symbols generalizing view i with
  | nil =>
      constructor
      · intro fills
        cases fills
        exact ⟨⟨nofun, nofun⟩, rfl⟩
      · rintro ⟨-, rfl⟩
        exact .done i rest
  | cons symbol symbols ih =>
      rw [List.length_cons] at slots room
      have own := sound _ (List.mem_cons_self ..)
      have slot := storeSlot_toNat (show i < 16 by omega)
      have later := (emitClosedValues_continues (UInt8.ofNat registers) symbols
        (i + 1) (emitIdentifier symbol view).view).closure.trans kept
      have grows := (emitIdentifier_continues symbol view).registers
      have following := @ih (emitIdentifier symbol view).view (i + 1)
      rw [closedSearches, List.forall_mem_cons, List.forall_mem_cons,
        unobstructed_iff own]
      cases found : View.search view.bindings symbol view.top with
      | some reg =>
          have same : (emitIdentifier symbol view).view.registers =
              view.registers := by
            rw [emitIdentifier_bound found]
            rfl
          have rest_ := following (by omega) (by omega) (by omega)
            (fun event member => sound event (List.mem_cons_of_mem _ member))
            kept
          have code : (emitClosedValues (UInt8.ofNat registers) i
              (symbol :: symbols) view).1.instructions ++ after =
              .storea64 (UInt8.ofNat registers) (UInt16.ofNat (i + 1)) reg ::
                ((emitClosedValues (UInt8.ofNat registers) (i + 1) symbols
                  (emitIdentifier symbol view).view).1.instructions ++
                  after) := by
            simp only [emitClosedValues, Code.instructions,
              emitIdentifier_bound found]
            rfl
          rw [code, fills_bound_iff, rest_]
          unfold Scope.Apart
          constructor
          · rintro ⟨location, other, -, ⟨searches, apart⟩, same⟩
            rw [location]
            exact ⟨⟨⟨rfl, searches⟩, other, apart⟩, same⟩
          · rintro ⟨⟨⟨location, searches⟩, other, apart⟩, same⟩
            rw [← location] at other
            exact ⟨location.symm, other, slot, ⟨searches, apart⟩, same⟩
      | none =>
          have one : (emitIdentifier symbol view).view.registers =
              view.registers + 1 := by
            rw [emitIdentifier_closed found]
            rfl
          have rest_ := following (by omega) (by omega) (by omega)
            (fun event member => sound event (List.mem_cons_of_mem _ member))
            kept
          rw [emitIdentifier_closed found] at later
          rcases View.close_idxOf later with ⟨member, sameSlot⟩
          have source := slot_toNat member small
          rw [← sameSlot] at source
          have temporary : view.nextReg ≠ UInt8.ofNat registers :=
            register_ne above (by omega)
          have code : (emitClosedValues (UInt8.ofNat registers) i
              (symbol :: symbols) view).1.instructions ++ after =
              .loada64 0 (UInt16.ofNat (view.closure.idxOf symbol) + 1)
                view.nextReg ::
              .storea64 (UInt8.ofNat registers) (UInt16.ofNat (i + 1))
                view.nextReg ::
                ((emitClosedValues (UInt8.ofNat registers) (i + 1) symbols
                  (emitIdentifier symbol view).view).1.instructions ++
                  after) := by
            simp only [emitClosedValues, Code.instructions,
              emitIdentifier_closed found]
            rfl
          rw [code, fills_captured_iff, rest_, ← sameSlot]
          unfold Scope.Apart
          constructor
          · rintro ⟨location, other, -, -, -, ⟨searches, apart⟩, same⟩
            rw [location]
            exact ⟨⟨⟨rfl, searches⟩, other, apart⟩, same⟩
          · rintro ⟨⟨⟨location, searches⟩, other, apart⟩, same⟩
            rw [← location] at other
            exact ⟨location.symm, other, temporary, source, slot,
              ⟨searches, apart⟩, same⟩

/-- Instructions have one first closure creation. -/
theorem NoClosure.split {first second rest rest' : List Instruction}
    {funcidReg funcidReg' register register' : UInt8}
    (firstNone : NoClosure first) (secondNone : NoClosure second)
    (same : first ++ .newClosure funcidReg register :: rest =
      second ++ .newClosure funcidReg' register' :: rest') :
    first = second ∧ funcidReg = funcidReg' ∧ register = register' ∧
      rest = rest' := by
  induction first generalizing second with
  | nil =>
      cases second with
      | nil => simpa [and_assoc] using same
      | cons i second =>
          rw [List.nil_append, List.cons_append, List.cons.injEq] at same
          exact absurd same.1.symm (secondNone i (List.mem_cons_self ..) _ _)
  | cons j first ih =>
      cases second with
      | nil =>
          rw [List.nil_append, List.cons_append, List.cons.injEq] at same
          exact absurd same.1 (firstNone j (List.mem_cons_self ..) _ _)
      | cons i second =>
          rw [List.cons_append, List.cons_append, List.cons.injEq] at same
          rcases ih (fun k member => firstNone k (List.mem_cons_of_mem _ member))
            (fun k member => secondNone k (List.mem_cons_of_mem _ member))
            same.2 with ⟨equal, others⟩
          exact ⟨by rw [equal, same.1], others⟩

/-- Inversion of a layout at its first creation. -/
theorem lays_create_iff {input : CompileInput} {closure : List Symbol}
    {creation : Creation} {creations : List Creation}
    {before following : List Instruction} {funcidReg register : UInt8}
    (none_ : NoClosure before) :
    Lays input closure (creation :: creations)
        (before ++
          literalInstruction (UInt64.ofNat creation.function.id) funcidReg ::
          .newClosure funcidReg register :: following) ↔
      ∃ rest, Fills creation.scope closure register 0
          (creation.function.closure input) following rest ∧
        Lays input closure creations rest := by
  constructor
  · intro lays
    generalize whole : before ++ _ :: _ :: following = instructions at lays
    cases lays with
    | @create _ _ before' following' rest funcidReg' register' none_' fills
        later =>
        have literal := (literalInstruction_aside
          (UInt64.ofNat creation.function.id) funcidReg).2
        have literal' := (literalInstruction_aside
          (UInt64.ofNat creation.function.id) funcidReg').2
        rcases (none_.append literal).split (none_'.append literal')
          (by simpa using whole) with ⟨-, -, rfl, rfl⟩
        exact ⟨rest, fills, later⟩
  · rintro ⟨rest, fills, later⟩
    exact .create none_ fills later

/-- Closures that are built are laid out exactly when none is disturbed. -/
theorem Built.lays_iff {input : CompileInput} {closure : List Symbol}
    {creations : List Creation} {instructions : List Instruction}
    (built : Built input closure creations instructions)
    (small : closure.length ≤ 16)
    (sound : ∀ c ∈ creations, ∀ event ∈ closedSearches c.scope
      (c.function.closure input) c.view, event.Sound) :
    Lays input closure creations instructions ↔
      ∀ c ∈ creations, c.Undisturbed input := by
  induction built with
  | done none_ => exact ⟨fun _ => nofun, fun _ => .done none_⟩
  | @create creation creations before after funcidReg none_ begins later ih =>
      rcases begins with ⟨⟨registers, register, taken⟩, fits, kept⟩
      rw [List.forall_mem_cons] at sound
      rw [register] at kept
      have fills := fun rest => @emitClosedValues_fills_iff creation.scope
        closure small registers _ creation.view 0 after rest (by omega)
        (by omega) (by omega) sound.1 kept
      rw [lays_create_iff none_, List.forall_mem_cons, ← ih sound.2,
        Creation.fill, register]
      simp only [fills]
      constructor
      · rintro ⟨rest, ⟨⟨searches, registers⟩, rfl⟩, laid⟩
        exact ⟨⟨searches, register ▸ registers⟩, laid⟩
      · rintro ⟨⟨searches, registers⟩, laid⟩
        exact ⟨after, ⟨⟨searches, register ▸ registers⟩, rfl⟩, laid⟩

/-! ## The closures of a module -/

/--
Creators and callees agree on the closures of a module: the functions that were
finished, with their code, load exactly the symbols that they read from the slots
of those symbols, and lay out exactly the closures that they create; the entry
function closes over nothing.
-/
structure ClosuresAgree (input : CompileInput) (expression : Expression)
    (after : CompileState) : Prop where
  finished : after.finished =
    (moduleFunctions input expression).map fun f => (f.id, f.entry input)
  decodes : ∀ f ∈ moduleFunctions input expression,
    DecodesTo (f.entry input) (f.instructions input)
  loads : ∀ f ∈ moduleFunctions input expression,
    Loads (f.closure input) (f.reads input) (f.instructions input)
  lays : ∀ f ∈ moduleFunctions input expression,
    Lays input (f.closure input) (f.creations input) (f.instructions input)
  entry : (entryFunction input expression).closure input = []

section

variable {input : CompileInput} {expression : Expression} {funcId : Nat}
  {after : CompileState}

/-- What a function's code does, whatever its searches find. -/
theorem moduleFunctions_perform
    (returns : compileModule input expression = .ok (funcId, after)) :
    ∀ f ∈ moduleFunctions input expression, (f.closure input).length ≤ 16 ∧
      Performs input (f.closure input) (acts input f.body f.view f.scope)
        (f.instructions input) := by
  intro f member
  have small := compileModule_small returns
  have kept : (f.emission input).view.finished <+: after.finished := by
    rcases compileModule_ok returns with ⟨-, -, -, finishedIs, -⟩
    rw [finishedIs]
    refine List.IsPrefix.trans ?_ (List.prefix_append _ _)
    rcases List.mem_append.mp member with nested | own
    · exact (functions_kept input expression _ _ f nested).2
    · rw [List.mem_singleton.mp own]
      exact List.prefix_rfl
  have fits := small.earlier kept
  rw [compileModule_functions returns] at small
  have own := small _ (List.mem_map_of_mem member)
  exact ⟨own, emit_performs own f.body f.scope List.prefix_rfl fits⟩

/-- The searches of a module's functions are in the trace of its entry. -/
theorem moduleFunctions_trace :
    ∀ f ∈ moduleFunctions input expression,
      searchesOf input (acts input f.body f.view f.scope) ⊆
        entryTrace input expression := by
  intro f member
  refine List.Subset.trans (acts_trace f.body f.view f.scope) ?_
  rcases List.mem_append.mp member with nested | own
  · exact fun event inside => functions_trace expression _ _
      (List.mem_flatMap.mpr ⟨f, nested, inside⟩)
  · rw [List.mem_singleton.mp own]
    exact List.Subset.refl _

/--
The closures of a closed expression's module agree exactly when nothing gets in
the way of filling one.
-/
theorem closed_closures_agree_iff
    (returns : compileModule input expression = .ok (funcId, after))
    (quiet : after.errors = []) (closed : freeSymbols expression = []) :
    ClosuresAgree input expression after ↔
      ∀ f ∈ moduleFunctions input expression, ∀ c ∈ f.creations input,
        c.Undisturbed input := by
  have performs := moduleFunctions_perform returns
  have sound := (entry_traced closed input).sound
  have lays_iff : ∀ f ∈ moduleFunctions input expression,
      Lays input (f.closure input) (f.creations input) (f.instructions input) ↔
        ∀ c ∈ f.creations input, c.Undisturbed input := by
    intro f member
    refine (performs f member).2.built.lays_iff (performs f member).1
      fun c created event searched => ?_
    rcases List.mem_filterMap.mp created with ⟨act, inActs, creates⟩
    refine sound event (moduleFunctions_trace f member ?_)
    refine List.mem_flatMap.mpr ⟨act, inActs, ?_⟩
    cases act with
    | identifier view scope id => cases creates
    | closure creation =>
        cases creates
        exact searched
  constructor
  · exact fun agree f member => (lays_iff f member).mp (agree.lays f member)
  · intro undisturbed
    constructor
    · exact compileModule_functions returns
    · exact fun f member =>
        Function.entry_decodes (moduleFunctions_quiet returns quiet f member)
    · exact fun f member => (performs f member).2.loads
    · exact fun f member => (lays_iff f member).mpr (undisturbed f member)
    · exact entry_closure closed input

end

end Millie.Compiler
