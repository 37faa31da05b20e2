import Millie.Compiler.Apart
import Millie.Compiler.Totality
import Millie.Compiler.Closures
import Mathlib.Data.List.Dedup

/-!
# The growable buffers of a compilation

The block of a binding array holds eight entries and that of a closure list
sixteen, but both grow only when they hold sixty-four.  The code buffer is grown
in time and keeps what was written, until its capacity overflows an `int`.  All
writes are therefore inside exactly when no function nests more than eight
bindings, reads more than sixteen different symbols from its closure, or needs
more than 2^30 bytes of code.
-/

namespace Millie.Compiler

open Millie.Symbols Millie.Syntax Millie.Machine

/-! ## The depth of the binding array -/

/-- The entry of the binding array that an operation writes. -/
def Operation.pushed : Operation → Option Nat
  | push index => some index
  | _ => none

/-- All entries of the binding array that operations write are below a bound. -/
def PushesBelow (bound : Nat) (operations : List Operation) : Prop :=
  ∀ index ∈ operations.filterMap Operation.pushed, index < bound

section

variable {bound : Nat}

@[simp]
theorem pushesBelow_nil : PushesBelow bound [] :=
  nofun

@[simp]
theorem pushesBelow_append {first second : List Operation} :
    PushesBelow bound (first ++ second) ↔
      PushesBelow bound first ∧ PushesBelow bound second := by
  rw [PushesBelow, List.filterMap_append, List.forall_mem_append]
  rfl

@[simp]
theorem pushesBelow_push {index : Nat} {rest : List Operation} :
    PushesBelow bound (.push index :: rest) ↔
      index < bound ∧ PushesBelow bound rest :=
  List.forall_mem_cons

@[simp]
theorem pushesBelow_register {reg : UInt8} {rest : List Operation} :
    PushesBelow bound (.register reg :: rest) ↔ PushesBelow bound rest :=
  Iff.rfl

theorem pushesBelow_none {operations : List Operation}
    (none_ : operations.filterMap Operation.pushed = []) :
    PushesBelow bound operations := by
  rw [PushesBelow, none_]
  exact nofun

theorem identifierOperations_pushes (id : Symbol) (view : View) :
    (identifierOperations id view).filterMap Operation.pushed = [] := by
  unfold identifierOperations
  split
  · rfl
  · split <;> rfl

theorem closedOperations_pushes (symbols : List Symbol) (view : View) :
    (closedOperations symbols view).filterMap Operation.pushed = [] := by
  induction symbols generalizing view with
  | nil => rfl
  | cons symbol symbols ih =>
      rw [closedOperations, List.filterMap_append, ih,
        identifierOperations_pushes]
      rfl

theorem lambdaOperations_pushes (input : CompileInput)
    (lambdaId selfId : Symbol) (body : View → Emission) (view : View) :
    PushesBelow bound (lambdaOperations input lambdaId selfId body view) :=
  pushesBelow_none (closedOperations_pushes _ _)

theorem tupleOperations_pushes {first : View → Emission}
    {firstOperations : View → List Operation} {top depth : Nat}
    (continues : ∀ view, Continues view (first view).view)
    (firstPushes : ∀ view : View, view.top = top →
      (PushesBelow bound (firstOperations view) ↔ top + depth ≤ bound))
    (count : Nat) {view : View} (starts : view.top = top) :
    PushesBelow bound (tupleOperations first firstOperations count view) ↔
      count = 0 ∨ top + depth ≤ bound := by
  induction count generalizing view with
  | zero => exact iff_of_true nofun (.inl rfl)
  | succ count ih =>
      have later := ih ((continues view).top.trans starts)
      rw [tupleOperations, pushesBelow_append, firstPushes view starts, later]
      simp only [Nat.succ_ne_zero, false_or]
      exact and_iff_left_of_imp .inr

/-- The pushes of an expression reach exactly as far as its depth. -/
theorem pushes_below_iff (input : CompileInput) (expression : Expression)
    (view : View) (begun : view.top ≤ bound) :
    PushesBelow bound (operations input expression view) ↔
      view.top + bindingDepth expression ≤ bound := by
  induction expression using Expression.functionInduction
    generalizing view with
  | integerConstant | true_ | false_ | error | invalid | tupleFinal =>
      exact iff_of_true (pushesBelow_none rfl) begun
  | identifier range id =>
      exact iff_of_true
        (pushesBelow_none (identifierOperations_pushes id view)) begun
  | let_ range id value body valueIh bodyIh =>
      let emitted := emit input value view
      have top : emitted.view.top = view.top :=
        (emit_continues input value view).top
      have inner := bodyIh (emitted.view.push id emitted.reg)
      change emitted.view.top + 1 ≤ bound → (_ ↔ emitted.view.top + 1 + _ ≤ _)
        at inner
      rw [operations, pushesBelow_append, pushesBelow_push, valueIh view begun,
        bindingDepth]
      rw [top] at inner ⊢
      by_cases below : view.top < bound
      · rw [inner below]
        omega
      · exact iff_of_false (fun both => below both.2.1) (by omega)
  | letrecFunction range id lambdaRange lambdaId lambdaBody body valueIh
      bodyIh =>
      let start := view.take.push id view.nextReg
      let function := emitLambdaImpl input lambdaId (emit input lambdaBody) id
        view.nextReg start
      have top : function.view.top = view.top + 1 :=
        (emitLambdaImpl_continues input (emit_continues input lambdaBody)
          lambdaId id view.nextReg start).top
      have inner := bodyIh function.view
      rw [operations, pushesBelow_register, pushesBelow_push,
        pushesBelow_append,
        and_iff_right (lambdaOperations_pushes input lambdaId id _ start),
        bindingDepth]
      rw [top] at inner
      by_cases below : view.top < bound
      · rw [inner below]
        omega
      · exact iff_of_false (fun both => below both.1) (by omega)
  | letrecOther range id value body notLambda valueIh bodyIh =>
      rw [operations_letrec_other notLambda,
        bindingDepth_letrec_other notLambda]
      exact iff_of_true (pushesBelow_none rfl) begun
  | lambda range id body bodyIh =>
      exact iff_of_true (lambdaOperations_pushes input id _ _ _) begun
  | apply range function argument functionIh argumentIh =>
      have top := (emit_continues input function view).top
      have second := argumentIh (emit input function view).view (top ▸ begun)
      rw [operations, pushesBelow_append, pushesBelow_append,
        pushesBelow_register, and_iff_left pushesBelow_nil, second, top,
        functionIh view begun, bindingDepth]
      omega
  | binary range operator left right leftIh rightIh =>
      have top := (emit_continues input left view).top
      have second := rightIh (emit input left view).view (top ▸ begun)
      rw [operations, pushesBelow_append, pushesBelow_append,
        pushesBelow_register, and_iff_left pushesBelow_nil, second, top,
        leftIh view begun, bindingDepth]
      omega
  | unary range operator arg argIh =>
      rw [operations, pushesBelow_append, pushesBelow_register,
        and_iff_left pushesBelow_nil, argIh view begun, bindingDepth]
  | if_ range test thenArm elseArm testIh thenIh elseIh =>
      let tested := (emit input test view).view
      have testTop : tested.top = view.top := (emit_continues input test view).top
      have thenTop : (emit input thenArm tested).view.top = view.top :=
        (emit_continues input thenArm tested).top.trans testTop
      have second := thenIh tested (testTop ▸ begun)
      have third := elseIh (emit input thenArm tested).view (thenTop ▸ begun)
      rw [operations, pushesBelow_append, pushesBelow_append, second, third,
        testTop, thenTop, testIh view begun, bindingDepth]
      omega
  | tuple range first rest length firstIh restIh =>
      have members := tupleOperations_pushes (emit_continues input first)
        (fun other top => top ▸ firstIh other (top ▸ begun)) length
        (show view.take.take.top = view.top from rfl)
      rw [operations, pushesBelow_register, pushesBelow_register, members,
        bindingDepth]
      by_cases empty : length = 0
      · simpa [empty] using begun
      · simp only [empty, if_false, false_or]

/-- A fresh function's pushes, those around its body included. -/
theorem function_pushes_iff (input : CompileInput) (f : Function) :
    PushesBelow bound (f.operations input) ↔
      f.view.top + bindingDepth f.body ≤ bound := by
  have registers : PushesBelow bound ((List.range f.view.registers).map
      fun k => .register (UInt8.ofNat k)) := by
    apply pushesBelow_none
    rw [List.filterMap_map]
    exact List.filterMap_none _
  have starts : PushesBelow bound ((List.range f.view.top).map .push) ↔
      f.view.top ≤ bound := by
    rw [PushesBelow, List.filterMap_map]
    change (∀ index ∈ List.filterMap some _, _) ↔ _
    rw [List.filterMap_some]
    simp only [List.mem_range]
    constructor
    · intro all
      by_contra beyond
      exact absurd (all bound (by omega)) (Nat.lt_irrefl bound)
    · intro fits index inside
      omega
  rw [Function.operations, pushesBelow_append, pushesBelow_append,
    and_iff_right registers, starts]
  by_cases begun : f.view.top ≤ bound
  · rw [and_iff_right begun, pushes_below_iff input f.body f.view begun]
  · exact iff_of_false (fun both => begun both.1) (by omega)

end

/-! ## The symbols of the closure list -/

/-- A closure list is another with some symbols recorded after it. -/
def Records (before after symbols : List Symbol) : Prop :=
  after = symbols.foldl View.close before

namespace Records

variable {before middle after first second : List Symbol}

theorem nil (before : List Symbol) : Records before before [] :=
  rfl

theorem trans (left : Records before middle first)
    (right : Records middle after second) :
    Records before after (first ++ second) := by
  rw [Records, List.foldl_append, ← left]
  exact right

theorem nodup {symbols : List Symbol} (records : Records before after symbols)
    (distinct : before.Nodup) : after.Nodup := by
  induction symbols generalizing before with
  | nil => exact records ▸ distinct
  | cons symbol symbols ih =>
      refine ih records ?_
      unfold View.close
      split
      · exact distinct
      · rename_i fresh
        rw [List.nodup_append]
        refine ⟨distinct, List.nodup_singleton symbol, ?_⟩
        rintro old member new fresh_ rfl
        exact fresh (List.mem_singleton.mp fresh_ ▸ member)

theorem mem {symbols : List Symbol} (records : Records before after symbols)
    (id : Symbol) : id ∈ after ↔ id ∈ before ∨ id ∈ symbols := by
  induction symbols generalizing before with
  | nil => rw [records, List.foldl_nil, or_iff_left List.not_mem_nil]
  | cons symbol symbols ih =>
      rw [ih records, List.mem_cons, View.close]
      split
      · rename_i known
        constructor
        · rintro (old | new)
          · exact .inl old
          · exact .inr (.inr new)
        · rintro (old | rfl | new)
          · exact .inl old
          · exact .inl known
          · exact .inr new
      · rw [List.mem_append, List.mem_singleton, or_assoc]

/-- A closure list that starts empty has every recorded symbol once. -/
theorem length {symbols : List Symbol} (records : Records [] after symbols) :
    after.length = symbols.dedup.length := by
  apply List.Perm.length_eq
  rw [List.perm_ext_iff_of_nodup (records.nodup List.nodup_nil)
    (List.nodup_dedup symbols)]
  intro id
  rw [records.mem id, List.mem_dedup, or_iff_right List.not_mem_nil]

end Records

section

variable {input : CompileInput}

theorem readSymbols_append (first second : List Act) :
    readSymbols input (first ++ second) =
      readSymbols input first ++ readSymbols input second := by
  rw [readSymbols, searchesOf_append, List.filterMap_append]
  rfl

theorem emitIdentifier_records (id : Symbol) (view : View) (scope : Scope) :
    Records view.closure (emitIdentifier id view).view.closure
      ([Event.search view scope id].filterMap Event.read) := by
  cases found : View.search view.bindings id view.top with
  | some reg =>
      rw [emitIdentifier_bound found]
      simp only [List.filterMap_cons, Event.read, found, List.filterMap_nil]
      exact .nil _
  | none =>
      rw [emitIdentifier_closed found]
      simp only [List.filterMap_cons, Event.read, found, List.filterMap_nil]
      rfl

theorem emitClosedValues_records (closureRegister : UInt8) (scope : Scope)
    (symbols : List Symbol) (i : Nat) (view : View) :
    Records view.closure
      (emitClosedValues closureRegister i symbols view).2.closure
      ((closedSearches scope symbols view).filterMap Event.read) := by
  induction symbols generalizing i view with
  | nil => exact .nil _
  | cons symbol symbols ih =>
      have first := emitIdentifier_records symbol view scope
      have rest := ih (i + 1) (emitIdentifier symbol view).view
      have searches : closedSearches scope (symbol :: symbols) view =
          [.search view scope symbol] ++ closedSearches scope symbols
            (emitIdentifier symbol view).view := rfl
      rw [searches, List.filterMap_append]
      exact first.trans rest

/-- What an expression records is what its acts read. -/
def EmitsRecords (input : CompileInput) (expression : Expression) : Prop :=
  ∀ view scope, Records view.closure (emit input expression view).view.closure
    (readSymbols input (acts input expression view scope))

theorem emitLambdaImpl_records (lambdaId selfId : Symbol) (body : Expression)
    (closureRegister : UInt8) (view : View) (scope : Scope) :
    Records view.closure
      (emitLambdaImpl input lambdaId (emit input body) selfId closureRegister
        view).view.closure
      (readSymbols input
        [lambdaAct input lambdaId selfId body closureRegister view scope]) := by
  have closed := emitClosedValues_records closureRegister scope
    (emitBody input lambdaId selfId (emit input body) view).view.closure 0
    (closureView input lambdaId selfId (emit input body) view)
  rw [readSymbols, searchesOf, List.flatMap_singleton]
  exact closed

theorem emitTupleMembers_records {first : Expression}
    (firstRecords : EmitsRecords input first) (scope : Scope)
    (outReg : UInt8) (count i : Nat) (view : View) :
    Records view.closure
      (emitTupleMembers (emit input first) outReg i count view).2.closure
      (readSymbols input (tupleActs (emit input first)
        (acts input first · scope) count view)) := by
  induction count generalizing i view with
  | zero => exact .nil _
  | succ count ih =>
      rw [tupleActs, readSymbols_append]
      exact (firstRecords view scope).trans (ih (i + 1) _)

theorem emit_records (input : CompileInput) (expression : Expression) :
    EmitsRecords input expression := by
  induction expression using Expression.functionInduction with
  | integerConstant | true_ | false_ | error | invalid | tupleFinal =>
      exact fun _ _ => .nil _
  | identifier range id =>
      exact fun view scope => emitIdentifier_records id view scope
  | let_ range id value body valueIh bodyIh =>
      intro view scope
      let emitted := emit input value view
      rw [acts, readSymbols_append]
      exact (valueIh view scope).trans
        (bodyIh (emitted.view.push id emitted.reg) _)
  | letrecFunction range id lambdaRange lambdaId lambdaBody body valueIh
      bodyIh =>
      intro view scope
      rw [acts, ← List.singleton_append, readSymbols_append]
      exact (emitLambdaImpl_records lambdaId id lambdaBody view.nextReg
        (view.take.push id view.nextReg) _).trans (bodyIh _ _)
  | letrecOther range id value body notLambda valueIh bodyIh =>
      intro view scope
      rw [acts_letrec_other notLambda, emit_letrec_other notLambda]
      exact .nil _
  | lambda range id body bodyIh =>
      exact fun view scope => emitLambdaImpl_records id invalidSymbol body
        view.nextReg view.take scope
  | apply range function argument functionIh argumentIh =>
      intro view scope
      rw [acts, readSymbols_append]
      exact (functionIh view scope).trans (argumentIh _ scope)
  | binary range operator left right leftIh rightIh =>
      intro view scope
      have closure := (emitBinary_left input range operator (emit input left)
        (emit input right) view).2
      rw [acts, readSymbols_append]
      exact closure ▸ (leftIh view scope).trans (rightIh _ scope)
  | unary range operator arg argIh =>
      intro view scope
      have closure :=
        (emitUnary_left input range operator (emit input arg) view).2
      exact closure ▸ argIh view scope
  | if_ range test thenArm elseArm testIh thenIh elseIh =>
      intro view scope
      rw [acts, readSymbols_append, readSymbols_append]
      exact (testIh view scope).trans
        ((thenIh _ scope).trans (elseIh _ scope))
  | tuple range first rest length firstIh restIh =>
      exact fun view scope => emitTupleMembers_records firstIh scope
        view.take.nextReg length 0 view.take.take

end

/-! ## Writes of a function -/

/--
The function writes only inside the blocks of its two arrays, and asks for no
more code than the capacity can be grown to.
-/
structure Function.WritesInside (input : CompileInput) (f : Function) : Prop where
  bindings : ∀ index, .push index ∈ f.operations input →
    (index + 1) * sizeofCompileBinding ≤ initialBindingCapacity
  closureSymbols : ∀ index, .close index ∈ f.operations input →
    (index + 1) * sizeofSymbol ≤ initialBindingCapacity
  code : ∀ request ∈ f.requests input, request ≤ codeLimit

/-- The function searches its binding array only inside its block. -/
def Function.SearchesInside (input : CompileInput) (f : Function) : Prop :=
  ∀ top, .search top ∈ f.operations input →
    (top + 1) * sizeofCompileBinding ≤ initialBindingCapacity

theorem function_inside_iff (input : CompileInput) (f : Function) :
    f.Inside input ↔ f.WritesInside input ∧ f.SearchesInside input := by
  constructor
  · rintro ⟨arrays, code⟩
    exact ⟨⟨fun index => arrays (.push index), fun index =>
      arrays (.close index), code⟩, fun top => arrays (.search top)⟩
  · rintro ⟨writes, searches⟩
    refine ⟨fun operation member => ?_, writes.code⟩
    cases operation with
    | register reg => exact register_inside reg
    | search top => exact searches top member
    | push index => exact writes.bindings index member
    | close index => exact writes.closureSymbols index member

theorem mem_pushed {operations : List Operation} {index : Nat} :
    index ∈ operations.filterMap Operation.pushed ↔
      .push index ∈ operations := by
  rw [List.mem_filterMap]
  constructor
  · rintro ⟨operation, member, pushed⟩
    cases operation with
    | push other =>
        cases pushed
        exact member
    | register | search | close => cases pushed
  · exact fun member => ⟨_, member, rfl⟩

theorem mem_closesOf {operations : List Operation} {index : Nat} :
    index ∈ closesOf operations ↔ .close index ∈ operations := by
  rw [closesOf, List.mem_filterMap]
  constructor
  · rintro ⟨operation, member, closed⟩
    cases operation with
    | close other =>
        cases closed
        exact member
    | register | search | push => cases closed
  · exact fun member => ⟨_, member, rfl⟩

/-- The closure list of a fresh function is written up to its final length. -/
theorem function_closes_iff {input : CompileInput} {f : Function}
    (fresh : f.view.closure = []) (bound : Nat) :
    (∀ index ∈ closesOf (f.operations input), index < bound) ↔
      (f.reads input).dedup.length ≤ bound := by
  have own : closesOf (f.operations input) =
      closesOf (operations input f.body f.view) := by
    have registers : closesOf ((List.range f.view.registers).map
        fun k => .register (UInt8.ofNat k)) = [] := by
      rw [closesOf, List.filterMap_map]
      exact List.filterMap_none _
    have pushes : closesOf ((List.range f.view.top).map .push) = [] := by
      rw [closesOf, List.filterMap_map]
      exact List.filterMap_none _
    rw [Function.operations, closesOf_append, closesOf_append, registers,
      pushes]
    rfl
  have closes := (operations_next input f.body f.view).closes
  have records := emit_records input f.body f.view f.scope
  rw [fresh] at closes records
  rw [own, closes.below_iff (Nat.zero_le bound), records.length]
  rfl

/-- Every function of a module starts with an empty closure list. -/
theorem moduleFunctions_fresh (input : CompileInput)
    (expression : Expression) :
    ∀ f ∈ moduleFunctions input expression, f.view.closure = [] :=
  moduleFunctions_all (fun _ _ _ _ _ => functionView_closure ..) rfl

theorem function_writes_iff {input : CompileInput} {f : Function}
    (fresh : f.view.closure = []) :
    f.WritesInside input ↔ f.view.top + bindingDepth f.body ≤ 8 ∧
      (f.reads input).dedup.length ≤ 16 ∧ f.codeNeed input ≤ codeLimit := by
  rw [← function_pushes_iff input f, ← function_closes_iff fresh,
    ← f.requests_iff input]
  constructor
  · intro writes
    refine ⟨fun index member => ?_, fun index member => ?_, writes.code⟩
    · exact (push_inside index).mp
        (writes.bindings index (mem_pushed.mp member))
    · exact (close_inside index).mp
        (writes.closureSymbols index (mem_closesOf.mp member))
  · rintro ⟨pushes, closes, code⟩
    refine ⟨fun index member => ?_, fun index member => ?_, code⟩
    · exact (push_inside index).mpr (pushes index (mem_pushed.mpr member))
    · exact (close_inside index).mpr (closes index (mem_closesOf.mpr member))

/-! ## Growth -/

/--
What happens to the buffers of a context when `more` bytes of code are asked
for: there is room for them afterwards, the code buffer is enlarged if there was
none before, what was written is kept, and nothing else changes.  The binding
array and the closure list are not at the count at which they would be grown.
-/
structure GrowsRight (more : Nat) (context grown : CompileContext) : Prop where
  room : context.codeWrite + more ≤ grown.code.size
  larger : context.code.size < context.codeWrite + more →
    context.code.size < grown.code.size
  kept : grown.code.front context.codeWrite =
    context.code.front context.codeWrite
  others : grown =
    { context with code := grown.code, codeCapacity := grown.codeCapacity }
  bindings : context.bindingTop ≠ context.bindingCapacity
  closureSymbols : context.closureCapacity ≠ context.closureTop

theorem contained_grows {context grown : CompileContext} {more : Nat}
    (contained : Contained context) (small : more ≤ initialCodeCapacity)
    (ok : ensureCodeCapacity more context = .ok grown) :
    GrowsRight more context grown := by
  have ensured := ensureCodeCapacity_ok contained ok
  have room := ensured.room small
  rw [← ensured.contained.codeSize] at room
  constructor
  · exact room
  · exact fun short => Nat.lt_of_lt_of_le short room
  · exact ensured.kept _ contained.codeWrite
  · exact ensured.others
  · have := contained.bindingTop
    rw [contained.bindingCapacity]
    omega
  · have := contained.closureTop
    rw [contained.closureCapacity]
    omega

/-! ## The buffers of a module's functions -/

/--
All writes are inside the blocks allocated for them if and only if in every
function the bindings around and in its body nest at most eight deep, its
searches leave at most sixteen different symbols to its closure, and its code
needs at most 2^30 bytes.  A compilation returns if and only if the writes, and
the searches of the binding arrays, are inside.  What it then records is the
whole code of every function.  A context it can reach is given room for code
exactly when the request ends within 2^30 bytes, and then grows its code buffer,
and only that one, as it should.
-/
theorem buffers_inside_iff (input : CompileInput) (expression : Expression) :
    ((∀ f ∈ moduleFunctions input expression, f.WritesInside input) ↔
      ∀ f ∈ moduleFunctions input expression,
        f.view.top + bindingDepth f.body ≤ 8 ∧
          (f.reads input).dedup.length ≤ 16 ∧
            f.codeNeed input ≤ codeLimit) ∧
    ((∃ result, compileModule input expression = .ok result) ↔
      ∀ f ∈ moduleFunctions input expression,
        f.WritesInside input ∧ f.SearchesInside input) ∧
    (∀ funcId after, compileModule input expression = .ok (funcId, after) →
      after.finished = (moduleFunctions input expression).map fun f =>
        (f.id, f.entry input)) ∧
    ∀ context more, Contained context → more ≤ initialCodeCapacity →
      ((∃ grown, ensureCodeCapacity more context = .ok grown) ↔
        context.codeWrite + more ≤ codeLimit) ∧
      ∀ grown, ensureCodeCapacity more context = .ok grown →
        GrowsRight more context grown := by
  refine ⟨forall₂_congr fun f member => function_writes_iff
    (moduleFunctions_fresh input expression f member), ?_,
    fun _ _ => compileModule_functions, fun _ _ contained small =>
      ⟨ensureCodeCapacity_returns contained small,
        fun _ => contained_grows contained small⟩⟩
  rw [compileModule_returns_iff]
  exact forall₂_congr fun f _ => function_inside_iff input f

/-! ## Pairs nested to the left -/

/-- `((1, 2), 2), …`, with the given number of pairs. -/
def nestedPairs : Nat → Expression
  | 0 => .integerConstant ⟨0, 0⟩ 1
  | count + 1 =>
      .tuple ⟨0, 0⟩ (nestedPairs count)
        (.tupleFinal ⟨0, 0⟩ (.integerConstant ⟨0, 0⟩ 2)) 2

/-- Both slots of a pair are filled from its first component. -/
theorem nestedPairs_length (input : CompileInput) (count : Nat) (view : View) :
    (emit input (nestedPairs count) view).code.bytes.length + 16 =
      19 * 2 ^ count := by
  induction count generalizing view with
  | zero => rfl
  | succ count ih =>
      let start := view.take.take
      have once := ih start
      have twice := ih (emit input (nestedPairs count) start).view
      rw [nestedPairs, emit, emitTuple]
      simp only [emitTupleMembers, Code.length_seq]
      change 3 + (3 + ((emit input (nestedPairs count) start).code.bytes.length +
        (5 + ((emit input (nestedPairs count)
          (emit input (nestedPairs count) start).view).code.bytes.length +
            (5 + 0))))) + 16 = _
      rw [Nat.pow_succ]
      omega

/-- Twenty-six nested pairs, a hundred characters, need too much code. -/
theorem nestedPairs_overflow (input : CompileInput) :
    ¬(entryFunction input (nestedPairs 26)).WritesInside input := by
  intro writes
  have last := writes.code
    ((emit input (nestedPairs 26) (entryView input)).code.bytes.length + 1)
    (List.mem_append_right _ (List.mem_singleton.mpr rfl))
  have length := nestedPairs_length input 26 (entryView input)
  rw [codeLimit] at last
  omega

/-! ## Nested bindings -/

/-- `let x = true in … in true`, with the given number of bindings. -/
def nestedLets : Nat → Expression
  | 0 => .true_ ⟨0, 0⟩
  | count + 1 => .let_ ⟨0, 0⟩ 1 (.true_ ⟨0, 0⟩) (nestedLets count)

/--
The ninth binding of nine nested ones is written past the end of the binding
array's block, which is sixty-four bytes long, and the code of twenty-six nested
pairs past what an `int` capacity can hold.
-/
theorem buffers_nested_lets :
    ¬(∀ f ∈ moduleFunctions zeroedInput (nestedLets 9),
        f.WritesInside zeroedInput) ∧
      .push 8 ∈ (entryFunction zeroedInput (nestedLets 9)).operations
        zeroedInput ∧
      initialBindingCapacity < (8 + 1) * sizeofCompileBinding ∧
      ¬∀ f ∈ moduleFunctions zeroedInput (nestedPairs 26),
        f.WritesInside zeroedInput := by
  have written : Operation.push 8 ∈
      (entryFunction zeroedInput (nestedLets 9)).operations zeroedInput := by
    decide +kernel
  refine ⟨fun inside => ?_, written, by decide, fun inside => ?_⟩
  · have entry := inside (entryFunction zeroedInput (nestedLets 9))
      (List.mem_append_right _ (List.mem_singleton.mpr rfl))
    exact absurd (entry.bindings 8 written) (by decide)
  · exact nestedPairs_overflow zeroedInput
      (inside _ (List.mem_append_right _ (List.mem_singleton.mpr rfl)))

end Millie.Compiler
