import Millie.Compiler.Closures
import Millie.Pipeline.TypeSafety

/-!
# What compiled code may rely on

The facts about a place in an expression that the correctness of its code rests
on, and how they pass from an expression to its parts: `Visited` for what the
compiler does there, whichever function the place is in, and `Fitting` for the
registers and the closure list of its function.
-/

namespace Millie.Pipeline

open Millie.Symbols Millie.Syntax Millie.Machine Millie.Compiler

/-! ## Expressions -/

/--
Neither a tuple nor an error, and every let rec binds a function under a valid
name.
-/
def Plain : Expression → Prop
  | .lambda _ _ body => Plain body
  | .apply _ first second | .let_ _ _ first second | .binary _ _ first second =>
      Plain first ∧ Plain second
  | .letrec _ id value body =>
      id ≠ invalidSymbol ∧ value.IsLambda ∧ Plain value ∧ Plain body
  | .unary _ _ arg => Plain arg
  | .if_ _ test thenArm elseArm => Plain test ∧ Plain thenArm ∧ Plain elseArm
  | .identifier _ _ | .integerConstant _ _ | .true_ _ | .false_ _ => True
  | .tuple _ _ _ _ | .tupleFinal _ _ | .error _ | .invalid _ => False

theorem plain_letrec_other {value : Expression} (notLambda : ¬value.IsLambda)
    (range : TokenRange) (id : Symbol) (body : Expression) :
    ¬Plain (.letrec range id value body) :=
  fun plain => notLambda plain.2.1

instance decidablePlain : DecidablePred Plain
  | .lambda _ _ body => decidablePlain body
  | .apply _ first second | .let_ _ _ first second | .binary _ _ first second =>
      let _ := decidablePlain first
      let _ := decidablePlain second
      inferInstanceAs (Decidable (_ ∧ _))
  | .letrec _ _ value body =>
      let _ := decidablePlain value
      let _ := decidablePlain body
      inferInstanceAs (Decidable (_ ∧ _ ∧ _ ∧ _))
  | .unary _ _ arg => decidablePlain arg
  | .if_ _ test thenArm elseArm =>
      let _ := decidablePlain test
      let _ := decidablePlain thenArm
      let _ := decidablePlain elseArm
      inferInstanceAs (Decidable (_ ∧ _ ∧ _))
  | .identifier _ _ | .integerConstant _ _ | .true_ _ | .false_ _ =>
      isTrue trivial
  | .tuple _ _ _ _ | .tupleFinal _ _ | .error _ | .invalid _ =>
      isFalse fun plain => plain

/-- The registers from which a function's code reads symbols. -/
def heldIn (scope : Scope) (symbols : List Symbol) : List UInt8 :=
  symbols.map fun id => (scope.register id).getD 0

/--
Wherever an `if` ends its then arm in a register that is read later, its else
arm ends in the same one.
-/
def Spared (input : CompileInput) :
    Expression → List UInt8 → View → Scope → Prop
  | .let_ _ id value body, live, view, scope =>
      let emitted := emit input value view
      Spared input value
          (live ++ heldIn scope ((compiledSymbols body).filter (· ≠ id))) view
          scope ∧
        Spared input body live (emitted.view.push id emitted.reg)
          (scope.bind id emitted.reg)
  | .letrec _ id value body, live, view, scope =>
      let inner := view.take.push id view.nextReg
      let created :=
        match value with
        | .lambda _ lambdaId lambdaBody =>
            (emitLambdaImpl input lambdaId (emit input lambdaBody) id
              view.nextReg inner).view
        | _ => inner
      Spared input body live created (scope.bind id view.nextReg)
  | .apply _ first second, live, view, scope
  | .binary _ _ first second, live, view, scope =>
      let emitted := emit input first view
      Spared input first (live ++ heldIn scope (compiledSymbols second)) view
          scope ∧
        Spared input second (emitted.reg :: live) emitted.view scope
  | .unary _ _ arg, live, view, scope => Spared input arg live view scope
  | .if_ _ test thenArm elseArm, live, view, scope =>
      let tested := (emit input test view).view
      let thenEmitted := emit input thenArm tested
      Spared input test
          (live ++ heldIn scope
            (compiledSymbols thenArm ++ compiledSymbols elseArm)) view scope ∧
        Spared input thenArm live tested scope ∧
        Spared input elseArm live thenEmitted.view scope ∧
        (thenEmitted.reg ∈ live →
          (emit input elseArm thenEmitted.view).reg = thenEmitted.reg)
  | .lambda _ _ _, _, _, _ | .identifier _ _, _, _, _
  | .integerConstant _ _, _, _, _ | .true_ _, _, _, _ | .false_ _, _, _, _
  | .tuple _ _ _ _, _, _, _ | .tupleFinal _ _, _, _, _ | .error _, _, _, _
  | .invalid _, _, _, _ => True

instance decidableSpared (input : CompileInput) :
    ∀ expression live view scope,
      Decidable (Spared input expression live view scope)
  | .let_ _ _ value body, live, view, scope =>
      @instDecidableAnd _ _ (decidableSpared input value _ view scope)
        (decidableSpared input body live _ _)
  | .letrec _ _ _ body, live, _, _ => decidableSpared input body live _ _
  | .apply _ first second, _, view, scope
  | .binary _ _ first second, _, view, scope =>
      @instDecidableAnd _ _ (decidableSpared input first _ view scope)
        (decidableSpared input second _ _ scope)
  | .unary _ _ arg, live, view, scope =>
      decidableSpared input arg live view scope
  | .if_ _ test thenArm elseArm, live, view, scope =>
      @instDecidableAnd _ _ (decidableSpared input test _ view scope)
        (@instDecidableAnd _ _ (decidableSpared input thenArm live _ scope)
          (@instDecidableAnd _ _ (decidableSpared input elseArm live _ scope)
            (inferInstanceAs (Decidable (_ → _)))))
  | .lambda _ _ _, _, _, _ | .identifier _ _, _, _, _
  | .integerConstant _ _, _, _, _ | .true_ _, _, _, _ | .false_ _, _, _, _
  | .tuple _ _ _ _, _, _, _ | .tupleFinal _ _, _, _, _ | .error _, _, _, _
  | .invalid _, _, _, _ => isTrue trivial

/-! ## Places -/

/-- What the compiler does at a place of an expression without defects. -/
structure Visited (input : CompileInput) (functions : List Function)
    (expression : Expression) (view : View) (scope : Scope) : Prop where
  plain : Plain expression
  tracks : Tracks view scope
  bound : ∀ symbol ∈ compiledSymbols expression,
    (scope.resolve symbol).isSome
  clear : ∀ event ∈ trace input expression view scope, event.Unobstructed
  quiet : (emit input expression view).view.errors = []
  compiled : Compiler.functions input expression view scope ⊆ functions

/-- What the compiler does with a function, from the place of its lambda. -/
structure Enclosed (input : CompileInput) (functions : List Function)
    (lambdaId selfId : Symbol) (body : Expression) (view : View)
    (scope : Scope) : Prop where
  plain : Plain body
  tracks : Tracks view scope
  bound : ∀ symbol ∈ functionSymbols lambdaId selfId (compiledSymbols body),
    (scope.resolve symbol).isSome
  clear : ∀ event ∈ lambdaTrace input lambdaId selfId body (trace input body)
    view scope, event.Unobstructed
  quiet : (emitBody input lambdaId selfId (emit input body) view).view.errors =
    []
  compiled : lambdaFunctions (Compiler.functions input body)
    (lambdaFunction input lambdaId selfId body view scope) ⊆ functions

/-- What a function provides for the code of one of its expressions. -/
structure Fitting (input : CompileInput) (closure : List Symbol) (size : Nat)
    (expression : Expression) (live : List UInt8) (view : View)
    (scope : Scope) : Prop where
  room : (emit input expression view).view.registers ≤ size
  kept : (emit input expression view).view.closure <+: closure
  held : ∀ i < view.top, (view.bindings i).reg.toNat < view.registers
  taken : ∀ reg ∈ live, reg.toNat < view.registers
  pointer : scope.depth = 0 ∨ 0 < view.registers
  spared : Spared input expression live view scope

/-- What a function provides for the code that creates a closure. -/
structure Creating (input : CompileInput) (closure : List Symbol) (size : Nat)
    (lambdaId selfId : Symbol) (body : Expression) (register : UInt8)
    (view : View) (scope : Scope) : Prop where
  next : register.toNat + 1 = view.registers
  room : (emitLambdaImpl input lambdaId (emit input body) selfId register
    view).view.registers ≤ size
  kept : (emitLambdaImpl input lambdaId (emit input body) selfId register
    view).view.closure <+: closure
  below : ∀ symbol ∈
      (lambdaFunction input lambdaId selfId body view scope).closure input,
    ∀ reg, scope.register symbol = some reg → reg.toNat < register.toNat
  pointer : ∀ symbol ∈
      (lambdaFunction input lambdaId selfId body view scope).closure input,
    scope.register symbol = none → 0 < register.toNat

section

variable {input : CompileInput} {functions : List Function} {view : View}
  {scope : Scope}

namespace Visited

variable {range : TokenRange}

theorem let_ {id : Symbol} {value body : Expression}
    (visited : Visited input functions (.let_ range id value body) view
      scope) :
    Visited input functions value view scope ∧
      Visited input functions body
        ((emit input value view).view.push id (emit input value view).reg)
        (scope.bind id (emit input value view).reg) := by
  let emitted := emit input value view
  have bodyKept := emit_continues input body (emitted.view.push id emitted.reg)
  have bodyQuiet : (emit input body
    (emitted.view.push id emitted.reg)).view.errors = [] := visited.quiet
  rcases List.forall_mem_append.mp visited.bound with ⟨valueBound, bodyBound⟩
  rcases List.forall_mem_append.mp visited.clear with ⟨valueClear, bodyClear⟩
  rcases List.append_subset.mp visited.compiled with ⟨inValue, inBody⟩
  refine ⟨⟨visited.plain.1, visited.tracks, valueBound, valueClear,
    errors_nil bodyKept.scope bodyQuiet, inValue⟩, ?_⟩
  refine ⟨visited.plain.2, (visited.tracks.continues (emit_continues input
    value view)).push id emitted.reg, ?_, bodyClear, bodyQuiet, inBody⟩
  intro symbol member
  rw [resolve_bind]
  by_cases same : symbol = id
  · exact .inl same
  · exact .inr (bodyBound symbol
      (List.mem_filter.mpr ⟨member, by simpa using same⟩))

theorem letrec {id lambdaId : Symbol} {lambdaRange : TokenRange}
    {lambdaBody body : Expression}
    (visited : Visited input functions
      (.letrec range id (.lambda lambdaRange lambdaId lambdaBody) body) view
      scope) :
    Enclosed input functions lambdaId id lambdaBody
        (view.take.push id view.nextReg) (scope.bind id view.nextReg) ∧
      Visited input functions body
        (emitLambdaImpl input lambdaId (emit input lambdaBody) id view.nextReg
          (view.take.push id view.nextReg)).view
        (scope.bind id view.nextReg) := by
  let inner := view.take.push id view.nextReg
  let function := emitLambdaImpl input lambdaId (emit input lambdaBody) id
    view.nextReg inner
  have bodyKept := emit_continues input body function.view
  have bodyQuiet : (emit input body function.view).view.errors = [] :=
    visited.quiet
  have bound : ∀ symbol ∈
      functionSymbols lambdaId id (compiledSymbols lambdaBody) ++
        compiledSymbols body,
      ((scope.bind id view.nextReg).resolve symbol).isSome := by
    intro symbol member
    rw [resolve_bind]
    by_cases same : symbol = id
    · exact .inl same
    · exact .inr (visited.bound symbol
        (List.mem_filter.mpr ⟨member, by simpa using same⟩))
  rcases List.forall_mem_append.mp bound with ⟨functionBound, bodyBound⟩
  rcases List.forall_mem_append.mp visited.clear with
    ⟨functionClear, bodyClear⟩
  rcases List.append_subset.mp visited.compiled with ⟨inFunction, inBody⟩
  have tracks : Tracks inner (scope.bind id view.nextReg) :=
    (visited.tracks.continues (.take view)).push id view.nextReg
  have later := tracks.continues (emitLambdaImpl_continues input
    (emit_continues input lambdaBody) lambdaId id view.nextReg inner)
  exact ⟨⟨visited.plain.2.2.1, tracks, functionBound, functionClear,
      emitLambdaImpl_quiet (errors_nil bodyKept bodyQuiet), inFunction⟩,
    ⟨visited.plain.2.2.2, later, bodyBound, bodyClear, bodyQuiet, inBody⟩⟩

theorem lambda {id : Symbol} {body : Expression}
    (visited : Visited input functions (.lambda range id body) view scope) :
    Enclosed input functions id invalidSymbol body view.take scope :=
  ⟨visited.plain, visited.tracks.continues (.take view), visited.bound,
    visited.clear, emitLambdaImpl_quiet visited.quiet, visited.compiled⟩

/-- Two operands, whatever is done with them. -/
theorem operands {first second : Expression}
    (plain : Plain first ∧ Plain second) (tracks : Tracks view scope)
    (bound : ∀ symbol ∈ compiledSymbols first ++ compiledSymbols second,
      (scope.resolve symbol).isSome)
    (clear : ∀ event ∈ trace input first view scope ++
      trace input second (emit input first view).view scope,
      event.Unobstructed)
    (quiet : (emit input second (emit input first view).view).view.errors = [])
    (compiled : Compiler.functions input first view scope ++
      Compiler.functions input second (emit input first view).view scope ⊆
        functions) :
    Visited input functions first view scope ∧
      Visited input functions second (emit input first view).view scope := by
  have kept := emit_continues input second (emit input first view).view
  rcases List.forall_mem_append.mp bound with ⟨firstBound, secondBound⟩
  rcases List.forall_mem_append.mp clear with ⟨firstClear, secondClear⟩
  rcases List.append_subset.mp compiled with ⟨inFirst, inSecond⟩
  exact ⟨⟨plain.1, tracks, firstBound, firstClear, errors_nil kept quiet,
      inFirst⟩,
    ⟨plain.2, tracks.continues (emit_continues input first view), secondBound,
      secondClear, quiet, inSecond⟩⟩

theorem apply {function argument : Expression}
    (visited : Visited input functions (.apply range function argument) view
      scope) :
    Visited input functions function view scope ∧
      Visited input functions argument (emit input function view).view scope :=
  operands visited.plain visited.tracks visited.bound visited.clear
    visited.quiet visited.compiled

theorem binary {operator : TokenType} {left right : Expression}
    (visited : Visited input functions (.binary range operator left right) view
      scope) :
    Visited input functions left view scope ∧
      Visited input functions right (emit input left view).view scope := by
  have quiet := visited.quiet
  rcases emit_binary_quiet quiet with ⟨instruction, chosen, whole⟩
  rw [whole] at quiet
  exact operands visited.plain visited.tracks visited.bound visited.clear quiet
    visited.compiled

theorem unary {operator : TokenType} {arg : Expression}
    (visited : Visited input functions (.unary range operator arg) view
      scope) :
    Visited input functions arg view scope := by
  have quiet := visited.quiet
  rcases emit_unary_quiet quiet with ⟨instruction, chosen, whole⟩
  rw [whole] at quiet
  exact ⟨visited.plain, visited.tracks, visited.bound, visited.clear, quiet,
    visited.compiled⟩

theorem if_ {test thenArm elseArm : Expression}
    (visited : Visited input functions (.if_ range test thenArm elseArm) view
      scope) :
    Visited input functions test view scope ∧
      Visited input functions thenArm (emit input test view).view scope ∧
      Visited input functions elseArm
        (emit input thenArm (emit input test view).view).view scope := by
  let tested := (emit input test view).view
  have elseQuiet : (emit input elseArm
    (emit input thenArm tested).view).view.errors = [] := visited.quiet
  rcases List.forall_mem_append.mp visited.bound with ⟨armsBound, elseBound⟩
  rcases List.forall_mem_append.mp visited.clear with ⟨armsClear, elseClear⟩
  rcases List.append_subset.mp visited.compiled with ⟨inArms, inElse⟩
  have thenQuiet := errors_nil (emit_continues input elseArm
    (emit input thenArm tested).view) elseQuiet
  rcases operands ⟨visited.plain.1, visited.plain.2.1⟩ visited.tracks armsBound
    armsClear thenQuiet inArms with ⟨testVisited, thenVisited⟩
  exact ⟨testVisited, thenVisited, visited.plain.2.2,
    thenVisited.tracks.continues (emit_continues input thenArm tested),
    elseBound, elseClear, elseQuiet, inElse⟩

end Visited

/-! ## Functions -/

namespace Enclosed

variable {lambdaId selfId : Symbol} {body : Expression}

theorem member (enclosed : Enclosed input functions lambdaId selfId body view
    scope) :
    lambdaFunction input lambdaId selfId body view scope ∈ functions :=
  enclosed.compiled (List.mem_append_right _ (List.mem_singleton_self _))

/-- The body of a function is visited in the function's own state. -/
theorem visited (enclosed : Enclosed input functions lambdaId selfId body view
    scope) :
    Visited input functions body
      (lambdaFunction input lambdaId selfId body view scope).view
      (lambdaFunction input lambdaId selfId body view scope).scope where
  plain := enclosed.plain
  tracks := enclosed.tracks.enter input lambdaId selfId _ _
  bound _ member := resolve_enter fun notParam notSelf =>
    enclosed.bound _ (mem_functionSymbols.mpr ⟨member, notParam, notSelf⟩)
  clear := (List.forall_mem_append.mp enclosed.clear).1
  quiet := enclosed.quiet
  compiled := (List.append_subset.mp enclosed.compiled).1

/-- A function captures exactly the symbols that it does not bind. -/
theorem mem_closure_iff (enclosed : Enclosed input functions lambdaId selfId
    body view scope) {symbol : Symbol} :
    symbol ∈ (lambdaFunction input lambdaId selfId body view scope).closure
        input ↔
      symbol ∈ functionSymbols lambdaId selfId (compiledSymbols body) := by
  have traced := EmitsTraced.lambdaImpl (emit_traced input body) 0
    enclosed.tracks enclosed.bound
  have created : Event.function lambdaId selfId body
      ((lambdaFunction input lambdaId selfId body view scope).closure input) ∈
      lambdaTrace input lambdaId selfId body (trace input body) view scope :=
    List.mem_append_right _ (List.mem_cons_self ..)
  constructor
  · exact fun member => (traced.sound _ created).2 member
  · exact fun member => traced.covers enclosed.clear _ created member

/-- Nothing gets in the way of finding the captured values. -/
theorem closed (enclosed : Enclosed input functions lambdaId selfId body view
    scope) :
    ∀ event ∈ closedSearches scope
      ((lambdaFunction input lambdaId selfId body view scope).closure input)
      (closureView input lambdaId selfId (emit input body) view),
      event.Unobstructed :=
  (List.forall_mem_cons.mp (List.forall_mem_append.mp enclosed.clear).2).2

end Enclosed

/-! ## Registers -/

/-- A search that nothing obstructs finds a symbol's own register. -/
theorem search_register {id : Symbol} (tracks : Tracks view scope)
    (bound : (scope.resolve id).isSome)
    (clear : (Event.search view scope id).Unobstructed) :
    View.search view.bindings id view.top = scope.register id := by
  rcases Option.isSome_iff_exists.mp bound with ⟨binder, resolved⟩
  have found := (search_resolved_iff tracks).mpr clear binder resolved
  rw [found, Scope.register, resolved]
  by_cases here : binder.depth = scope.depth
  · simp [here, Option.filter]
  · simp [here, Option.filter]

theorem mem_liveBinders_reg {bindings : Nat → CompileBinding}
    {depth top : Nat} {binder : Binder}
    (member : binder ∈ liveBinders bindings depth top) :
    ∃ i < top, (bindings i).reg = binder.reg := by
  induction top with
  | zero => cases member
  | succ top ih =>
      rcases List.mem_cons.mp member with rfl | below
      · exact ⟨top, Nat.lt_succ_self top, rfl⟩
      · rcases ih below with ⟨i, inside, same⟩
        exact ⟨i, Nat.lt_succ_of_lt inside, same⟩

/-- A symbol's own register is the register of a live binding. -/
theorem register_lt {id : Symbol} {reg : UInt8} {bound : Nat}
    (tracks : Tracks view scope)
    (held : ∀ i < view.top, (view.bindings i).reg.toNat < bound)
    (located : scope.register id = some reg) : reg.toNat < bound := by
  rw [Scope.register, ← tracks.find_live] at located
  rcases Option.map_eq_some_iff.mp located with ⟨binder, found, rfl⟩
  rcases mem_liveBinders_reg (List.mem_of_find?_eq_some found) with
    ⟨i, inside, same⟩
  exact same ▸ held i inside

/-- Binding a symbol gives it its register and leaves the others. -/
theorem register_bind (scope : Scope) (symbol id : Symbol) (reg : UInt8) :
    (scope.bind symbol reg).register id =
      if id = symbol then some reg else scope.register id := by
  unfold Scope.register Scope.resolve Scope.bind
  rw [List.find?_cons]
  by_cases same : id = symbol
  · simp [same, Option.filter]
  · simp [same, Ne.symm same]

/-- A function starts with its parameter and its own name in registers. -/
theorem register_enter (tracks : Tracks view scope)
    (lambdaId selfId id : Symbol) :
    (scope.enter lambdaId selfId).register id =
      if id = lambdaId then some 1
      else if selfId ≠ invalidSymbol ∧ id = selfId then some 0 else none := by
  have outside : Scope.register { scope with depth := scope.depth + 1 } id =
      none := by
    cases resolved : scope.resolve id with
    | none => simp [Scope.register, Scope.resolve, show
        scope.binders.find? _ = none from resolved]
    | some binder =>
        have below := tracks.depth_le (List.mem_of_find?_eq_some resolved)
        have other : binder.depth ≠ scope.depth + 1 := by omega
        simp [Scope.register, Scope.resolve, Option.filter, other, show
          scope.binders.find? _ = some binder from resolved]
  unfold Scope.enter
  by_cases named : selfId ≠ invalidSymbol
  · simp only [if_pos named, register_bind, outside]
    simp [named]
  · simp only [if_neg named, register_bind, outside]
    simp [named]

/-- The registers of what is emitted have been taken. -/
theorem emit_reg_lt {expression : Expression}
    (visited : Visited input functions expression view scope)
    (held : ∀ i < view.top, (view.bindings i).reg.toNat < view.registers) :
    (emit input expression view).reg.toNat <
      (emit input expression view).view.registers := by
  induction expression using Expression.functionInduction
    generalizing view scope with
  | integerConstant | true_ | false_ => exact nextReg_lt (Nat.le_refl _)
  | error | invalid | tuple | tupleFinal => exact visited.plain.elim
  | letrecOther range id value body notLambda valueIh bodyIh =>
      exact absurd visited.plain (plain_letrec_other notLambda range id body)
  | identifier range id =>
      have found := search_register visited.tracks
        (visited.bound id (List.mem_singleton_self id))
        (visited.clear _ (List.mem_singleton_self _))
      cases located : scope.register id with
      | some reg =>
          rw [located] at found
          rw [emit, emitIdentifier_bound found]
          exact register_lt visited.tracks held located
      | none =>
          rw [located] at found
          rw [emit, emitIdentifier_closed found]
          exact nextReg_lt (Nat.le_refl _)
  | let_ range id value body valueIh bodyIh =>
      rcases visited.let_ with ⟨valueVisited, bodyVisited⟩
      have valueReg := valueIh valueVisited held
      have kept := emit_continues input value view
      exact bodyIh bodyVisited (push_live valueReg fun i below =>
        Nat.lt_of_lt_of_le (kept.live held i below) kept.registers)
  | letrecFunction range id lambdaRange lambdaId lambdaBody body lambdaIh
      bodyIh =>
      have inner : ∀ i < (view.take.push id view.nextReg).top,
          ((view.take.push id view.nextReg).bindings i).reg.toNat <
            view.take.registers :=
        push_live (nextReg_lt (Nat.le_refl _)) fun i below =>
          Nat.lt_succ_of_lt (held i below)
      have kept := emitLambdaImpl_continues input
        (emit_continues input lambdaBody) lambdaId id view.nextReg
        (view.take.push id view.nextReg)
      exact bodyIh visited.letrec.2 fun i below =>
        Nat.lt_of_lt_of_le (kept.live inner i below) kept.registers
  | lambda range id body bodyIh =>
      have kept := emitLambdaImpl_continues input (emit_continues input body)
        id invalidSymbol view.nextReg view.take
      exact Nat.lt_of_lt_of_le (nextReg_lt (Nat.le_refl _)) kept.registers
  | apply range function argument functionIh argumentIh =>
      exact nextReg_lt (Nat.le_refl _)
  | binary range operator left right leftIh rightIh =>
      rcases emit_binary_quiet visited.quiet with ⟨instruction, chosen, whole⟩
      rw [whole]
      exact nextReg_lt (Nat.le_refl _)
  | unary range operator arg argIh =>
      rcases emit_unary_quiet visited.quiet with ⟨instruction, chosen, whole⟩
      rw [whole]
      exact nextReg_lt (Nat.le_refl _)
  | if_ range test thenArm elseArm testIh thenIh elseIh =>
      rcases visited.if_ with ⟨testVisited, thenVisited, elseVisited⟩
      have testKept := emit_continues input test view
      have elseKept := emit_continues input elseArm
        (emit input thenArm (emit input test view).view).view
      have thenReg := thenIh thenVisited fun i below =>
        Nat.lt_of_lt_of_le (testKept.live held i below) testKept.registers
      exact Nat.lt_of_lt_of_le thenReg elseKept.registers

/-- In the entry function every symbol has a register of its own. -/
theorem register_entry {id : Symbol} (tracks : Tracks view scope)
    (entry : scope.depth = 0) (bound : (scope.resolve id).isSome) :
    ∃ reg, scope.register id = some reg := by
  rcases Option.isSome_iff_exists.mp bound with ⟨binder, resolved⟩
  have below := tracks.depth_le (List.mem_of_find?_eq_some resolved)
  have here : binder.depth = scope.depth := by omega
  exact ⟨binder.reg, by simp [Scope.register, resolved, Option.filter, here]⟩

/-- The registers that are read for symbols have been taken. -/
theorem heldIn_taken (tracks : Tracks view scope)
    (held : ∀ i < view.top, (view.bindings i).reg.toNat < view.registers)
    (pointer : scope.depth = 0 ∨ 0 < view.registers) {symbols : List Symbol}
    (bound : ∀ symbol ∈ symbols, (scope.resolve symbol).isSome) :
    ∀ reg ∈ heldIn scope symbols, reg.toNat < view.registers := by
  intro reg member
  rcases List.mem_map.mp member with ⟨symbol, inside, rfl⟩
  cases located : scope.register symbol with
  | some reg => exact register_lt tracks held located
  | none =>
      rcases pointer with entry | positive
      · rcases register_entry tracks entry (bound symbol inside) with
          ⟨reg, found⟩
        rw [located] at found
        cases found
      · exact positive

/-- The live bindings of a later state have registers that were taken. -/
theorem held_later {after : View} (kept : Continues view after)
    (held : ∀ i < view.top, (view.bindings i).reg.toNat < view.registers) :
    ∀ i < after.top, (after.bindings i).reg.toNat < after.registers :=
  fun i below =>
    Nat.lt_of_lt_of_le (kept.live held i below) kept.registers

/-- The register that is taken next, where the registers do not wrap. -/
theorem nextReg_toNat (room : view.registers < 256) :
    view.nextReg.toNat = view.registers := by
  rw [View.nextReg, UInt8.toNat_ofNat']
  exact Nat.mod_eq_of_lt room

namespace Fitting

variable {closure : List Symbol} {size : Nat} {live : List UInt8}
  {range : TokenRange}

theorem let_ {id : Symbol} {value body : Expression}
    (fits : Fitting input closure size (.let_ range id value body) live view
      scope)
    (visited : Visited input functions (.let_ range id value body) view
      scope) :
    Fitting input closure size value
        (live ++ heldIn scope ((compiledSymbols body).filter (· ≠ id))) view
        scope ∧
      Fitting input closure size body live
        ((emit input value view).view.push id (emit input value view).reg)
        (scope.bind id (emit input value view).reg) := by
  let emitted := emit input value view
  have valueKept := emit_continues input value view
  have bodyKept := emit_continues input body
    (emitted.view.push id emitted.reg)
  have bodyRoom : (emit input body
    (emitted.view.push id emitted.reg)).view.registers ≤ size := fits.room
  have bodyClosure : (emit input body
    (emitted.view.push id emitted.reg)).view.closure <+: closure := fits.kept
  have bound := (List.forall_mem_append.mp visited.bound).2
  have valueReg := emit_reg_lt visited.let_.1 fits.held
  constructor
  · refine ⟨Nat.le_trans bodyKept.registers bodyRoom,
      bodyKept.closure.trans bodyClosure, fits.held, ?_, fits.pointer,
      fits.spared.1⟩
    exact List.forall_mem_append.mpr ⟨fits.taken,
      heldIn_taken visited.tracks fits.held fits.pointer bound⟩
  · refine ⟨bodyRoom, bodyClosure,
      push_live valueReg (held_later valueKept fits.held), ?_, ?_,
      fits.spared.2⟩
    · exact fun reg member =>
        Nat.lt_of_lt_of_le (fits.taken reg member) valueKept.registers
    · exact fits.pointer.imp_right fun positive =>
        Nat.lt_of_lt_of_le positive valueKept.registers

/-- Two operands: the second must not disturb the result of the first. -/
theorem operands {first second : Expression}
    (firstVisited : Visited input functions first view scope)
    (secondVisited : Visited input functions second
      (emit input first view).view scope)
    (room : (emit input second (emit input first view).view).view.registers ≤
      size)
    (kept : (emit input second (emit input first view).view).view.closure <+:
      closure)
    (held : ∀ i < view.top, (view.bindings i).reg.toNat < view.registers)
    (taken : ∀ reg ∈ live, reg.toNat < view.registers)
    (pointer : scope.depth = 0 ∨ 0 < view.registers)
    (spared : Spared input first
        (live ++ heldIn scope (compiledSymbols second)) view scope ∧
      Spared input second ((emit input first view).reg :: live)
        (emit input first view).view scope) :
    Fitting input closure size first
        (live ++ heldIn scope (compiledSymbols second)) view scope ∧
      Fitting input closure size second ((emit input first view).reg :: live)
        (emit input first view).view scope := by
  have firstKept := emit_continues input first view
  have secondKept := emit_continues input second (emit input first view).view
  constructor
  · refine ⟨Nat.le_trans secondKept.registers room,
      secondKept.closure.trans kept, held, ?_, pointer, spared.1⟩
    exact List.forall_mem_append.mpr ⟨taken,
      heldIn_taken firstVisited.tracks held pointer secondVisited.bound⟩
  · refine ⟨room, kept, held_later firstKept held, ?_, ?_, spared.2⟩
    · exact List.forall_mem_cons.mpr ⟨emit_reg_lt firstVisited held,
        fun reg member =>
          Nat.lt_of_lt_of_le (taken reg member) firstKept.registers⟩
    · exact pointer.imp_right fun positive =>
        Nat.lt_of_lt_of_le positive firstKept.registers

theorem apply {function argument : Expression}
    (fits : Fitting input closure size (.apply range function argument) live
      view scope)
    (visited : Visited input functions (.apply range function argument) view
      scope) :
    Fitting input closure size function
        (live ++ heldIn scope (compiledSymbols argument)) view scope ∧
      Fitting input closure size argument
        ((emit input function view).reg :: live)
        (emit input function view).view scope :=
  operands visited.apply.1 visited.apply.2 (Nat.le_of_succ_le fits.room)
    fits.kept fits.held fits.taken fits.pointer fits.spared

theorem binary {operator : TokenType} {left right : Expression}
    (fits : Fitting input closure size (.binary range operator left right) live
      view scope)
    (visited : Visited input functions (.binary range operator left right) view
      scope) :
    Fitting input closure size left
        (live ++ heldIn scope (compiledSymbols right)) view scope ∧
      Fitting input closure size right ((emit input left view).reg :: live)
        (emit input left view).view scope := by
  have room := fits.room
  have kept := fits.kept
  rcases emit_binary_quiet visited.quiet with ⟨instruction, chosen, whole⟩
  rw [whole] at room kept
  exact operands visited.binary.1 visited.binary.2 (Nat.le_of_succ_le room)
    kept fits.held fits.taken fits.pointer fits.spared

theorem unary {operator : TokenType} {arg : Expression}
    (fits : Fitting input closure size (.unary range operator arg) live view
      scope)
    (visited : Visited input functions (.unary range operator arg) view
      scope) :
    Fitting input closure size arg live view scope := by
  have room := fits.room
  have kept := fits.kept
  rcases emit_unary_quiet visited.quiet with ⟨instruction, chosen, whole⟩
  rw [whole] at room kept
  exact ⟨Nat.le_of_succ_le room, kept, fits.held, fits.taken, fits.pointer,
    fits.spared⟩

theorem if_ {test thenArm elseArm : Expression}
    (fits : Fitting input closure size (.if_ range test thenArm elseArm) live
      view scope)
    (visited : Visited input functions (.if_ range test thenArm elseArm) view
      scope) :
    Fitting input closure size test
        (live ++ heldIn scope
          (compiledSymbols thenArm ++ compiledSymbols elseArm)) view scope ∧
      Fitting input closure size thenArm live (emit input test view).view
        scope ∧
      Fitting input closure size elseArm live
        (emit input thenArm (emit input test view).view).view scope := by
  let tested := (emit input test view).view
  have testKept := emit_continues input test view
  have thenKept := emit_continues input thenArm tested
  have elseKept := emit_continues input elseArm (emit input thenArm tested).view
  have elseRoom : (emit input elseArm
    (emit input thenArm tested).view).view.registers ≤ size := fits.room
  have elseClosure : (emit input elseArm
    (emit input thenArm tested).view).view.closure <+: closure := fits.kept
  have thenRoom := Nat.le_trans elseKept.registers elseRoom
  have thenClosure := elseKept.closure.trans elseClosure
  have both := testKept.trans thenKept
  have bound : ∀ symbol ∈ compiledSymbols thenArm ++ compiledSymbols elseArm,
      (scope.resolve symbol).isSome :=
    List.forall_mem_append.mpr ⟨visited.if_.2.1.bound, visited.if_.2.2.bound⟩
  refine ⟨⟨Nat.le_trans thenKept.registers thenRoom,
    thenKept.closure.trans thenClosure, fits.held, ?_, fits.pointer,
    fits.spared.1⟩, ⟨thenRoom, thenClosure, held_later testKept fits.held, ?_,
    ?_, fits.spared.2.1⟩, ⟨elseRoom, elseClosure, held_later both fits.held,
    ?_, ?_, fits.spared.2.2.1⟩⟩
  · exact List.forall_mem_append.mpr ⟨fits.taken,
      heldIn_taken visited.tracks fits.held fits.pointer bound⟩
  · exact fun reg member =>
      Nat.lt_of_lt_of_le (fits.taken reg member) testKept.registers
  · exact fits.pointer.imp_right fun positive =>
      Nat.lt_of_lt_of_le positive testKept.registers
  · exact fun reg member =>
      Nat.lt_of_lt_of_le (fits.taken reg member) both.registers
  · exact fits.pointer.imp_right fun positive =>
      Nat.lt_of_lt_of_le positive both.registers

theorem lambda {id : Symbol} {body : Expression}
    (fits : Fitting input closure size (.lambda range id body) live view scope)
    (visited : Visited input functions (.lambda range id body) view scope)
    (small : size ≤ 256) :
    Creating input closure size id invalidSymbol body view.nextReg view.take
      scope := by
  have kept := emitLambdaImpl_continues input (emit_continues input body) id
    invalidSymbol view.nextReg view.take
  have taken : view.registers < 256 :=
    Nat.lt_of_succ_le (Nat.le_trans kept.registers
      (Nat.le_trans fits.room small))
  have next := nextReg_toNat taken
  have enclosed := visited.lambda
  refine ⟨congrArg (· + 1) next, fits.room, fits.kept, ?_, ?_⟩
  · intro symbol _ reg located
    rw [next]
    exact register_lt visited.tracks fits.held located
  · intro symbol member located
    rw [next]
    rcases fits.pointer with entry | positive
    · rcases register_entry visited.tracks entry (enclosed.bound symbol
        (enclosed.mem_closure_iff.mp member)) with ⟨reg, found⟩
      rw [located] at found
      cases found
    · exact positive

theorem letrec {id lambdaId : Symbol} {lambdaRange : TokenRange}
    {lambdaBody body : Expression}
    (fits : Fitting input closure size
      (.letrec range id (.lambda lambdaRange lambdaId lambdaBody) body) live
      view scope)
    (visited : Visited input functions
      (.letrec range id (.lambda lambdaRange lambdaId lambdaBody) body) view
      scope) (small : size ≤ 256) :
    Creating input closure size lambdaId id lambdaBody view.nextReg
        (view.take.push id view.nextReg) (scope.bind id view.nextReg) ∧
      Fitting input closure size body live
        (emitLambdaImpl input lambdaId (emit input lambdaBody) id view.nextReg
          (view.take.push id view.nextReg)).view
        (scope.bind id view.nextReg) := by
  let inner := view.take.push id view.nextReg
  let function := emitLambdaImpl input lambdaId (emit input lambdaBody) id
    view.nextReg inner
  have kept := emitLambdaImpl_continues input (emit_continues input lambdaBody)
    lambdaId id view.nextReg inner
  have bodyKept := emit_continues input body function.view
  have bodyRoom : (emit input body function.view).view.registers ≤ size :=
    fits.room
  have bodyClosure : (emit input body function.view).view.closure <+:
    closure := fits.kept
  have room := Nat.le_trans bodyKept.registers bodyRoom
  have taken : view.registers < 256 :=
    Nat.lt_of_succ_le (Nat.le_trans kept.registers (Nat.le_trans room small))
  have next := nextReg_toNat taken
  have enclosed := visited.letrec.1
  have grows : view.registers ≤ function.view.registers :=
    Nat.le_trans (Nat.le_succ _) kept.registers
  have other : ∀ symbol ∈ (lambdaFunction input lambdaId id lambdaBody inner
      (scope.bind id view.nextReg)).closure input, symbol ≠ id := by
    intro symbol member
    rcases mem_functionSymbols.mp (enclosed.mem_closure_iff.mp member) with
      ⟨-, -, unnamed | notSelf⟩
    · exact absurd unnamed visited.plain.1
    · exact notSelf
  constructor
  · refine ⟨congrArg (· + 1) next, room, bodyKept.closure.trans bodyClosure,
      ?_, ?_⟩
    · intro symbol member reg located
      rw [register_bind, if_neg (other symbol member)] at located
      rw [next]
      exact register_lt visited.tracks fits.held located
    · intro symbol member located
      rw [next]
      rcases fits.pointer with entry | positive
      · rcases register_entry enclosed.tracks entry (enclosed.bound symbol
          (enclosed.mem_closure_iff.mp member)) with ⟨reg, found⟩
        rw [located] at found
        cases found
      · exact positive
  · refine ⟨bodyRoom, bodyClosure, held_later kept (push_live ?_ ?_), ?_, ?_,
      fits.spared⟩
    · exact nextReg_lt (Nat.le_refl _)
    · exact fun i below => Nat.lt_succ_of_lt (fits.held i below)
    · exact fun reg member =>
        Nat.lt_of_lt_of_le (fits.taken reg member) grows
    · exact fits.pointer.imp_right fun positive =>
        Nat.lt_of_lt_of_le positive grows

end Fitting

end

end Millie.Pipeline
