import Millie.Compiler.Trace
import Millie.Compiler.GeneratorSound
import Millie.Types.Check

/-!
# Name resolution

The live part of the binding stack is the part of the type checker's environment
that was bound in the current function.  A search of the stack finds the
innermost enclosing binder unless the entry above the live ones answers first,
and a function's closure list is then the set of its free symbols, as far as the
compiler visits them: it never visits a tuple component after the first.
-/

namespace Millie.Compiler

open Millie.Symbols Millie.Syntax Millie.Machine

/-! ## Free symbols -/

/-- Remove a function's parameter and its own name, if it has one. -/
def functionSymbols (lambdaId selfId : Symbol) (symbols : List Symbol) :
    List Symbol :=
  symbols.filter fun symbol =>
    symbol ≠ lambdaId ∧ (selfId = invalidSymbol ∨ symbol ≠ selfId)

/-- The free symbols of an expression. -/
def freeSymbols : Expression → List Symbol
  | .identifier _ id => [id]
  | .lambda _ id body => functionSymbols id invalidSymbol (freeSymbols body)
  | .apply _ first second | .binary _ _ first second =>
      freeSymbols first ++ freeSymbols second
  | .let_ _ id value body =>
      freeSymbols value ++ (freeSymbols body).filter (· ≠ id)
  | .letrec _ id value body =>
      (freeSymbols value ++ freeSymbols body).filter (· ≠ id)
  | .unary _ _ arg => freeSymbols arg
  | .if_ _ test thenArm elseArm =>
      freeSymbols test ++ freeSymbols thenArm ++ freeSymbols elseArm
  | .tuple _ first rest _ => freeSymbols first ++ freeSymbols rest
  | .tupleFinal _ first => freeSymbols first
  | .integerConstant _ _ | .true_ _ | .false_ _ | .error _ | .invalid _ => []

/-- The free symbols that the compiler visits. -/
def compiledSymbols : Expression → List Symbol
  | .identifier _ id => [id]
  | .lambda _ id body => functionSymbols id invalidSymbol (compiledSymbols body)
  | .apply _ first second | .binary _ _ first second =>
      compiledSymbols first ++ compiledSymbols second
  | .let_ _ id value body =>
      compiledSymbols value ++ (compiledSymbols body).filter (· ≠ id)
  | .letrec _ id value body =>
      match value with
      | .lambda _ lambdaId lambdaBody =>
          (functionSymbols lambdaId id (compiledSymbols lambdaBody) ++
            compiledSymbols body).filter (· ≠ id)
      | _ => []
  | .unary _ _ arg => compiledSymbols arg
  | .if_ _ test thenArm elseArm =>
      compiledSymbols test ++ compiledSymbols thenArm ++ compiledSymbols elseArm
  | .tuple _ first _ length => if length = 0 then [] else compiledSymbols first
  | .integerConstant _ _ | .true_ _ | .false_ _ | .error _ | .invalid _
  | .tupleFinal _ _ => []

theorem compiledSymbols_letrec_other {value : Expression}
    (notLambda : ¬value.IsLambda) (range : TokenRange) (id : Symbol)
    (body : Expression) :
    compiledSymbols (.letrec range id value body) = [] := by
  cases value with
  | lambda range id body => exact absurd trivial notLambda
  | _ => rfl

theorem mem_functionSymbols {lambdaId selfId symbol : Symbol}
    {symbols : List Symbol} :
    symbol ∈ functionSymbols lambdaId selfId symbols ↔
      symbol ∈ symbols ∧ symbol ≠ lambdaId ∧
        (selfId = invalidSymbol ∨ symbol ≠ selfId) := by
  simp [functionSymbols]

theorem append_mono {α : Type} {first second first' second' : List α}
    (left : first ⊆ first') (right : second ⊆ second') :
    first ++ second ⊆ first' ++ second' :=
  List.append_subset.mpr
    ⟨List.subset_append_of_subset_left _ left,
      List.subset_append_of_subset_right _ right⟩

theorem compiledSymbols_subset (expression : Expression) :
    compiledSymbols expression ⊆ freeSymbols expression := by
  induction expression using Expression.functionInduction with
  | integerConstant range literalValue => exact List.Subset.refl _
  | true_ range => exact List.Subset.refl _
  | false_ range => exact List.Subset.refl _
  | error range => exact List.Subset.refl _
  | invalid range => exact List.Subset.refl _
  | tupleFinal range first firstIh => exact List.nil_subset _
  | identifier range id => exact List.Subset.refl _
  | lambda range id body bodyIh =>
      intro symbol member
      rcases mem_functionSymbols.mp member with ⟨inside, other⟩
      exact mem_functionSymbols.mpr ⟨bodyIh inside, other⟩
  | apply range function argument functionIh argumentIh =>
      exact append_mono functionIh argumentIh
  | binary range operator left right leftIh rightIh =>
      exact append_mono leftIh rightIh
  | let_ range id value body valueIh bodyIh =>
      exact append_mono valueIh (List.filter_subset _ bodyIh)
  | letrecFunction range id lambdaRange lambdaId lambdaBody body valueIh
      bodyIh =>
      intro symbol member
      rcases List.mem_filter.mp member with ⟨inside, notSelf⟩
      refine List.mem_filter.mpr ⟨?_, notSelf⟩
      rcases List.mem_append.mp inside with inFunction | inBody
      · refine List.mem_append_left _ (mem_functionSymbols.mpr ?_)
        rcases mem_functionSymbols.mp inFunction with ⟨inBody, other, -⟩
        exact ⟨valueIh inBody, other, .inl rfl⟩
      · exact List.mem_append_right _ (bodyIh inBody)
  | letrecOther range id value body notLambda valueIh bodyIh =>
      rw [compiledSymbols_letrec_other notLambda]
      exact List.nil_subset _
  | unary range operator arg argIh => exact argIh
  | if_ range test thenArm elseArm testIh thenIh elseIh =>
      exact append_mono
        (append_mono testIh thenIh) elseIh
  | tuple range first rest length firstIh restIh =>
      unfold compiledSymbols
      split
      · exact List.nil_subset _
      · exact List.subset_append_of_subset_left _ firstIh

/-! ## Scopes and the binding stack -/

/-- The live bindings as binders of the current function, innermost first. -/
def liveBinders (bindings : Nat → CompileBinding) (depth : Nat) :
    Nat → List Binder
  | 0 => []
  | i + 1 =>
      ⟨(bindings i).symbol, depth, (bindings i).reg⟩ ::
        liveBinders bindings depth i

/-- The live bindings are the binders of the scope's innermost function. -/
def Tracks (view : View) (scope : Scope) : Prop :=
  ∃ outer, scope.binders =
      liveBinders view.bindings scope.depth view.top ++ outer ∧
    ∀ binder ∈ outer, binder.depth < scope.depth

theorem liveBinders_congr {first second : Nat → CompileBinding}
    {depth top : Nat} (same : ∀ i < top, first i = second i) :
    liveBinders first depth top = liveBinders second depth top := by
  induction top with
  | zero => rfl
  | succ top ih =>
      rw [liveBinders, liveBinders, same top (Nat.lt_succ_self top),
        ih fun i below => same i (Nat.lt_succ_of_lt below)]

theorem mem_liveBinders_depth {bindings : Nat → CompileBinding}
    {depth top : Nat} {binder : Binder}
    (member : binder ∈ liveBinders bindings depth top) :
    binder.depth = depth := by
  induction top with
  | zero => cases member
  | succ top ih =>
      rcases List.mem_cons.mp member with same | below
      · rw [same]
      · exact ih below

namespace Tracks

theorem entry (input : CompileInput) : Tracks (entryView input) .entry :=
  ⟨[], rfl, nofun⟩

theorem push {view : View} {scope : Scope} (tracks : Tracks view scope)
    (symbol : Symbol) (reg : UInt8) :
    Tracks (view.push symbol reg) (scope.bind symbol reg) := by
  rcases tracks with ⟨outer, binders, outside⟩
  refine ⟨outer, ?_, outside⟩
  have below : liveBinders
      (Function.update view.bindings view.top ⟨symbol, reg⟩) scope.depth
      view.top = liveBinders view.bindings scope.depth view.top :=
    liveBinders_congr fun i below =>
      Function.update_of_ne (Nat.ne_of_lt below) _ _
  simp [Scope.bind, View.push, liveBinders, binders, below]

theorem continues {view after : View} {scope : Scope}
    (tracks : Tracks view scope) (kept : Continues view after) :
    Tracks after scope := by
  rcases tracks with ⟨outer, binders, outside⟩
  refine ⟨outer, ?_, outside⟩
  rw [kept.top, liveBinders_congr kept.bindings]
  exact binders

/-- Every binder in scope belongs to the current function or one around it. -/
theorem depth_le {view : View} {scope : Scope} (tracks : Tracks view scope)
    {binder : Binder} (member : binder ∈ scope.binders) :
    binder.depth ≤ scope.depth := by
  rcases tracks with ⟨outer, binders, outside⟩
  rw [binders] at member
  rcases List.mem_append.mp member with live | out
  · exact Nat.le_of_eq (mem_liveBinders_depth live)
  · exact Nat.le_of_lt (outside binder out)

/-- A function starts with exactly its own bindings. -/
theorem enter {view : View} {scope : Scope} (tracks : Tracks view scope)
    (input : CompileInput) (lambdaId selfId : Symbol) (funcId : Nat)
    (outer : View) :
    Tracks (functionView input lambdaId selfId funcId outer)
      (scope.enter lambdaId selfId) := by
  have fresh : Tracks
      { outer with
        registers := 2, bindings := input.uninit funcId, top := 0
        closure := [] }
      { scope with depth := scope.depth + 1 } :=
    ⟨scope.binders, rfl, fun binder member =>
      Nat.lt_succ_of_le (tracks.depth_le member)⟩
  unfold functionView Scope.enter
  by_cases named : selfId ≠ invalidSymbol
  · simp only [if_pos named]
    exact (fresh.push selfId 0).push lambdaId 1
  · simp only [if_neg named]
    exact fresh.push lambdaId 1

end Tracks

/-- A search, seen from the live bindings. -/
theorem search_eq (bindings : Nat → CompileBinding) (id : Symbol)
    (depth top : Nat) :
    View.search bindings id top =
      if (bindings top).symbol = id then some (bindings top).reg
      else ((liveBinders bindings depth top).find? fun binder =>
        binder.symbol = id).map Binder.reg := by
  induction top with
  | zero => rfl
  | succ top ih =>
      unfold View.search
      split
      · rfl
      · rw [ih, liveBinders, List.find?_cons]
        split
        · rename_i same
          simp [same]
        · rename_i other
          simp [other]

/-- A symbol bound in the current function. -/
def Scope.Local (scope : Scope) (id : Symbol) : Prop :=
  ∃ binder, scope.resolve id = some binder ∧ binder.depth = scope.depth

theorem Tracks.find_live {view : View} {scope : Scope}
    (tracks : Tracks view scope) (id : Symbol) :
    (liveBinders view.bindings scope.depth view.top).find?
        (fun binder => binder.symbol = id) =
      (scope.resolve id).filter fun binder => binder.depth = scope.depth := by
  rcases tracks with ⟨outer, binders, outside⟩
  rw [Scope.resolve, binders, List.find?_append]
  cases live : (liveBinders view.bindings scope.depth view.top).find?
      fun binder => binder.symbol = id with
  | some binder =>
      have depth := mem_liveBinders_depth (List.mem_of_find?_eq_some live)
      simp [Option.filter, depth]
  | none =>
      cases out : outer.find? fun binder => binder.symbol = id with
      | none => rfl
      | some binder =>
          have below := outside binder (List.mem_of_find?_eq_some out)
          simp [Option.filter, Nat.ne_of_lt below]

/-! ## What a compilation resolves -/

/--
The compiler and the type checker agree at an event: a search finds the
innermost enclosing binder, by its register when it is in the current function
and as a closure slot otherwise, and a function's closure list holds each of its
free symbols once.
-/
def Event.Resolved : Event → Prop
  | search view scope id =>
      ∀ binder, scope.resolve id = some binder →
        View.search view.bindings id view.top =
          if binder.depth = scope.depth then some binder.reg else none
  | function lambdaId selfId body closure =>
      closure.Nodup ∧ ∀ symbol, symbol ∈ closure ↔
        symbol ∈ functionSymbols lambdaId selfId (freeSymbols body)

/--
The branch that goes wrong is not taken: the entry just above the live bindings
does not carry the symbol that is searched, or carries the register of its
innermost enclosing binder, and a function has no free symbol that the compiler
does not visit.
-/
def Event.Unobstructed : Event → Prop
  | search view scope id =>
      ∀ binder, scope.resolve id = some binder →
        (view.bindings view.top).symbol = id →
        binder.depth = scope.depth ∧
          (view.bindings view.top).reg = binder.reg
  | function lambdaId selfId body _ =>
      functionSymbols lambdaId selfId (freeSymbols body) ⊆
        functionSymbols lambdaId selfId (compiledSymbols body)

instance : DecidablePred Event.Resolved
  | .search view scope id =>
      inferInstanceAs (Decidable (∀ binder ∈ scope.resolve id,
        View.search view.bindings id view.top =
          if binder.depth = scope.depth then some binder.reg else none))
  | .function lambdaId selfId body closure =>
      decidable_of_iff
        (closure.Nodup ∧
          closure ⊆ functionSymbols lambdaId selfId (freeSymbols body) ∧
          functionSymbols lambdaId selfId (freeSymbols body) ⊆ closure)
        (and_congr_right' ⟨fun both _ => ⟨(both.1 ·), (both.2 ·)⟩,
          fun same => ⟨fun _ => (same _).mp, fun _ => (same _).mpr⟩⟩)

instance : DecidablePred Event.Unobstructed
  | .search view scope id =>
      inferInstanceAs (Decidable (∀ binder ∈ scope.resolve id,
        (view.bindings view.top).symbol = id →
          binder.depth = scope.depth ∧
            (view.bindings view.top).reg = binder.reg))
  | .function lambdaId selfId body _ =>
      inferInstanceAs (Decidable
        (functionSymbols lambdaId selfId (freeSymbols body) ⊆
          functionSymbols lambdaId selfId (compiledSymbols body)))

/-- What holds of every event, whatever the binding memory holds. -/
def Event.Sound : Event → Prop
  | search view scope id => Tracks view scope ∧ (scope.resolve id).isSome
  | function lambdaId selfId body closure =>
      closure.Nodup ∧
        closure ⊆ functionSymbols lambdaId selfId (compiledSymbols body)

/-- A function's closure list misses no symbol that the compiler visits. -/
def Event.Covers : Event → Prop
  | search _ _ _ => True
  | function lambdaId selfId body closure =>
      functionSymbols lambdaId selfId (compiledSymbols body) ⊆ closure

/-- A search resolves exactly when it is not obstructed. -/
theorem search_resolved_iff {view : View} {scope : Scope} {id : Symbol}
    (tracks : Tracks view scope) :
    (Event.search view scope id).Resolved ↔
      (Event.search view scope id).Unobstructed := by
  refine forall_congr' fun binder => forall_congr' fun resolved => ?_
  rw [search_eq view.bindings id scope.depth view.top, tracks.find_live,
    resolved]
  by_cases hit : (view.bindings view.top).symbol = id
  · by_cases here : binder.depth = scope.depth
    · simp [hit, here]
    · simp [hit, here]
  · by_cases here : binder.depth = scope.depth
    · simp [hit, here, Option.filter]
    · simp [hit, here, Option.filter]

/--
Between two closure lists: the symbols that were visited and the events that
happened.
-/
structure Traced (closure after : List Symbol) (scope : Scope)
    (symbols : List Symbol) (events : List Event) : Prop where
  nodup : closure.Nodup → after.Nodup
  kept : closure ⊆ after
  only : ∀ symbol ∈ after,
    symbol ∈ closure ∨ symbol ∈ symbols ∧ ¬scope.Local symbol
  sound : ∀ event ∈ events, event.Sound
  all : (∀ event ∈ events, event.Unobstructed) →
    ∀ symbol ∈ symbols, ¬scope.Local symbol → symbol ∈ after
  covers : (∀ event ∈ events, event.Unobstructed) →
    ∀ event ∈ events, event.Covers

theorem local_bind {scope : Scope} {symbol id : Symbol} {reg : UInt8} :
    (scope.bind symbol reg).Local id ↔ id = symbol ∨ scope.Local id := by
  unfold Scope.Local Scope.resolve Scope.bind
  rw [List.find?_cons]
  by_cases same : symbol = id
  · simp [same]
  · simp [same, Ne.symm same]

theorem resolve_bind {scope : Scope} {symbol id : Symbol} {reg : UInt8} :
    ((scope.bind symbol reg).resolve id).isSome ↔
      id = symbol ∨ (scope.resolve id).isSome := by
  unfold Scope.resolve Scope.bind
  rw [List.find?_cons]
  by_cases same : symbol = id
  · simp [same]
  · simp [same, Ne.symm same]

namespace Traced

/-- A step that leaves the closure list and makes no search. -/
theorem silent (closure : List Symbol) (scope : Scope) :
    Traced closure closure scope [] [] where
  nodup nodup := nodup
  kept := List.Subset.refl _
  only _ := .inl
  sound := nofun
  all _ := nofun
  covers _ := nofun

theorem trans {closure middle after : List Symbol} {scope : Scope}
    {first second : List Symbol} {firstEvents secondEvents : List Event}
    (firstTraced : Traced closure middle scope first firstEvents)
    (secondTraced : Traced middle after scope second secondEvents) :
    Traced closure after scope (first ++ second)
      (firstEvents ++ secondEvents) where
  nodup nodup := secondTraced.nodup (firstTraced.nodup nodup)
  kept := List.Subset.trans firstTraced.kept secondTraced.kept
  only symbol member := by
    rcases secondTraced.only symbol member with before | ⟨inSecond, outer⟩
    · rcases firstTraced.only symbol before with old | ⟨inFirst, outer⟩
      · exact .inl old
      · exact .inr ⟨List.mem_append_left _ inFirst, outer⟩
    · exact .inr ⟨List.mem_append_right _ inSecond, outer⟩
  sound := List.forall_mem_append.mpr ⟨firstTraced.sound, secondTraced.sound⟩
  all clear symbol member outer := by
    rcases List.forall_mem_append.mp clear with ⟨firstClear, secondClear⟩
    rcases List.mem_append.mp member with inFirst | inSecond
    · exact secondTraced.kept (firstTraced.all firstClear symbol inFirst outer)
    · exact secondTraced.all secondClear symbol inSecond outer
  covers clear := by
    rcases List.forall_mem_append.mp clear with ⟨firstClear, secondClear⟩
    exact List.forall_mem_append.mpr
      ⟨firstTraced.covers firstClear, secondTraced.covers secondClear⟩

/-- The scope of a binding ends. -/
theorem scope {closure after : List Symbol} {scope : Scope} {id : Symbol}
    {reg : UInt8} {symbols : List Symbol} {events : List Event}
    (traced : Traced closure after (scope.bind id reg) symbols events) :
    Traced closure after scope (symbols.filter (· ≠ id)) events where
  nodup := traced.nodup
  kept := traced.kept
  only symbol member := by
    rcases traced.only symbol member with old | ⟨inside, outer⟩
    · exact .inl old
    · rw [local_bind, not_or] at outer
      exact .inr ⟨List.mem_filter.mpr ⟨inside, by simpa using outer.1⟩, outer.2⟩
  sound := traced.sound
  all clear symbol member outer := by
    rcases List.mem_filter.mp member with ⟨inside, other⟩
    refine traced.all clear symbol inside ?_
    rw [local_bind, not_or]
    exact ⟨by simpa using other, outer⟩
  covers := traced.covers

theorem congr {closure after : List Symbol} {scope : Scope}
    {symbols symbols' : List Symbol} {events : List Event}
    (traced : Traced closure after scope symbols events)
    (same : ∀ symbol, symbol ∈ symbols' ↔ symbol ∈ symbols) :
    Traced closure after scope symbols' events where
  nodup := traced.nodup
  kept := traced.kept
  only symbol member := by
    rw [same]
    exact traced.only symbol member
  sound := traced.sound
  all clear symbol member :=
    traced.all clear symbol ((same symbol).mp member)
  covers := traced.covers

end Traced

/-! ## Tracing an emission -/

theorem emitIdentifier_traced {view : View} {scope : Scope} {id : Symbol}
    (tracks : Tracks view scope) (bound : (scope.resolve id).isSome) :
    Traced view.closure (emitIdentifier id view).view.closure scope [id]
      [.search view scope id] := by
  have sound : (Event.search view scope id).Sound := ⟨tracks, bound⟩
  have found := search_eq view.bindings id scope.depth view.top
  rw [tracks.find_live] at found
  cases searched : View.search view.bindings id view.top with
  | some reg =>
      rw [emitIdentifier_bound searched]
      refine ⟨fun nodup => nodup, List.Subset.refl _, fun _ => .inl,
        List.forall_mem_singleton.mpr sound, fun clear => ?_, fun _ =>
        List.forall_mem_singleton.mpr trivial⟩
      intro symbol member outer
      rw [List.mem_singleton.mp member] at outer
      rcases Option.isSome_iff_exists.mp bound with ⟨binder, resolved⟩
      refine absurd ⟨binder, resolved, ?_⟩ outer
      have clear := List.forall_mem_singleton.mp clear binder resolved
      by_cases hit : (view.bindings view.top).symbol = id
      · exact (clear hit).1
      · rw [searched, if_neg hit, resolved] at found
        by_contra other
        simp [Option.filter, other] at found
  | none =>
      rw [emitIdentifier_closed searched]
      have outer : ¬scope.Local id := by
        rintro ⟨binder, resolved, here⟩
        rw [searched, resolved] at found
        by_cases hit : (view.bindings view.top).symbol = id
        · simp [hit] at found
        · simp [hit, Option.filter, here] at found
      have member : id ∈ View.close view.closure id := by
        unfold View.close
        split
        · assumption
        · simp
      refine ⟨fun nodup => ?_, fun symbol old => ?_, fun symbol new => ?_,
        List.forall_mem_singleton.mpr sound, fun _ symbol one _ => ?_,
        fun _ => List.forall_mem_singleton.mpr trivial⟩
      · simp only [View.close]
        split
        · exact nodup
        · rename_i fresh
          exact List.nodup_append.mpr ⟨nodup, by simp,
            fun a old b one same => fresh
              (List.mem_singleton.mp one ▸ same ▸ old)⟩
      · simp only [View.close]
        split
        · exact old
        · exact List.mem_append_left _ old
      · simp only [View.close] at new
        split at new
        · exact .inl new
        · rcases List.mem_append.mp new with old | one
          · exact .inl old
          · exact .inr ⟨one, List.mem_singleton.mp one ▸ outer⟩
      · exact List.mem_singleton.mp one ▸ member

theorem emitClosedValues_traced {scope : Scope} (closureRegister : UInt8)
    {symbols : List Symbol} {view : View} (i : Nat)
    (tracks : Tracks view scope)
    (bound : ∀ symbol ∈ symbols, (scope.resolve symbol).isSome) :
    Traced view.closure
      (emitClosedValues closureRegister i symbols view).2.closure scope symbols
      (closedSearches scope symbols view) := by
  induction symbols generalizing view i with
  | nil => exact .silent view.closure scope
  | cons symbol symbols ih =>
      have value := emitIdentifier_traced tracks
        (bound symbol (List.mem_cons_self ..))
      have rest := ih (i + 1)
        (tracks.continues (emitIdentifier_continues symbol view))
        fun other member => bound other (List.mem_cons_of_mem _ member)
      exact value.trans rest

/-- An expression is traced in every state whose live bindings are its scope's. -/
def EmitsTraced (input : CompileInput) (expression : Expression) : Prop :=
  ∀ {view scope}, Tracks view scope →
    (∀ symbol ∈ compiledSymbols expression, (scope.resolve symbol).isSome) →
    Traced view.closure (emit input expression view).view.closure scope
      (compiledSymbols expression) (trace input expression view scope)

theorem resolve_enter {scope : Scope} {lambdaId selfId id : Symbol}
    (bound : id ≠ lambdaId → (selfId = invalidSymbol ∨ id ≠ selfId) →
      (scope.resolve id).isSome) :
    ((scope.enter lambdaId selfId).resolve id).isSome := by
  unfold Scope.enter
  by_cases named : selfId ≠ invalidSymbol
  · simp only [if_pos named]
    rw [resolve_bind, resolve_bind]
    by_cases param : id = lambdaId
    · exact .inl param
    by_cases self : id = selfId
    · exact .inr (.inl self)
    · exact .inr (.inr (bound param (.inr self)))
  · simp only [if_neg named]
    rw [resolve_bind]
    by_cases param : id = lambdaId
    · exact .inl param
    · exact .inr (bound param (.inl (not_not.mp named)))

theorem local_enter {view : View} {scope : Scope} (tracks : Tracks view scope)
    {lambdaId selfId id : Symbol} :
    (scope.enter lambdaId selfId).Local id ↔
      ¬(id ≠ lambdaId ∧ (selfId = invalidSymbol ∨ id ≠ selfId)) := by
  have outside : ¬Scope.Local { scope with depth := scope.depth + 1 } id := by
    rintro ⟨binder, resolved, here⟩
    have below := tracks.depth_le (List.mem_of_find?_eq_some resolved)
    dsimp only at here
    omega
  unfold Scope.enter
  by_cases named : selfId ≠ invalidSymbol
  · simp only [if_pos named]
    rw [local_bind, local_bind]
    simp only [outside, or_false]
    constructor
    · rintro (param | self) ⟨notParam, unnamed | notSelf⟩
      · exact notParam param
      · exact notParam param
      · exact named unnamed
      · exact notSelf self
    · intro other
      by_cases param : id = lambdaId
      · exact .inl param
      · by_contra neither
        exact other ⟨param, .inr fun self => neither (.inr self)⟩
  · simp only [if_neg named]
    rw [local_bind]
    simp only [outside, or_false]
    constructor
    · exact fun param other => other.1 param
    · intro other
      by_contra notParam
      exact other ⟨notParam, .inl (not_not.mp named)⟩

theorem functionView_closure (input : CompileInput)
    (lambdaId selfId : Symbol) (funcId : Nat) (view : View) :
    (functionView input lambdaId selfId funcId view).closure = [] := by
  unfold functionView
  by_cases named : selfId ≠ invalidSymbol
  · simp only [if_pos named]
    rfl
  · simp only [if_neg named]
    rfl

theorem EmitsTraced.lambdaImpl {input : CompileInput} {body : Expression}
    (bodyTraced : EmitsTraced input body) {lambdaId selfId : Symbol}
    (closureRegister : UInt8) {view : View} {scope : Scope}
    (tracks : Tracks view scope)
    (bound : ∀ symbol ∈ functionSymbols lambdaId selfId (compiledSymbols body),
      (scope.resolve symbol).isSome) :
    Traced view.closure
      (emitLambdaImpl input lambdaId (emit input body) selfId closureRegister
        view).view.closure
      scope (functionSymbols lambdaId selfId (compiledSymbols body))
      (lambdaTrace input lambdaId selfId body (trace input body) view scope) := by
  let added := addFunction view.module
  let start := functionView input lambdaId selfId added.2.1
    { view with module := added.2.2 }
  let closed := (emit input body start).view.closure
  let filled := closureView input lambdaId selfId (emit input body) view
  have startTracks : Tracks start (scope.enter lambdaId selfId) :=
    tracks.enter input lambdaId selfId _ _
  have inner := bodyTraced startTracks fun symbol member =>
    resolve_enter fun notParam notSelf =>
      bound symbol (mem_functionSymbols.mpr ⟨member, notParam, notSelf⟩)
  have empty : start.closure = [] := functionView_closure ..
  have nodup : closed.Nodup := inner.nodup (empty ▸ List.nodup_nil)
  have only : closed ⊆ functionSymbols lambdaId selfId (compiledSymbols body) := by
    intro symbol member
    rcases inner.only symbol member with old | ⟨inside, outer⟩
    · rw [empty] at old
      cases old
    · rw [local_enter tracks, not_not] at outer
      exact mem_functionSymbols.mpr ⟨inside, outer⟩
  have filledTracks : Tracks filled scope := tracks.continues
    ((finishFunction_continues input (emit_continues input body) _ _ view).trans
      (emitLiteral_continues _ _))
  have values := emitClosedValues_traced closureRegister 0
    filledTracks fun symbol member => bound symbol (only member)
  have all : (∀ event ∈ trace input body start (scope.enter lambdaId selfId),
      event.Unobstructed) →
      functionSymbols lambdaId selfId (compiledSymbols body) ⊆ closed := by
    intro clear symbol member
    rcases mem_functionSymbols.mp member with ⟨inside, outer⟩
    exact inner.all clear symbol inside
      (by rw [local_enter tracks, not_not]; exact outer)
  refine ⟨values.nodup, values.kept, fun symbol member => ?_, ?_, ?_, ?_⟩
  · rcases values.only symbol member with old | ⟨inside, outer⟩
    · exact .inl old
    · exact .inr ⟨only inside, outer⟩
  · exact List.forall_mem_append.mpr ⟨inner.sound,
      List.forall_mem_cons.mpr ⟨⟨nodup, only⟩, values.sound⟩⟩
  · intro clear symbol member outer
    rcases List.forall_mem_append.mp clear with ⟨bodyClear, restClear⟩
    exact values.all (List.forall_mem_cons.mp restClear).2 symbol
      (all bodyClear member) outer
  · intro clear
    rcases List.forall_mem_append.mp clear with ⟨bodyClear, restClear⟩
    exact List.forall_mem_append.mpr ⟨inner.covers bodyClear,
      List.forall_mem_cons.mpr ⟨all bodyClear,
        values.covers (List.forall_mem_cons.mp restClear).2⟩⟩

theorem emitTupleMembers_traced {input : CompileInput} {first : Expression}
    (firstTraced : EmitsTraced input first) {scope : Scope} (outReg : UInt8)
    (count i : Nat) {view : View} (tracks : Tracks view scope)
    (bound : ∀ symbol ∈ compiledSymbols first,
      (scope.resolve symbol).isSome) :
    Traced view.closure
      (emitTupleMembers (emit input first) outReg i count view).2.closure
      scope (if count = 0 then [] else compiledSymbols first)
      (tupleTrace (emit input first) (trace input first · scope) count view) := by
  induction count generalizing view i with
  | zero => exact .silent view.closure scope
  | succ count ih =>
      have member := firstTraced tracks bound
      have rest := ih (i + 1) (tracks.continues (emit_continues input first view))
      refine (member.trans rest).congr fun symbol => ?_
      by_cases last : count = 0
      · simp [last]
      · simp [last]

theorem emit_traced (input : CompileInput) (expression : Expression) :
    EmitsTraced input expression := by
  intro view scope tracks bound
  induction expression using Expression.functionInduction
    generalizing view scope with
  | integerConstant range literalValue => exact .silent view.closure scope
  | true_ range => exact .silent view.closure scope
  | false_ range => exact .silent view.closure scope
  | error range => exact .silent view.closure scope
  | invalid range => exact .silent view.closure scope
  | tupleFinal range first firstIh => exact .silent view.closure scope
  | identifier range id =>
      exact emitIdentifier_traced tracks
        (bound id (List.mem_singleton_self id))
  | let_ range id value body valueIh bodyIh =>
      rcases List.forall_mem_append.mp bound with ⟨valueBound, bodyBound⟩
      let emitted := emit input value view
      have valueTraced := valueIh tracks valueBound
      have valueTracks := tracks.continues (emit_continues input value view)
      have bodyTraced := bodyIh (valueTracks.push id emitted.reg)
        fun symbol member => by
          rw [resolve_bind]
          by_cases same : symbol = id
          · exact .inl same
          · exact .inr (bodyBound symbol
              (List.mem_filter.mpr ⟨member, by simpa using same⟩))
      exact valueTraced.trans bodyTraced.scope
  | letrecFunction range id lambdaRange lambdaId lambdaBody body valueIh
      bodyIh =>
      let inner := view.take.push id view.nextReg
      let innerScope := scope.bind id view.nextReg
      have innerTracks : Tracks inner innerScope :=
        (tracks.continues (.take view)).push id view.nextReg
      have innerBound : ∀ symbol ∈
          functionSymbols lambdaId id (compiledSymbols lambdaBody) ++
            compiledSymbols body,
          (innerScope.resolve symbol).isSome := by
        intro symbol member
        rw [resolve_bind]
        by_cases same : symbol = id
        · exact .inl same
        · exact .inr (bound symbol
            (List.mem_filter.mpr ⟨member, by simpa using same⟩))
      rcases List.forall_mem_append.mp innerBound with
        ⟨functionBound, bodyBound⟩
      have functionTraced := EmitsTraced.lambdaImpl valueIh view.nextReg
        innerTracks functionBound
      have functionTracks := innerTracks.continues
        (emitLambdaImpl_continues input (emit_continues input lambdaBody)
          lambdaId id view.nextReg inner)
      have bodyTraced := bodyIh functionTracks bodyBound
      exact (functionTraced.trans bodyTraced).scope
  | letrecOther range id value body notLambda valueIh bodyIh =>
      rw [emit_letrec_other notLambda, trace_letrec_other notLambda,
        compiledSymbols_letrec_other notLambda]
      exact .silent view.closure scope
  | lambda range id body bodyIh =>
      exact EmitsTraced.lambdaImpl bodyIh view.nextReg
        (tracks.continues (.take view)) bound
  | apply range function argument functionIh argumentIh =>
      rcases List.forall_mem_append.mp bound with ⟨functionBound, argumentBound⟩
      have later := tracks.continues (emit_continues input function view)
      exact (functionIh tracks functionBound).trans
        (argumentIh later argumentBound)
  | binary range operator left right leftIh rightIh =>
      rcases List.forall_mem_append.mp bound with ⟨leftBound, rightBound⟩
      have later := tracks.continues (emit_continues input left view)
      have both := (leftIh tracks leftBound).trans (rightIh later rightBound)
      simp only [emit, emitBinary]
      split <;> exact both
  | unary range operator arg argIh =>
      simp only [emit, emitUnary]
      split <;> exact argIh tracks bound
  | if_ range test thenArm elseArm testIh thenIh elseIh =>
      rcases List.forall_mem_append.mp bound with ⟨armsBound, elseBound⟩
      rcases List.forall_mem_append.mp armsBound with ⟨testBound, thenBound⟩
      have thenTracks := tracks.continues (emit_continues input test view)
      have elseTracks := thenTracks.continues
        (emit_continues input thenArm (emit input test view).view)
      exact ((testIh tracks testBound).trans (thenIh thenTracks thenBound)).trans
        (elseIh elseTracks elseBound)
  | tuple range first rest length firstIh restIh =>
      have taken : Tracks view.take.take scope :=
        tracks.continues ((Continues.take view).trans (.take _))
      by_cases none_ : length = 0
      · subst none_
        exact .silent view.closure scope
      · have nonempty : compiledSymbols (.tuple range first rest length) =
            compiledSymbols first :=
          if_neg none_
        have members := emitTupleMembers_traced firstIh view.take.nextReg
          length 0 taken (nonempty ▸ bound)
        exact members

/-! ## The trace and what the compiler recorded -/

/-- The events between two states are what the compiler recorded. -/
structure Logged (view after : View) (events : List Event) : Prop where
  searched : after.searched = view.searched ++ events.filterMap Event.searched
  closures : after.finished.map (·.2.closedSymbols) =
    view.finished.map (·.2.closedSymbols) ++ events.filterMap Event.closure

namespace Logged

theorem silent {view after : View} (searched : after.searched = view.searched)
    (finished : after.finished = view.finished) : Logged view after [] :=
  ⟨by simp [searched], by simp [finished]⟩

/-- Pushing a binding records nothing. -/
theorem push {view after : View} {symbol : Symbol} {reg : UInt8}
    {events : List Event} (logged : Logged (view.push symbol reg) after events) :
    Logged view after events :=
  ⟨logged.searched, logged.closures⟩

theorem trans {view middle after : View} {first second : List Event}
    (firstLogged : Logged view middle first)
    (secondLogged : Logged middle after second) :
    Logged view after (first ++ second) := by
  constructor
  · rw [secondLogged.searched, firstLogged.searched, List.filterMap_append,
      List.append_assoc]
  · rw [secondLogged.closures, firstLogged.closures, List.filterMap_append,
      List.append_assoc]

end Logged

theorem emitIdentifier_logged (view : View) (scope : Scope) (id : Symbol) :
    Logged view (emitIdentifier id view).view [.search view scope id] := by
  cases searched : View.search view.bindings id view.top with
  | some reg =>
      rw [emitIdentifier_bound searched]
      exact ⟨by simp [View.log, Event.searched, searched],
        by simp [View.log, Event.closure]⟩
  | none =>
      rw [emitIdentifier_closed searched]
      exact ⟨by simp [View.log, View.take, Event.searched, searched],
        by simp [View.log, View.take, Event.closure]⟩

theorem emitClosedValues_logged (scope : Scope) (closureRegister : UInt8)
    (symbols : List Symbol) (i : Nat) (view : View) :
    Logged view (emitClosedValues closureRegister i symbols view).2
      (closedSearches scope symbols view) := by
  induction symbols generalizing view i with
  | nil => exact .silent rfl rfl
  | cons symbol symbols ih =>
      exact (emitIdentifier_logged view scope symbol).trans (ih (i + 1) _)

theorem emitTupleMembers_logged {first : View → Emission}
    {firstTrace : View → List Event}
    (logged : ∀ view, Logged view (first view).view (firstTrace view))
    (outReg : UInt8) (count i : Nat) (view : View) :
    Logged view (emitTupleMembers first outReg i count view).2
      (tupleTrace first firstTrace count view) := by
  induction count generalizing view i with
  | zero => exact .silent rfl rfl
  | succ count ih => exact (logged view).trans (ih (i + 1) _)

theorem functionView_logged (input : CompileInput) (lambdaId selfId : Symbol)
    (funcId : Nat) (view : View) :
    Logged view (functionView input lambdaId selfId funcId view) [] := by
  unfold functionView
  by_cases named : selfId ≠ invalidSymbol
  · simp only [if_pos named]
    exact .silent rfl rfl
  · simp only [if_neg named]
    exact .silent rfl rfl

theorem emitLambdaImpl_logged {input : CompileInput} {body : Expression}
    (logged : ∀ view scope,
      Logged view (emit input body view).view (trace input body view scope))
    (lambdaId selfId : Symbol) (closureRegister : UInt8) (view : View)
    (scope : Scope) :
    Logged view
      (emitLambdaImpl input lambdaId (emit input body) selfId closureRegister
        view).view
      (lambdaTrace input lambdaId selfId body (trace input body) view scope) := by
  let added := addFunction view.module
  let start := functionView input lambdaId selfId added.2.1
    { view with module := added.2.2 }
  let emitted := emit input body start
  have entered : Logged { view with module := added.2.2 } start [] :=
    functionView_logged ..
  have inner := entered.trans (logged start (scope.enter lambdaId selfId))
  have finished : Logged emitted.view
      (finishFunction added.2.1 added.1 emitted view)
      [.function lambdaId selfId body emitted.view.closure] :=
    ⟨by simp [finishFunction, Event.searched], by
      simp [finishFunction, Event.closure, closedSymbols_finishedEntry]⟩
  have values := emitClosedValues_logged scope closureRegister
    emitted.view.closure 0
    (closureView input lambdaId selfId (emit input body) view)
  have whole := (inner.trans finished).trans
    ⟨values.searched, values.closures⟩
  rw [List.nil_append, List.append_assoc] at whole
  exact ⟨whole.searched, whole.closures⟩

theorem emit_logged (input : CompileInput) (expression : Expression)
    (view : View) (scope : Scope) :
    Logged view (emit input expression view).view
      (trace input expression view scope) := by
  induction expression using Expression.functionInduction
    generalizing view scope with
  | integerConstant range literalValue => exact .silent rfl rfl
  | true_ range => exact .silent rfl rfl
  | false_ range => exact .silent rfl rfl
  | error range => exact .silent rfl rfl
  | invalid range => exact .silent rfl rfl
  | tupleFinal range first firstIh => exact .silent rfl rfl
  | identifier range id => exact emitIdentifier_logged view scope id
  | let_ range id value body valueIh bodyIh =>
      let emitted := emit input value view
      have inner := bodyIh (emitted.view.push id emitted.reg)
        (scope.bind id emitted.reg)
      have both := (valueIh view scope).trans inner.push
      exact ⟨both.searched, both.closures⟩
  | letrecFunction range id lambdaRange lambdaId lambdaBody body valueIh
      bodyIh =>
      let inner := view.take.push id view.nextReg
      let innerScope := scope.bind id view.nextReg
      have both := (emitLambdaImpl_logged valueIh lambdaId id view.nextReg inner
        innerScope).trans (bodyIh _ innerScope)
      exact ⟨both.searched, both.closures⟩
  | letrecOther range id value body notLambda valueIh bodyIh =>
      rw [emit_letrec_other notLambda, trace_letrec_other notLambda]
      exact .silent rfl rfl
  | lambda range id body bodyIh =>
      have whole := emitLambdaImpl_logged bodyIh id invalidSymbol view.nextReg
        view.take scope
      exact ⟨whole.searched, whole.closures⟩
  | apply range function argument functionIh argumentIh =>
      have both := (functionIh view scope).trans (argumentIh _ scope)
      exact ⟨both.searched, both.closures⟩
  | binary range operator left right leftIh rightIh =>
      have both := (leftIh view scope).trans (rightIh _ scope)
      simp only [emit, emitBinary]
      split <;> exact ⟨both.searched, both.closures⟩
  | unary range operator arg argIh =>
      have logged := argIh view scope
      simp only [emit, emitUnary]
      split <;> exact ⟨logged.searched, logged.closures⟩
  | if_ range test thenArm elseArm testIh thenIh elseIh =>
      exact ((testIh view scope).trans (thenIh _ scope)).trans (elseIh _ scope)
  | tuple range first rest length firstIh restIh =>
      have members := emitTupleMembers_logged (firstIh · scope)
        view.take.nextReg length 0 view.take.take
      exact ⟨members.searched, members.closures⟩

/-! ## The whole expression -/

/-- The trace of compiling an expression. -/
def entryTrace (input : CompileInput) (expression : Expression) : List Event :=
  trace input expression (entryView input) .entry

/-- The trace of a closed expression, from the entry function on. -/
theorem entry_traced {expression : Expression}
    (closed : freeSymbols expression = []) (input : CompileInput) :
    Traced [] (emitEntry input expression).view.closure .entry
      (compiledSymbols expression) (entryTrace input expression) := by
  have none_ : compiledSymbols expression = [] :=
    List.subset_nil.mp (closed ▸ compiledSymbols_subset expression)
  exact emit_traced input expression (Tracks.entry input) (none_ ▸ nofun)

/-- The entry function of a closed expression closes over nothing. -/
theorem entry_closure {expression : Expression}
    (closed : freeSymbols expression = []) (input : CompileInput) :
    (emitEntry input expression).view.closure = [] := by
  refine List.eq_nil_iff_forall_not_mem.mpr fun symbol member => ?_
  rcases (entry_traced closed input).only symbol member with
    old | ⟨inside, -⟩
  · cases old
  · have free := compiledSymbols_subset expression inside
    rw [closed] at free
    cases free

/--
The trace of a closed expression is what its compilation recorded of searches
and of the closure lists that it finished.
-/
theorem compileModule_recorded {input : CompileInput} {expression : Expression}
    {funcId : Nat} {after : CompileState}
    (returns : compileModule input expression = .ok (funcId, after))
    (closed : freeSymbols expression = []) :
    after.searched =
        (entryTrace input expression).filterMap Event.searched ∧
      after.finished.map (·.2.closedSymbols) =
        (entryTrace input expression).filterMap Event.closure ++ [[]] := by
  rcases compileModule_ok returns with ⟨-, -, -, finishedIs, searchedIs⟩
  have logged := emit_logged input expression (entryView input) .entry
  refine ⟨searchedIs.trans logged.searched, ?_⟩
  rw [finishedIs]
  change ((emitEntry input expression).view.finished ++ [_]).map _ = _
  rw [List.map_append, List.map_singleton]
  dsimp only
  rw [closedSymbols_finishedEntry, entry_closure closed input]
  exact congrArg (· ++ [[]]) logged.closures

/-- The type checker and the compiler accept an expression. -/
def accepted (fuel : Nat) (expression : Expression) : Bool :=
  let checked := Types.getExpressionType zeroedInput.tokens fuel expression
  let compiled := compileModule zeroedInput expression
  checked.1.isOk && checked.2.errors.isEmpty &&
    (compiled.toOption.map fun result => result.2.errors) = some []

end Millie.Compiler
