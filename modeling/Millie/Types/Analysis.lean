import Millie.Types.Rebinding
import Millie.Types.Unify

/-!
# What the analysis keeps

Every case of `_Analyze` makes progress from its non-generic list.  Types in the
environment may be generic, but hold no variable that the non-generic list does
not reach; types outside it hold no generic variable.  As long as no entangled
let rec variable is rebound, the links of the graph fall along a rank.
-/

namespace Millie.Types

open Relation Links Weakest
open Millie.Symbols Millie.Syntax

/-! ## The log -/

namespace CheckEvent

/-- No type that is unified or returned reaches a generic variable. -/
def NoGenerics : CheckEvent → Prop
  | .unifying typeOne typeTwo graph =>
      Free (· = .genericVariable) graph typeOne ∧
        Free (· = .genericVariable) graph typeTwo
  | .returned type graph => Free (· = .genericVariable) graph type
  | _ => True

/-- No entangled variable is rebound. -/
def Untangled : CheckEvent → Prop
  | .rebinding newType nonGenerics graph =>
      ¬graph.Entangled newType nonGenerics
  | _ => True

/-- Between two steps the graph is in order and has a rank. -/
def InOrder : CheckEvent → Prop
  | .unified graph | .rebound graph =>
      graph.WellFormed ∧ graph.Clean ∧ graph.Ranked
  | _ => True

end CheckEvent

/-- What a run has shown up to some moment. -/
structure Shown (log : List CheckEvent) : Prop where
  noGenerics : ∀ event ∈ log, event.NoGenerics
  inOrder : ∀ earlier event, earlier ++ [event] <+: log →
    (∀ e ∈ earlier, e.Untangled) → event.InOrder

theorem Shown.nil : Shown [] where
  noGenerics := nofun
  inOrder earlier event inside _ :=
    absurd (List.prefix_nil.mp inside) (by simp)

theorem Shown.append {log : List CheckEvent} {event : CheckEvent}
    (shown : Shown log) (noGenerics : event.NoGenerics)
    (inOrder : (∀ e ∈ log, e.Untangled) → event.InOrder) :
    Shown (log ++ [event]) where
  noGenerics e member := by
    rcases List.mem_append.mp member with old | new
    · exact shown.noGenerics e old
    · rwa [List.mem_singleton.mp new]
  inOrder earlier e inside untangled := by
    rcases List.prefix_concat_iff.mp inside with same | old
    · rcases List.append_inj' same rfl with ⟨rfl, last⟩
      cases last
      exact inOrder untangled
    · exact shown.inOrder earlier e old untangled

/-- What holds between two steps. -/
structure Holds (state : CheckState) : Prop where
  shown : Shown state.log
  ranked : (∀ e ∈ state.log, e.Untangled) → state.graph.Ranked

/-! ## Advancing -/

theorem Unwanted.weaken {fewer more : List ErrorReport}
    (grows : fewer <+: more) {type : TypeExpType} (bad : Unwanted more type) :
    Unwanted fewer type := by
  rcases bad with isGeneric | ⟨rfl, isError⟩
  · exact .inl isGeneric
  · exact .inr ⟨List.prefix_nil.mp grows, isError⟩

theorem Failed.weaken {fewer more : List ErrorReport}
    (grows : fewer <+: more) {type : TypeExpType} (bad : Failed more type) :
    Failed fewer type := by
  rcases bad with ⟨rfl, isError⟩
  exact ⟨List.prefix_nil.mp grows, isError⟩

/-- What a part of the analysis with some roots does. -/
structure Advances (roots : List TypePointer) (before after : CheckState)
    (live : List TypePointer) : Prop where
  within : ∀ n ∈ roots, n < before.graph.size
  errors : before.errors <+: after.errors
  progress : Progress (Unwanted after.errors) roots before.graph after.graph
    live
  holds : Holds after

/-- The analysis may start here. -/
structure Ready (state : CheckState) (env : TypeEnvironment)
    (nonGenerics : NonGenericTypeList) : Prop where
  wellFormed : state.graph.WellFormed
  clean : state.graph.Clean
  holds : Holds state
  within : ∀ n ∈ nonGenerics, n < state.graph.size
  free : ∀ n ∈ nonGenerics, Free (Unwanted state.errors) state.graph n
  inside : ∀ entry ∈ env, entry.2 < state.graph.size
  covered : ∀ entry ∈ env, Covered nonGenerics state.graph entry.2
  fails : ∀ entry ∈ env, Free (Failed state.errors) state.graph entry.2

namespace Advances

variable {roots inner live fresh : List TypePointer}
    {before state after : CheckState}

theorem inside (sofar : Advances roots before state live) {p : TypePointer}
    (known : p ∈ live ∨ p ∈ roots) : p < state.graph.size := by
  rcases known with isLive | isRoot
  · exact sofar.progress.inside p isLive
  · exact Nat.lt_of_lt_of_le (sofar.within p isRoot) sofar.progress.grows.size

theorem trans (first : Advances roots before state live)
    (second : Advances inner state after fresh)
    (known : ∀ n ∈ inner, n ∈ live ∨ n ∈ roots) :
    Advances roots before after (fresh ++ live) where
  within := first.within
  errors := first.errors.trans second.errors
  progress := (first.progress.weaken fun _ => Unwanted.weaken second.errors)
    |>.trans first.within second.progress known
  holds := second.holds

theorem mono (sofar : Advances roots before state live)
    (subset : ∀ p ∈ fresh, p ∈ live ∨ p ∈ roots) :
    Advances roots before state fresh where
  within := sofar.within
  errors := sofar.errors
  progress := sofar.progress.mono subset sofar.within
  holds := sofar.holds

/-- A step on the graph. -/
theorem onGraph (sofar : Advances roots before state live)
    {graph : TypeGraph}
    (step : Progress (Unwanted state.errors) inner state.graph graph fresh)
    (known : ∀ n ∈ inner, n ∈ live ∨ n ∈ roots)
    (ranked : state.graph.Ranked → graph.Ranked) :
    Advances roots before { state with graph := graph } (fresh ++ live) where
  within := sofar.within
  errors := sofar.errors
  progress := sofar.progress.trans sofar.within step known
  holds := ⟨sofar.holds.shown, fun untangled =>
    ranked (sofar.holds.ranked untangled)⟩

theorem record (sofar : Advances roots before state live)
    (event : CheckEvent) (noGenerics : event.NoGenerics)
    (inOrder : (∀ e ∈ state.log, e.Untangled) → event.InOrder) :
    Advances roots before { state with log := state.log ++ [event] } live where
  within := sofar.within
  errors := sofar.errors
  progress := sofar.progress
  holds := ⟨sofar.holds.shown.append noGenerics inOrder, fun untangled =>
    sofar.holds.ranked fun e member =>
      untangled e (List.mem_append_left _ member)⟩

theorem report (sofar : Advances roots before state live)
    (report : ErrorReport) :
    Advances roots before
      { state with errors := state.errors ++ [report] } live where
  within := sofar.within
  errors := sofar.errors.trans (List.prefix_append _ _)
  progress := sofar.progress.weaken fun _ =>
    Unwanted.weaken (List.prefix_append _ _)
  holds := ⟨sofar.holds.shown, sofar.holds.ranked⟩

/-- A node without links may be used at any time. -/
theorem leaf (sofar : Advances roots before state live) {p : TypePointer}
    {kind : TypeExpType} (inside : p < state.graph.size)
    (node : state.graph.nodes p = ⟨kind, none, .null⟩)
    (plain : kind ≠ .variable_) (good : ¬Unwanted state.errors kind) :
    Advances roots before state (p :: live) := by
  have only : ∀ q, state.graph.Reaches p q → q = p := by
    intro q path
    apply Links.reaches_of_terminal _ path
    intro r link
    rw [TypeGraph.Link, node] at link
    rcases link with first | ⟨-, second⟩
    · cases first
    · cases second
  have step : Progress (Unwanted state.errors) [] state.graph state.graph [p] := by
    apply Progress.refl sofar.progress.wellFormed sofar.progress.clean
    · intro q member
      rwa [List.mem_singleton.mp member]
    · intro q member v unbound path
      rw [List.mem_singleton.mp member] at path
      rw [only v path, TypeGraph.Unbound, node] at unbound
      exact absurd unbound.1 plain
    · rintro q (member | member)
      · rw [List.mem_singleton.mp member]
        intro r path isBad
        rw [only r path, node] at isBad
        exact good isBad
      · cases member
  exact sofar.onGraph step (by simp) id

theorem integer (sofar : Advances roots before state live) :
    Advances roots before state (integerTypeExp :: live) :=
  sofar.leaf (Nat.lt_of_lt_of_le (by decide) sofar.progress.wellFormed.size)
    sofar.progress.wellFormed.integer nofun (by simp [Unwanted])

theorem boolean (sofar : Advances roots before state live) :
    Advances roots before state (booleanTypeExp :: live) :=
  sofar.leaf (Nat.lt_of_lt_of_le (by decide) sofar.progress.wellFormed.size)
    sofar.progress.wellFormed.boolean nofun (by simp [Unwanted])

/-- Once something was reported, the error type may be used. -/
theorem error (sofar : Advances roots before state live)
    (reported : state.errors ≠ []) :
    Advances roots before state (errorTypeExp :: live) :=
  sofar.leaf (Nat.lt_of_lt_of_le (by decide) sofar.progress.wellFormed.size)
    sofar.progress.wellFormed.error nofun (by simp [Unwanted, reported])

/-- A new node over types that are in use. -/
theorem add (sofar : Advances roots before state live) {contents : TypeExp}
    (arguments : List TypePointer)
    (known : ∀ q ∈ arguments, q ∈ live ∨ q ∈ roots)
    (shaped : contents.Shaped state.graph.size)
    (noError : contents.type ≠ .error)
    (noGeneric : contents.type ≠ .genericVariable)
    (blank : contents.IsVariable → contents.second = .null)
    (links : ∀ q, (state.graph.add contents).Link state.graph.size q →
      q ∈ arguments) :
    Advances roots before { state with graph := state.graph.add contents }
      (state.graph.size :: live) := by
  have progress := sofar.progress
  have good : ¬Unwanted state.errors contents.type := by
    rintro (isGeneric | ⟨-, isError⟩)
    · exact noGeneric isGeneric
    · exact noError isError
  have step := progress_add progress.wellFormed progress.clean shaped noError
    blank good links (fun q member => sofar.inside (known q member))
    fun q member => progress.free q (known q member)
  apply sofar.onGraph step known
  intro ranked
  apply ranked.allocates progress.wellFormed
    (TypeGraph.add_allocates state.graph contents)
  intro p q large small link
  rw [Nat.le_antisymm (Nat.le_of_lt_succ small) large] at link ⊢
  exact sofar.inside (known q (links q link))

theorem addVariable (sofar : Advances roots before state live) :
    Advances roots before
      { state with graph := state.graph.add ⟨.variable_, none, .null⟩ }
      (state.graph.size :: live) := by
  apply sofar.add [] nofun (.unbound .null) nofun nofun
    (fun _ => rfl)
  intro q link
  rw [TypeGraph.Link, TypeGraph.add_node] at link
  rcases link with first | ⟨-, second⟩
  · cases first
  · cases second

theorem addBoth (sofar : Advances roots before state live)
    {kind : TypeExpType} {join : Ty Leaf → Ty Leaf → Ty Leaf}
    (joins : Joins kind join) {a b : TypePointer}
    (knownA : a ∈ live ∨ a ∈ roots) (knownB : b ∈ live ∨ b ∈ roots) :
    Advances roots before
      { state with graph := state.graph.add ⟨kind, some a, .type b⟩ }
      (state.graph.size :: live) := by
  have plain := joins.plain a b
  apply sofar.add [a, b] _
    (joins.shaped (sofar.inside knownA) (sofar.inside knownB)) joins.noError
    (fun isGeneric => plain (.inr isGeneric))
    (fun isVariable => absurd isVariable plain)
  · intro q link
    rw [TypeGraph.Link, TypeGraph.add_node] at link
    rcases link with first | ⟨-, second⟩
    · cases first
      simp
    · cases second
      simp
  · intro q member
    rcases Unifies.mem_pair member with rfl | rfl <;> assumption

theorem addFinal (sofar : Advances roots before state live)
    {a : TypePointer} (known : a ∈ live ∨ a ∈ roots) :
    Advances roots before
      { state with graph := state.graph.add ⟨.tupleFinal, some a, .null⟩ }
      (state.graph.size :: live) := by
  apply sofar.add [a] _ (.tupleFinal (sofar.inside known)) nofun
    nofun (fun _ => rfl)
  · intro q link
    rw [TypeGraph.Link, TypeGraph.add_node] at link
    rcases link with first | ⟨-, second⟩
    · cases first
      exact List.mem_singleton_self _
    · cases second
  · intro q member
    rwa [List.mem_singleton.mp member]

end Advances

/-! ## Being ready -/

namespace Ready

variable {state : CheckState} {env : TypeEnvironment}
    {nonGenerics : NonGenericTypeList}

theorem start (ready : Ready state env nonGenerics) :
    Advances nonGenerics state state [] where
  within := ready.within
  errors := List.prefix_refl _
  progress := .refl ready.wellFormed ready.clean nofun nofun
    fun p member => ready.free p (member.resolve_left nofun)
  holds := ready.holds

/-- The analysis may start where a part of it ended. -/
theorem advance {after : CheckState} {live : List TypePointer}
    (ready : Ready state env nonGenerics)
    (advances : Advances nonGenerics state after live) :
    Ready after env nonGenerics where
  wellFormed := advances.progress.wellFormed
  clean := advances.progress.clean
  holds := advances.holds
  within n member := advances.inside (.inr member)
  free n member := advances.progress.free n (.inr member)
  inside entry member := Nat.lt_of_lt_of_le (ready.inside entry member)
    advances.progress.grows.size
  covered entry member := (ready.covered entry member).grows ready.wellFormed
    ready.within (ready.inside entry member) advances.progress.grows
  fails entry member := by
    have progress : Progress (Failed after.errors) nonGenerics state.graph
        after.graph live := advances.progress.weaken fun _ => .inr
    apply progress.keeps_free ready.wellFormed ready.within
      (ready.inside entry member)
    intro q path isBad
    exact ready.fails entry member q path (isBad.weaken advances.errors)

/-- Logging something that holds. -/
theorem relog {log : List CheckEvent} (ready : Ready state env nonGenerics)
    (holds : Holds { state with log := log }) :
    Ready { state with log := log } env nonGenerics where
  wellFormed := ready.wellFormed
  clean := ready.clean
  holds := holds
  within := ready.within
  free := ready.free
  inside := ready.inside
  covered := ready.covered
  fails := ready.fails

/-- Binding a name to a covered type. -/
theorem bind (ready : Ready state env nonGenerics) (id : Symbol)
    {type : TypePointer} (inside : type < state.graph.size)
    (covered : Covered nonGenerics state.graph type)
    (fails : Free (Failed state.errors) state.graph type) :
    Ready state ((id, type) :: env) nonGenerics where
  wellFormed := ready.wellFormed
  clean := ready.clean
  holds := ready.holds
  within := ready.within
  free := ready.free
  inside entry member := by
    rcases List.mem_cons.mp member with rfl | old
    · exact inside
    · exact ready.inside entry old
  covered entry member := by
    rcases List.mem_cons.mp member with rfl | old
    · exact covered
    · exact ready.covered entry old
  fails entry member := by
    rcases List.mem_cons.mp member with rfl | old
    · exact fails
    · exact ready.fails entry old

/-- Binding a name to a type that is not generic. -/
theorem bindNonGeneric (ready : Ready state env nonGenerics) (id : Symbol)
    {type : TypePointer} (inside : type < state.graph.size)
    (free : Free (Unwanted state.errors) state.graph type) :
    Ready state ((id, type) :: env) (type :: nonGenerics) := by
  have grown : Ready state env (type :: nonGenerics) := by
    constructor
    · exact ready.wellFormed
    · exact ready.clean
    · exact ready.holds
    · intro n member
      rcases List.mem_cons.mp member with rfl | old
      · exact inside
      · exact ready.within n old
    · intro n member
      rcases List.mem_cons.mp member with rfl | old
      · exact free
      · exact ready.free n old
    · exact ready.inside
    · intro entry member v unbound path
      rcases ready.covered entry member v unbound path with ⟨n, isRoot, route⟩
      exact ⟨n, List.mem_cons_of_mem _ isRoot, route⟩
    · exact ready.fails
  apply grown.bind id inside
  · exact fun v _ path => ⟨type, List.mem_cons_self, path⟩
  · exact fun q path isBad => free q path (.inr isBad)

end Ready

/-! ## The cases of the analysis -/

/-- What every call of the analysis does. -/
def Analyzes (analyze : TypeEnvironment → NonGenericTypeList →
    CheckM TypePointer) : Prop :=
  ∀ {env nonGenerics state}, Ready state env nonGenerics →
    wp (fun after => Shown after.log) (analyze env nonGenerics)
      (fun type after => Advances nonGenerics state after [type]) state

section

variable {roots live : List TypePointer} {before state : CheckState}

/-- A call of the analysis inside another one. -/
theorem Analyzes.within {analyze : TypeEnvironment → NonGenericTypeList →
    CheckM TypePointer} (analyzes : Analyzes analyze) {env : TypeEnvironment}
    {nonGenerics : NonGenericTypeList} (ready : Ready state env nonGenerics)
    (sofar : Advances roots before state live)
    (known : ∀ n ∈ nonGenerics, n ∈ live ∨ n ∈ roots) :
    wp (fun after => Shown after.log) (analyze env nonGenerics)
      (fun type after => Advances roots before after (type :: live)) state :=
  wp_mono (analyzes ready) (fun _ _ advances => sofar.trans advances known)
    fun _ => id

theorem Advances.noGenerics (sofar : Advances roots before state live)
    {p : TypePointer} (known : p ∈ live ∨ p ∈ roots) :
    Free (· = .genericVariable) state.graph p :=
  fun q path isGeneric =>
    sofar.progress.free p known q path (.inl isGeneric)

theorem unify_advances {tokens : Tokens} (fuel : Nat) {range : TokenRange}
    {errorCode : UnificationError} (sofar : Advances roots before state live)
    {p q : TypePointer} (knownP : p ∈ live ∨ p ∈ roots)
    (knownQ : q ∈ live ∨ q ∈ roots) :
    wp (fun after => Shown after.log)
      (unify tokens fuel range errorCode p q)
      (fun _ after => Advances roots before after live) state := by
  have wellFormed := sofar.progress.wellFormed
  have clean := sofar.progress.clean
  have known : ∀ n ∈ [p, q], n ∈ live ∨ n ∈ roots := by
    intro n member
    rcases Unifies.mem_pair member with rfl | rfl <;> assumption
  have unifying := sofar.record (.unifying p q state.graph)
    ⟨sofar.noGenerics knownP, sofar.noGenerics knownQ⟩ fun _ => trivial
  apply wp_mono (unify_spec fuel wellFormed clean (sofar.inside knownP)
    (sofar.inside knownQ))
  · rintro - ⟨graph, errors, log⟩
      ⟨moments, reports, unifies, sameErrors, -, sameLog⟩
    dsimp only at unifies sameErrors sameLog
    subst sameErrors
    subst sameLog
    have step := unifies.progress wellFormed clean
      (fun n member => sofar.inside (known n member))
      fun n member => sofar.progress.free n (known n member)
    have stepped := unifying.onGraph step known unifies.ranked
    have recorded := stepped.record (.unified graph) trivial
      fun untangled => ⟨step.wellFormed, step.clean,
        stepped.holds.ranked untangled⟩
    rw [List.append_assoc] at recorded
    exact {
      within := recorded.within
      errors := recorded.errors.trans (List.prefix_append _ _)
      progress := recorded.progress.weaken fun _ =>
        Unwanted.weaken (List.prefix_append _ _)
      holds := ⟨recorded.holds.shown, recorded.holds.ranked⟩ }
  · intro after same
    rw [same]
    exact unifying.holds.shown

/-- The first binding of a name is made fresh. -/
theorem lookupType_spec (fuel : Nat) (id : Symbol) {graph : TypeGraph}
    (wellFormed : graph.WellFormed) (clean : graph.Clean)
    {env : TypeEnvironment} (inside : ∀ entry ∈ env, entry.2 < graph.size) :
    wpExcept (fun _ => True) (lookupType fuel id env)
      (fun result after => result = none ∧ after = graph ∨
        ∃ entry ∈ env, ∃ r, result = some r ∧
          Copies .freshen (fun _ => False) graph entry.2 r after) graph := by
  induction env with
  | nil => exact .inl ⟨rfl, rfl⟩
  | cons entry env ih =>
      rw [lookupType]
      by_cases found : entry.1 = id
      · rw [if_pos found, wpExcept_bind]
        apply wpExcept_mono (makeFreshTypeExp_spec wellFormed clean fuel
          (inside entry List.mem_cons_self)) ?_ fun _ _ => trivial
        intro r after copies
        exact .inr ⟨entry, List.mem_cons_self, r, rfl, copies⟩
      · rw [if_neg found]
        apply wpExcept_mono
          (ih fun entry member => inside entry (List.mem_cons_of_mem _ member))
          ?_ fun _ _ => trivial
        rintro result after (⟨none, same⟩ | ⟨other, member, rest⟩)
        · exact .inl ⟨none, same⟩
        · exact .inr ⟨other, List.mem_cons_of_mem _ member, rest⟩

/-! ## The cases -/

section

variable {tokens : Tokens} {fuel : Nat} {range : TokenRange}
    {env : TypeEnvironment} {nonGenerics : NonGenericTypeList}

theorem analyzeIdentifier_advances (id : Symbol)
    (ready : Ready state env nonGenerics) :
    wp (fun after => Shown after.log)
      (analyzeIdentifier tokens fuel range id env)
      (fun type after => Advances nonGenerics state after [type]) state := by
  have start := ready.start.record (.looking id env state.graph) trivial
    fun _ => trivial
  have logged := ready.relog start.holds
  rw [analyzeIdentifier, wp_bind, wp_record, wp_bind]
  apply wp_onGraph (lookupType_spec fuel id logged.wellFormed logged.clean
    logged.inside) start.holds.shown
  rintro result graph (⟨rfl, rfl⟩ | ⟨entry, member, r, rfl, copies⟩)
  · have reported := start.report ⟨"Unbound identifier",
      (tokens range.startToken).start,
      (tokens range.endToken).start + (tokens range.endToken).length⟩
    exact reported.error (by simp)
  · have step := copies.freshen ready.wellFormed ready.clean ready.within
      ready.free (ready.covered entry member) (ready.fails entry member)
    apply start.onGraph step fun n isRoot => .inr isRoot
    intro ranked
    exact ranked.allocates ready.wellFormed copies.allocates copies.ordered

theorem analyzeLambda_advances (lambdaId : Symbol)
    {body : TypeEnvironment → NonGenericTypeList → CheckM TypePointer}
    (bodySpec : Analyzes body) (ready : Ready state env nonGenerics) :
    wp (fun after => Shown after.log)
      (analyzeLambda lambdaId body env nonGenerics)
      (fun type after => Advances nonGenerics state after [type]) state := by
  have opened := ready.start.addVariable
  have readyBody := (ready.advance opened).bindNonGeneric lambdaId
    (opened.inside (.inl List.mem_cons_self))
    (opened.progress.free _ (.inl List.mem_cons_self))
  rw [analyzeLambda, wp_bind, makeTypeVar, wp_onGraph_allocate, wp_bind]
  apply wp_mono (bodySpec.within readyBody opened ?_) ?_ fun _ => id
  · intro n member
    rcases List.mem_cons.mp member with rfl | isRoot
    · exact .inl List.mem_cons_self
    · exact .inr isRoot
  · intro resultType after analyzed
    exact (analyzed.addBoth .func (.inl (by simp)) (.inl (by simp))).mono
      (by simp)

theorem isErrorType_advances {p : TypePointer}
    (sofar : Advances roots before state live) (known : p ∈ live ∨ p ∈ roots)
    (isError : (p = errorTypeExp || (state.graph.nodes p).type = .error) =
      true) : state.errors ≠ [] := by
  intro quiet
  apply sofar.progress.free p known p .refl
  refine .inr ⟨quiet, ?_⟩
  simp only [Bool.or_eq_true, decide_eq_true_eq] at isError
  rcases isError with rfl | type
  · rw [sofar.progress.wellFormed.error]
  · exact type

theorem analyzeApply_advances
    {function argument : TypeEnvironment → NonGenericTypeList →
      CheckM TypePointer} (functionSpec : Analyzes function)
    (argumentSpec : Analyzes argument) (ready : Ready state env nonGenerics) :
    wp (fun after => Shown after.log)
      (analyzeApply tokens fuel range (function env nonGenerics)
        (argument env nonGenerics))
      (fun type after => Advances nonGenerics state after [type]) state := by
  have roots : ∀ {live : List TypePointer}, ∀ n ∈ nonGenerics,
      n ∈ live ∨ n ∈ nonGenerics := fun _ isRoot => .inr isRoot
  rw [analyzeApply, wp_bind]
  apply wp_mono (functionSpec.within ready ready.start roots) ?_ fun _ => id
  intro functionType middle first
  rw [wp_bind]
  apply wp_mono (argumentSpec.within (ready.advance first) first roots) ?_
    fun _ => id
  intro argType after second
  rw [wp_bind, wp_isErrorType]
  split
  · rename_i isError
    exact (second.error (isErrorType_advances second (.inl (by simp))
      isError)).mono (by simp)
  rw [wp_bind, wp_isErrorType]
  split
  · rename_i isError
    exact (second.error (isErrorType_advances second (.inl (by simp))
      isError)).mono (by simp)
  have result := second.addVariable
  have wanted := result.addBoth .func (a := argType) (.inl (by simp))
    (b := after.graph.size) (.inl (by simp))
  rw [wp_bind, makeTypeVar, wp_onGraph_allocate, wp_bind, makeFunctionType,
    wp_onGraph_allocate, wp_bind]
  apply wp_mono (unify_advances fuel wanted (.inl List.mem_cons_self)
    (.inl (by simp))) ?_ fun _ => id
  intro _ final unified
  exact unified.mono (by simp)

/-- A name may be bound in the body to the generic type of its value. -/
theorem generalising_advances {type : TypePointer}
    (ready : Ready before env nonGenerics)
    (sofar : Advances nonGenerics before state live) (isLive : type ∈ live)
    {generic : TypePointer} {graph : TypeGraph}
    (copies : Copies .generalize (state.graph.ReachedFrom nonGenerics)
      state.graph type generic graph) (letId : Symbol) :
    Advances nonGenerics before { state with graph := graph } live ∧
      Ready { state with graph := graph } ((letId, generic) :: env)
        nonGenerics := by
  have progress := sofar.progress
  have step : Progress (Unwanted state.errors) [] state.graph graph [] :=
    .of_allocates copies.allocates progress.clean copies.wellFormed copies.clean
  have allocated := sofar.onGraph step nofun fun ranked =>
    ranked.allocates progress.wellFormed copies.allocates copies.ordered
  exact ⟨allocated, (ready.advance allocated).bind letId copies.inside
    (copies.covered progress.wellFormed (ready.advance sofar).within)
    (copies.failed fun q path isBad =>
      progress.free _ (.inl isLive) q path (.inr isBad))⟩

theorem analyzeLet_advances (letId : Symbol)
    {value body : TypeEnvironment → NonGenericTypeList → CheckM TypePointer}
    (valueSpec : Analyzes value) (bodySpec : Analyzes body)
    (ready : Ready state env nonGenerics) :
    wp (fun after => Shown after.log)
      (analyzeLet fuel letId value body env nonGenerics)
      (fun type after => Advances nonGenerics state after [type]) state := by
  rw [analyzeLet, wp_bind]
  apply wp_mono (valueSpec ready) ?_ fun _ => id
  intro defnType middle defined
  have progress := defined.progress
  have within := (ready.advance defined).within
  have inside := defined.inside (.inl List.mem_cons_self)
  rw [wp_bind]
  apply wp_onGraph (makeGenericTypeExp_spec progress.wellFormed progress.clean
    within fuel inside) defined.holds.shown
  intro generic graph copies
  rcases generalising_advances ready defined List.mem_cons_self copies letId
    with ⟨allocated, readyBody⟩
  apply wp_mono (bodySpec.within readyBody allocated fun _ => .inr) ?_
    fun _ => id
  intro type after analyzed
  exact analyzed.mono (by simp)

/-- The let rec variable may be bound in the body once it is rebound. -/
theorem rebinding_advances {a : TypePointer}
    (ready : Ready before env nonGenerics)
    (sofar : Advances nonGenerics before state live) (isLive : a ∈ live)
    (new : before.graph.size ≤ a)
    (isVariable : (state.graph.nodes a).type = .variable_)
    (logged : .rebinding a nonGenerics state.graph ∈ state.log)
    {generic : TypePointer} {graph : TypeGraph}
    (copies : Copies .generalize (state.graph.ReachedFrom nonGenerics)
      state.graph a generic graph) (letId : Symbol) :
    Advances nonGenerics before
        { state with graph := graph.bind a generic } [] ∧
      Ready { state with graph := graph.bind a generic }
        ((letId, a) :: env) nonGenerics := by
  have progress := sofar.progress
  have inside := sofar.inside (.inl isLive)
  have advances : Advances nonGenerics before
      { state with graph := graph.bind a generic } [] := {
    within := ready.within
    errors := sofar.errors
    progress := .rebinding copies progress.wellFormed isVariable inside
      Unwanted.leafy progress ready.within isLive new
    holds := ⟨sofar.holds.shown, fun untangled =>
      rebinding_ranked copies progress.wellFormed isVariable inside
        (sofar.holds.ranked untangled) (untangled _ logged)⟩ }
  refine ⟨advances, (ready.advance advances).bind letId
    (Nat.lt_of_lt_of_le inside copies.allocates.size) ?_ ?_⟩
  · exact rebinding_covered copies progress.wellFormed isVariable inside
      (ready.advance sofar).within
  · exact rebinding_failed copies progress.wellFormed isVariable inside
      fun q path isBad => progress.free a (.inl isLive) q path (.inr isBad)

theorem analyzeLetRec_advances (letId : Symbol)
    {value body : TypeEnvironment → NonGenericTypeList → CheckM TypePointer}
    (valueSpec : Analyzes value) (bodySpec : Analyzes body)
    (ready : Ready state env nonGenerics) :
    wp (fun after => Shown after.log)
      (analyzeLetRec tokens fuel range letId value body env nonGenerics)
      (fun type after => Advances nonGenerics state after [type]) state := by
  have opened := ready.start.addVariable
  have readyValue := (ready.advance opened).bindNonGeneric letId
    (opened.inside (.inl List.mem_cons_self))
    (opened.progress.free _ (.inl List.mem_cons_self))
  rw [analyzeLetRec, wp_bind, makeTypeVar, wp_onGraph_allocate, wp_bind]
  apply wp_mono (valueSpec readyValue) ?_ fun _ => id
  intro defnType defined valued
  rw [wp_bind]
  apply wp_mono (unify_advances fuel valued (.inr List.mem_cons_self)
    (.inl List.mem_cons_self)) ?_ fun _ => id
  intro _ middle unified
  have known : ∀ n ∈ state.graph.size :: nonGenerics,
      n ∈ [state.graph.size] ∨ n ∈ nonGenerics := by
    intro n member
    rcases List.mem_cons.mp member with rfl | isRoot
    · exact .inl (List.mem_singleton_self _)
    · exact .inr isRoot
  have sofar := (opened.trans unified known).record
    (.rebinding state.graph.size nonGenerics middle.graph) trivial
    fun _ => trivial
  have isLive : state.graph.size ∈ [defnType] ++ [state.graph.size] := by simp
  have isVariable : (middle.graph.nodes state.graph.size).type = .variable_ := by
    rw [unified.progress.grows.type_eq (opened.inside (.inl List.mem_cons_self)),
      TypeGraph.add_node]
  rw [wp_bind, wp_record, wp_bind]
  apply wp_onGraph (makeGenericTypeExp_spec sofar.progress.wellFormed
    sofar.progress.clean (ready.advance sofar).within fuel
    (sofar.inside (.inl isLive))) sofar.holds.shown
  intro generic graph copies
  rcases rebinding_advances ready sofar isLive (Nat.le_refl _) isVariable
    (by simp) copies letId with ⟨rebound, readyBody⟩
  have recorded := rebound.record
    (.rebound (graph.bind state.graph.size generic)) trivial
    fun untangled => ⟨rebound.progress.wellFormed, rebound.progress.clean,
      rebound.holds.ranked untangled⟩
  rw [wp_bind, wp_onGraph_setVarInstance, wp_bind, wp_record]
  apply wp_mono (bodySpec.within (readyBody.relog recorded.holds) recorded
    fun _ => .inr) ?_ fun _ => id
  intro type after analyzed
  exact analyzed.mono (by simp)

theorem analyzeIf_advances {testRange : TokenRange}
    {test thenArm elseArm : TypeEnvironment → NonGenericTypeList →
      CheckM TypePointer} (testSpec : Analyzes test)
    (thenSpec : Analyzes thenArm) (elseSpec : Analyzes elseArm)
    (ready : Ready state env nonGenerics) :
    wp (fun after => Shown after.log)
      (analyzeIf tokens fuel range testRange (test env nonGenerics)
        (thenArm env nonGenerics) (elseArm env nonGenerics))
      (fun type after => Advances nonGenerics state after [type]) state := by
  have roots : ∀ {live : List TypePointer}, ∀ n ∈ nonGenerics,
      n ∈ live ∨ n ∈ nonGenerics := fun _ isRoot => .inr isRoot
  rw [analyzeIf, wp_bind]
  apply wp_mono (testSpec.within ready ready.start roots) ?_ fun _ => id
  intro condType tested first
  rw [wp_bind]
  apply wp_mono (unify_advances fuel first.boolean (.inl (by simp))
    (.inl List.mem_cons_self)) ?_ fun _ => id
  intro _ conditioned second
  rw [wp_bind]
  apply wp_mono (thenSpec.within (ready.advance second) second roots) ?_
    fun _ => id
  intro thenType middle third
  rw [wp_bind]
  apply wp_mono (elseSpec.within (ready.advance third) third roots) ?_
    fun _ => id
  intro elseType after fourth
  rw [wp_bind]
  apply wp_mono (unify_advances fuel fourth (.inl (by simp)) (.inl (by simp)))
    ?_ fun _ => id
  intro _ final unified
  exact unified.mono (by simp)

/-- An operator's types are static. -/
theorem operators_static {op : OperatorEntry} (member : op ∈ operators) :
    (op.left = none ∨ op.left = some integerTypeExp) ∧
      (op.right = none ∨ op.right = some integerTypeExp) ∧
      (op.result = integerTypeExp ∨ op.result = booleanTypeExp) := by
  simp only [operators, List.mem_cons, List.not_mem_nil, or_false] at member
  rcases member with rfl | rfl | rfl | rfl | rfl <;> simp

theorem unifyOperand_advances {operand : TypePointer}
    {required : Option TypePointer}
    (static : required = none ∨ required = some integerTypeExp)
    (sofar : Advances roots before state live) (isLive : operand ∈ live) :
    wp (fun after => Shown after.log)
      (unifyOperand tokens fuel range operand required)
      (fun _ after => Advances roots before after live) state := by
  rcases static with rfl | rfl
  · exact sofar
  · apply wp_mono (unify_advances fuel sofar.integer
      (.inl (List.mem_cons_of_mem _ isLive)) (.inl List.mem_cons_self)) ?_
      fun _ => id
    intro _ after unified
    exact unified.mono fun p member => .inl (List.mem_cons_of_mem _ member)

theorem analyzeBinary_advances (operator : TokenType)
    {binaryLeft binaryRight : TypeEnvironment → NonGenericTypeList →
      CheckM TypePointer} (leftSpec : Analyzes binaryLeft)
    (rightSpec : Analyzes binaryRight) (ready : Ready state env nonGenerics) :
    wp (fun after => Shown after.log)
      (analyzeBinary tokens fuel range operator (binaryLeft env nonGenerics)
        (binaryRight env nonGenerics))
      (fun type after => Advances nonGenerics state after [type]) state := by
  have roots : ∀ {live : List TypePointer}, ∀ n ∈ nonGenerics,
      n ∈ live ∨ n ∈ nonGenerics := fun _ isRoot => .inr isRoot
  rw [analyzeBinary, wp_bind]
  apply wp_mono (leftSpec.within ready ready.start roots) ?_ fun _ => id
  intro left middle first
  rw [wp_bind]
  apply wp_mono (rightSpec.within (ready.advance first) first roots) ?_
    fun _ => id
  intro right after second
  split
  · exact second.holds.shown
  rename_i op found
  rcases operators_static (List.mem_of_find?_eq_some found) with
    ⟨staticLeft, staticRight, result⟩
  rw [wp_bind]
  apply wp_mono (unifyOperand_advances staticLeft second (by simp)) ?_
    fun _ => id
  intro _ afterLeft third
  rw [wp_bind]
  apply wp_mono (unifyOperand_advances staticRight third (by simp)) ?_
    fun _ => id
  intro _ afterRight fourth
  rw [wp_bind]
  apply wp_mono (unify_advances fuel fourth (.inl (by simp)) (.inl (by simp)))
    ?_ fun _ => id
  intro _ final unified
  rcases result with isInteger | isBoolean
  · change Advances nonGenerics state final [op.result]
    rw [isInteger]
    exact unified.integer.mono (by simp)
  · change Advances nonGenerics state final [op.result]
    rw [isBoolean]
    exact unified.boolean.mono (by simp)

theorem analyzeTuple_advances
    {tupleFirst tupleRest : TypeEnvironment → NonGenericTypeList →
      CheckM TypePointer} (firstSpec : Analyzes tupleFirst)
    (restSpec : Analyzes tupleRest) (ready : Ready state env nonGenerics) :
    wp (fun after => Shown after.log)
      (analyzeTuple (tupleFirst env nonGenerics) (tupleRest env nonGenerics))
      (fun type after => Advances nonGenerics state after [type]) state := by
  rw [analyzeTuple, wp_bind]
  apply wp_mono (firstSpec.within ready ready.start fun _ => .inr) ?_
    fun _ => id
  intro first middle analyzed
  rw [wp_bind]
  apply wp_mono (restSpec.within (ready.advance analyzed) analyzed
    fun _ => .inr) ?_ fun _ => id
  intro rest after both
  exact (both.addBoth .tuple (.inl (by simp)) (.inl (by simp))).mono (by simp)

theorem analyzeTupleFinal_advances
    {tupleFirst : TypeEnvironment → NonGenericTypeList → CheckM TypePointer}
    (firstSpec : Analyzes tupleFirst) (ready : Ready state env nonGenerics) :
    wp (fun after => Shown after.log)
      (analyzeTupleFinal (tupleFirst env nonGenerics))
      (fun type after => Advances nonGenerics state after [type]) state := by
  rw [analyzeTupleFinal, wp_bind]
  apply wp_mono (firstSpec.within ready ready.start fun _ => .inr) ?_
    fun _ => id
  intro first after analyzed
  exact (analyzed.addFinal (.inl (by simp))).mono (by simp)

theorem analyzeInvalid_advances (ready : Ready state env nonGenerics) :
    wp (fun after => Shown after.log) (analyzeInvalid tokens range)
      (fun type after => Advances nonGenerics state after [type]) state := by
  have reported := ready.start.report ⟨"Invalid expression structure",
    (tokens range.startToken).start,
    (tokens range.endToken).start + (tokens range.endToken).length⟩
  exact reported.error (by simp)

/-- The type that a call returns is logged. -/
theorem returning_advances {result : CheckM TypePointer}
    (advances : wp (fun after => Shown after.log) result
      (fun type after => Advances nonGenerics state after [type]) state) :
    wp (fun after => Shown after.log) (returning result)
      (fun type after => Advances nonGenerics state after [type]) state := by
  rw [returning, wp_bind]
  apply wp_mono advances ?_ fun _ => id
  intro type after sofar
  rw [wp_bind, wp_record, wp_pure]
  exact sofar.record (.returned type after.graph)
    (sofar.noGenerics (.inl List.mem_cons_self)) fun _ => trivial

end

end

/-! ## The whole analysis -/

/-- Every call of `_Analyze` advances. -/
theorem analyze_advances (tokens : Tokens) (fuel : Nat)
    (expression : Expression) : Analyzes (analyze tokens fuel expression) := by
  induction expression with
  | identifier range id =>
      exact fun ready => returning_advances (analyzeIdentifier_advances id ready)
  | apply range function argument functionIh argumentIh =>
      exact fun ready =>
        returning_advances (analyzeApply_advances functionIh argumentIh ready)
  | lambda range id body bodyIh =>
      exact fun ready =>
        returning_advances (analyzeLambda_advances id bodyIh ready)
  | let_ range id value body valueIh bodyIh =>
      exact fun ready =>
        returning_advances (analyzeLet_advances id valueIh bodyIh ready)
  | letrec range id value body valueIh bodyIh =>
      exact fun ready =>
        returning_advances (analyzeLetRec_advances id valueIh bodyIh ready)
  | if_ range test thenArm elseArm testIh thenIh elseIh =>
      exact fun ready =>
        returning_advances (analyzeIf_advances testIh thenIh elseIh ready)
  | binary range operator left right leftIh rightIh =>
      exact fun ready => returning_advances
        (analyzeBinary_advances operator leftIh rightIh ready)
  | unary range operator arg argIh =>
      exact fun ready => returning_advances (argIh ready)
  | tuple range first rest length firstIh restIh =>
      exact fun ready =>
        returning_advances (analyzeTuple_advances firstIh restIh ready)
  | tupleFinal range first firstIh =>
      exact fun ready =>
        returning_advances (analyzeTupleFinal_advances firstIh ready)
  | integerConstant range literal =>
      exact fun ready =>
        returning_advances (ready.start.integer.mono (by simp))
  | true_ range =>
      exact fun ready =>
        returning_advances (ready.start.boolean.mono (by simp))
  | false_ range =>
      exact fun ready =>
        returning_advances (ready.start.boolean.mono (by simp))
  | invalid range | error range =>
      exact fun ready => returning_advances (analyzeInvalid_advances ready)

theorem ready_static : Ready ⟨staticGraph, [], []⟩ [] [] where
  wellFormed := TypeGraph.wellFormed_static
  clean := TypeGraph.clean_static
  holds := ⟨.nil, fun _ => TypeGraph.ranked_static⟩
  within := nofun
  free := nofun
  inside := nofun
  covered := nofun
  fails := nofun

end Millie.Types
