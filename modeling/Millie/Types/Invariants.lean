import Millie.Types.Analysis
import Millie.Types.Format

/-!
# Invariants of type inference

The type graph stays acyclic up to the first rebinding of an entangled let rec
variable, and no generic variable leaves the environment.
-/

namespace Millie.Types

open Relation Links Weakest
open Millie.Symbols Millie.Syntax

/-! ## Runs -/

/-- What every run of `GetExpressionType` has shown, returned or not. -/
theorem getExpressionType_shown (tokens : Tokens) (fuel : Nat)
    (expression : Expression) :
    Shown (getExpressionType tokens fuel expression).2.log := by
  apply wp_always (analyze_advances tokens fuel expression ready_static)
  exact fun type after advances => advances.holds.shown

/-! ## Cycles -/

/-- Following links from a node never returns to it. -/
def TypeGraph.Acyclic (graph : TypeGraph) : Prop :=
  ∀ p < graph.size, ¬TransGen graph.Link p p

/-- With enough fuel no operation on a type of the graph runs out of it. -/
def TypeGraph.Terminates (graph : TypeGraph) : Prop :=
  ∃ bound, ∀ fuel ≥ bound, ∀ p < graph.size,
    (∃ result, pruneTypeExp fuel p graph = .ok result) ∧
      (∀ a, ∃ result, isTypeContainedWithin a fuel p graph = .ok result) ∧
      (∃ result, makeFreshTypeExp fuel p graph = .ok result) ∧
      formatTypeExpression fuel p graph ≠ .error .outOfFuel

/-- A step that stops only for lack of fuel returns when it has enough. -/
theorem returns_of_fuel {α : Type} {step : GraphM α} {graph : TypeGraph}
    {starved : Stop → Prop} {post : α → TypeGraph → Prop}
    (holds : wpExcept starved step post graph)
    (enough : ∀ stop, ¬starved stop) : ∃ result, step graph = .ok result := by
  rcases returns_of_wpExcept holds enough with ⟨value, after, returns, -⟩
  exact ⟨_, returns⟩

theorem TypeGraph.Ranked.terminates {graph : TypeGraph}
    (ranked : graph.Ranked) (wellFormed : graph.WellFormed)
    (clean : graph.Clean) : graph.Terminates := by
  rcases ranked with ⟨rank, ranks⟩
  rcases exists_bound rank graph.size with ⟨bound, below⟩
  refine ⟨bound + 2, fun fuel enough p inside => ?_⟩
  have from_ : RanksFrom graph p rank := fun r s path link =>
    ranks r s ⟨wellFormed.reaches_lt inside path, link⟩
  have large : rank p + 2 < fuel :=
    Nat.lt_of_lt_of_le (Nat.add_lt_add_right (below p inside) 2) enough
  refine ⟨?_, fun a => ?_, ?_, ?_⟩
  · apply returns_of_fuel (pruneTypeExp_spec fuel p graph)
    rintro stop ⟨-, least⟩
    have := least rank from_
    omega
  · apply returns_of_fuel (isTypeContainedWithin_spec wellFormed
      (clean.searchable a) fuel p inside)
    rintro stop ⟨-, least⟩
    have := least clean.selfFree rank from_
    omega
  · apply returns_of_fuel (makeFreshTypeExp_spec wellFormed clean fuel inside)
    rintro stop ⟨-, least⟩
    have := least rank from_
    omega
  · intro stops
    have spec := formatTypeExpression_spec wellFormed clean fuel inside
    unfold wpExcept at spec
    rw [stops] at spec
    rcases spec with ⟨undefined, -⟩ | ⟨-, least⟩
    · cases undefined
    · have := least rank from_
      omega

/-- The graph of a moment between two steps of the analysis. -/
def CheckEvent.checkpoint : CheckEvent → Option TypeGraph
  | .unified graph | .rebound graph => some graph
  | _ => none

/--
In every run, between two steps, the graph is acyclic and following its links
ends, as long as no entangled let rec variable was rebound.
-/
theorem analysis_acyclic (tokens : Tokens) (fuel : Nat)
    (expression : Expression) (earlier : List CheckEvent) (event : CheckEvent)
    (graph : TypeGraph)
    (moment : earlier ++ [event] <+:
      (getExpressionType tokens fuel expression).2.log)
    (untangled : ∀ e ∈ earlier, e.Untangled)
    (checkpoint : event.checkpoint = some graph) :
    graph.Acyclic ∧ graph.Terminates := by
  have inOrder := (getExpressionType_shown tokens fuel expression).inOrder
    earlier event moment untangled
  have good : graph.WellFormed ∧ graph.Clean ∧ graph.Ranked := by
    cases event with
    | unified after | rebound after =>
        cases checkpoint
        exact inOrder
    | looking | unifying | rebinding | returned => cases checkpoint
  rcases good with ⟨wellFormed, clean, ranked⟩
  exact ⟨fun p inside => ranked.acyclic wellFormed inside,
    ranked.terminates wellFormed clean⟩

/-- Tokens that no report looks at. -/
def noTokens : Tokens := fun _ => ⟨.tokEof, 0, 0⟩

/-- `fn g => let rec f = fn x => g in f`. -/
def nestedConstant : Expression :=
  .lambda ⟨0, 0⟩ 1 (.letrec ⟨0, 0⟩ 2
    (.lambda ⟨0, 0⟩ 3 (.identifier ⟨0, 0⟩ 1)) (.identifier ⟨0, 0⟩ 2))

/-- Nothing is rebound, or a node that has an instance. -/
def CheckEvent.bound : CheckEvent → Bool
  | .rebinding newType _ graph => (graph.nodes newType).first.isSome
  | _ => true

/-- A let rec whose value is known to be a function is not entangled. -/
theorem CheckEvent.untangled_of_bound {event : CheckEvent}
    (bound : event.bound = true) : event.Untangled := by
  cases event with
  | rebinding newType nonGenerics graph =>
      rintro ⟨⟨-, unset⟩, -⟩
      rw [CheckEvent.bound, unset] at bound
      cases bound
  | _ => trivial

/-- A rebinding inside a function. -/
def CheckEvent.nested : CheckEvent → Bool
  | .rebinding _ nonGenerics _ => nonGenerics ≠ []
  | _ => false

/-- A node has just been rebound. -/
def CheckEvent.isRebound : CheckEvent → Bool
  | .rebound _ => true
  | _ => false

/-- A function whose type has a variable of the function around it. -/
theorem analysis_acyclic_nested : ∃ earlier graph,
    earlier ++ [.rebound graph] <+:
        (getExpressionType noTokens 20 nestedConstant).2.log ∧
      earlier.any CheckEvent.nested = true ∧
      graph.Acyclic ∧ graph.Terminates := by
  have bound : (getExpressionType noTokens 20 nestedConstant).2.log.all
      CheckEvent.bound = true := by
    decide +kernel
  have nested : ((getExpressionType noTokens 20 nestedConstant).2.log.take
      6).any CheckEvent.nested = true := by
    decide +kernel
  have rebinds : ((getExpressionType noTokens 20 nestedConstant).2.log.drop
      6).head?.any CheckEvent.isRebound = true := by
    decide +kernel
  rw [List.all_eq_true] at bound
  rcases rest : (getExpressionType noTokens 20 nestedConstant).2.log.drop 6 with
    _ | ⟨event, later⟩
  · rw [rest] at rebinds
    cases rebinds
  · rw [rest] at rebinds
    cases event with
    | rebound graph =>
        have moment : (getExpressionType noTokens 20 nestedConstant).2.log.take
            6 ++ [.rebound graph] <+:
              (getExpressionType noTokens 20 nestedConstant).2.log :=
          ⟨later, by
            rw [List.append_assoc, List.singleton_append, ← rest,
              List.take_append_drop]⟩
        exact ⟨_, graph, moment, nested, analysis_acyclic noTokens 20
          nestedConstant _ (.rebound graph) graph moment
          (fun e inside => CheckEvent.untangled_of_bound
            (bound e (List.mem_of_mem_take inside))) rfl⟩
    | _ => cases rebinds

/-- `fn g => let rec f = g in f`. -/
def entangledFunction : Expression :=
  .lambda ⟨0, 0⟩ 1 (.letrec ⟨0, 0⟩ 2 (.identifier ⟨0, 0⟩ 1)
    (.identifier ⟨0, 0⟩ 2))

/-- A node that is its own instance. -/
def TypeGraph.selfLoop (graph : TypeGraph) : Bool :=
  (List.range graph.size).any fun p => (graph.nodes p).first = some p

theorem TypeGraph.Acyclic.selfLoop {graph : TypeGraph}
    (acyclic : graph.Acyclic) : graph.selfLoop = false := by
  by_contra loops
  rw [Bool.not_eq_false, TypeGraph.selfLoop, List.any_eq_true] at loops
  rcases loops with ⟨p, inside, first⟩
  exact acyclic p (List.mem_range.mp inside)
    (.single (.inl (of_decide_eq_true first)))

/-- Rebinding the type of `f` makes it its own instance. -/
theorem analysis_cyclic : ¬∀ event ∈
    (getExpressionType noTokens 20 entangledFunction).2.log,
      ∀ graph, event.checkpoint = some graph → graph.Acyclic := by
  intro acyclic
  have loops : ((getExpressionType noTokens 20 entangledFunction).2.log.any
      fun event => match event.checkpoint with
        | some graph => graph.selfLoop
        | none => false) = true := by
    decide +kernel
  rw [List.any_eq_true] at loops
  rcases loops with ⟨event, member, loop⟩
  split at loop
  · rename_i graph checkpoint
    rw [(acyclic event member graph checkpoint).selfLoop] at loop
    cases loop
  · cases loop

/-! ## Generic variables and errors -/

/--
No type that a call of `_Analyze` returns or that is unified reaches a generic
variable, in any run; and without an error reported, the returned type reaches
no error and no invalid node.
-/
theorem analysis_noGenerics (tokens : Tokens) (fuel : Nat)
    (expression : Expression) :
    (∀ event ∈ (getExpressionType tokens fuel expression).2.log,
        event.NoGenerics) ∧
      ∀ type, (getExpressionType tokens fuel expression).1 = .ok type →
        (getExpressionType tokens fuel expression).2.errors = [] →
        Free (fun kind => kind = .error ∨ kind = .invalid)
          (getExpressionType tokens fuel expression).2.graph type := by
  refine ⟨(getExpressionType_shown tokens fuel expression).noGenerics, ?_⟩
  intro type returns quiet q path isBad
  have run : analyze tokens fuel expression [] [] ⟨staticGraph, [], []⟩ =
      (.ok type, (getExpressionType tokens fuel expression).2) :=
    Prod.ext returns rfl
  have advances :=
    of_wp (analyze_advances tokens fuel expression ready_static) run
  rcases isBad with isError | isInvalid
  · exact advances.progress.free type (.inl List.mem_cons_self) q path
      (.inr ⟨quiet, isError⟩)
  · have shaped := advances.progress.wellFormed.shaped q
      (advances.progress.wellFormed.reaches_lt
        (advances.inside (.inl List.mem_cons_self)) path)
    generalize (getExpressionType tokens fuel expression).2.graph.nodes q = exp
      at shaped isInvalid
    cases shaped <;> cases isInvalid

/-- `let rec f = fn x => x in f`. -/
def recursiveIdentity : Expression :=
  .letrec ⟨0, 0⟩ 1 (.lambda ⟨0, 0⟩ 2 (.identifier ⟨0, 0⟩ 2))
    (.identifier ⟨0, 0⟩ 1)

/-- Its type has no generic variables. -/
theorem analysis_noGenerics_identity : ∃ type,
    (getExpressionType noTokens 20 recursiveIdentity).1 = .ok type ∧
      (∀ event ∈ (getExpressionType noTokens 20 recursiveIdentity).2.log,
        event.NoGenerics) ∧
      Free (fun kind => kind = .error ∨ kind = .invalid)
        (getExpressionType noTokens 20 recursiveIdentity).2.graph type := by
  have returns : (getExpressionType noTokens 20 recursiveIdentity).1.isOk = true := by
    decide +kernel
  have quiet : (getExpressionType noTokens 20 recursiveIdentity).2.errors = [] := by
    decide +kernel
  cases ok : (getExpressionType noTokens 20 recursiveIdentity).1 with
  | error stop =>
      rw [ok] at returns
      cases returns
  | ok type =>
      have holds := analysis_noGenerics noTokens 20 recursiveIdentity
      exact ⟨type, rfl, holds.1, holds.2 type ok quiet⟩

end Millie.Types
