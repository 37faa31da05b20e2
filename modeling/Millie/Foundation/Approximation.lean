import Millie.Foundation.Weakest

/-!
# Approximation

A step approximates another one if the other returns whatever it returns.  What
is composed of approximations approximates, so a step that takes fuel returns
whatever it returns with less fuel.  Such a step ends in a value if all fuel
from some amount on gives it.
-/

namespace Weakest

variable {ε σ α β : Type}

/-! ## Steps that lose their state -/

/-- The other step returns whatever the step returns. -/
def ApproximatesExcept (step other : StateT σ (Except ε) α) : Prop :=
  ∀ state value after, step state = .ok (value, after) →
    other state = .ok (value, after)

namespace ApproximatesExcept

theorem refl (step : StateT σ (Except ε) α) : ApproximatesExcept step step :=
  fun _ _ _ => id

/-- A step that never returns approximates every step. -/
theorem of_stops {step : StateT σ (Except ε) α} {stop : ε}
    (stops : ∀ state, step state = .error stop)
    (other : StateT σ (Except ε) α) : ApproximatesExcept step other := by
  intro state value after returns
  rw [stops] at returns
  cases returns

theorem bind {step other : StateT σ (Except ε) α}
    {next further : α → StateT σ (Except ε) β}
    (first : ApproximatesExcept step other)
    (rest : ∀ value, ApproximatesExcept (next value) (further value)) :
    ApproximatesExcept (step >>= next) (other >>= further) := by
  intro state result after returns
  rcases run : step state with stop | ⟨value, middle⟩
  · rw [bind_stopped run] at returns
    cases returns
  · rw [bind_returned run] at returns
    rw [bind_returned (first state value middle run)]
    exact rest value middle result after returns

/-- The steps of either case of a condition. -/
theorem ite {condition : Prop} [Decidable condition]
    {step other step' other' : StateT σ (Except ε) α}
    (first : ApproximatesExcept step other)
    (second : ApproximatesExcept step' other') :
    ApproximatesExcept (if condition then step else step')
      (if condition then other else other') := by
  by_cases holds : condition
  · rwa [if_pos holds, if_pos holds]
  · rwa [if_neg holds, if_neg holds]

end ApproximatesExcept

/-! ## Steps that keep their state -/

/-- The other step returns whatever the step returns. -/
def Approximates (step other : ExceptT ε (StateM σ) α) : Prop :=
  ∀ state value after, step state = (.ok value, after) →
    other state = (.ok value, after)

namespace Approximates

theorem refl (step : ExceptT ε (StateM σ) α) : Approximates step step :=
  fun _ _ _ => id

theorem bind {step other : ExceptT ε (StateM σ) α}
    {next further : α → ExceptT ε (StateM σ) β}
    (first : Approximates step other)
    (rest : ∀ value, Approximates (next value) (further value)) :
    Approximates (step >>= next) (other >>= further) := by
  intro state result after returns
  rcases run : step state with ⟨stop | value, middle⟩
  · rw [bind_ended run] at returns
    cases returns
  · rw [bind_kept run] at returns
    rw [bind_kept (first state value middle run)]
    exact rest value middle result after returns

/-- The steps of either case of a condition. -/
theorem ite {condition : Prop} [Decidable condition]
    {step other step' other' : ExceptT ε (StateM σ) α}
    (first : Approximates step other) (second : Approximates step' other') :
    Approximates (if condition then step else step')
      (if condition then other else other') := by
  by_cases holds : condition
  · rwa [if_pos holds, if_pos holds]
  · rwa [if_neg holds, if_neg holds]

end Approximates

/-- What a step that returns has returned on the way. -/
theorem kept_of_bind {step : ExceptT ε (StateM σ) α}
    {next : α → ExceptT ε (StateM σ) β} {state after : σ} {result : β}
    (returns : (step >>= next) state = (.ok result, after)) :
    ∃ value middle, step state = (.ok value, middle) ∧
      next value middle = (.ok result, after) := by
  rcases run : step state with ⟨stop | value, middle⟩
  · rw [bind_ended run] at returns
    cases returns
  · rw [bind_kept run] at returns
    exact ⟨value, middle, rfl, returns⟩

/-! ## Enough fuel -/

/-- All fuel from some amount on gives the value and the state. -/
def Arrives (run : Nat → ExceptT ε (StateM σ) α) (state : σ) (value : α)
    (after : σ) : Prop :=
  ∃ bound, ∀ fuel ≥ bound, run fuel state = (.ok value, after)

namespace Arrives

variable {run : Nat → ExceptT ε (StateM σ) α}
  {next : Nat → α → ExceptT ε (StateM σ) β} {state middle after : σ}
  {value : α} {result : β}

theorem of_eq (returns : ∀ fuel, run fuel state = (.ok value, after)) :
    Arrives run state value after :=
  ⟨0, fun fuel _ => returns fuel⟩

theorem bind (first : Arrives run state value middle)
    (second : Arrives (fun fuel => next fuel value) middle result after) :
    Arrives (fun fuel => run fuel >>= next fuel) state result after := by
  rcases first with ⟨boundFirst, returnsFirst⟩
  rcases second with ⟨boundSecond, returnsSecond⟩
  refine ⟨max boundFirst boundSecond, fun fuel enough => ?_⟩
  have first := returnsFirst fuel (Nat.le_trans (Nat.le_max_left ..) enough)
  exact (bind_kept first).trans
    (returnsSecond fuel (Nat.le_trans (Nat.le_max_right ..) enough))

/-- What every run establishes if it returns holds of the result. -/
theorem post {always : Nat → σ → Prop} {post : α → σ → Prop}
    (ends : Arrives run state value after)
    (holds : ∀ fuel, wp (always fuel) (run fuel) post state) :
    post value after := by
  rcases ends with ⟨bound, returns⟩
  exact of_wp (holds bound) (returns bound (Nat.le_refl bound))

theorem unique {other : α} {later : σ} (ends : Arrives run state value after)
    (ends' : Arrives run state other later) :
    value = other ∧ after = later := by
  rcases ends with ⟨bound, returns⟩
  rcases ends' with ⟨bound', returns'⟩
  have first := returns _ (Nat.le_max_left bound bound')
  rw [returns' _ (Nat.le_max_right bound bound')] at first
  cases first
  exact ⟨rfl, rfl⟩

end Arrives

/-- More fuel does not change what a step returns. -/
def Lasting (run : Nat → ExceptT ε (StateM σ) α) : Prop :=
  ∀ fuel more, fuel ≤ more → Approximates (run fuel) (run more)

theorem Lasting.const (step : ExceptT ε (StateM σ) α) :
    Lasting fun _ => step :=
  fun _ _ _ => .refl step

/-- A lasting step that returns with some fuel ends. -/
theorem Lasting.ends {run : Nat → ExceptT ε (StateM σ) α}
    (lasting : Lasting run) {fuel : Nat} {state after : σ} {value : α}
    (returns : run fuel state = (.ok value, after)) :
    Arrives run state value after :=
  ⟨fuel, fun more enough => lasting fuel more enough state value after returns⟩

/-- With enough fuel a step returns. -/
def Returns (run : Nat → ExceptT ε (StateM σ) α) (state : σ) : Prop :=
  ∃ value after, Arrives run state value after

section

variable {run : Nat → ExceptT ε (StateM σ) α}
  {next : Nat → α → ExceptT ε (StateM σ) β} {state middle : σ} {value : α}

theorem Arrives.returns_bind (first : Arrives run state value middle)
    (rest : Returns (fun fuel => next fuel value) middle) :
    Returns (fun fuel => run fuel >>= next fuel) state := by
  rcases rest with ⟨result, after, ends⟩
  exact ⟨result, after, first.bind ends⟩

/-- A lasting step and the rest return if and only if each of them does. -/
theorem Lasting.returns_bind_iff (lasting : Lasting run) :
    Returns (fun fuel => run fuel >>= next fuel) state ↔
      Returns run state ∧ ∀ value middle, Arrives run state value middle →
        Returns (fun fuel => next fuel value) middle := by
  constructor
  · rintro ⟨result, after, bound, returns⟩
    rcases kept_of_bind (returns bound (Nat.le_refl bound)) with
      ⟨value, middle, first, -⟩
    have ends := lasting.ends first
    refine ⟨⟨value, middle, ends⟩, fun other later ends' => ?_⟩
    rcases ends.unique ends' with ⟨rfl, rfl⟩
    rcases ends with ⟨more, firsts⟩
    refine ⟨result, after, max bound more, fun fuel enough => ?_⟩
    have kept : (run fuel >>= next fuel) state = next fuel value middle :=
      bind_kept (firsts fuel (Nat.le_trans (Nat.le_max_right ..) enough))
    exact kept.symm.trans
      (returns fuel (Nat.le_trans (Nat.le_max_left ..) enough))
  · rintro ⟨⟨value, middle, ends⟩, rest⟩
    exact ends.returns_bind (rest value middle ends)

/-- After a step that ends the rest decides. -/
theorem Arrives.returns_bind_iff (lasting : Lasting run)
    (first : Arrives run state value middle) :
    Returns (fun fuel => run fuel >>= next fuel) state ↔
      Returns (fun fuel => next fuel value) middle := by
  rw [lasting.returns_bind_iff]
  constructor
  · exact fun ends => ends.2 value middle first
  · refine fun rest => ⟨⟨value, middle, first⟩, fun other later ends => ?_⟩
    rcases first.unique ends with ⟨rfl, rfl⟩
    exact rest

end

end Weakest
