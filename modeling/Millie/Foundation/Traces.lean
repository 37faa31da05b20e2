import Millie.Foundation.Weakest

/-!
# Traces

The states that a run goes through.  Some steps are atomic: nobody looks at the
state while one of them is in progress.  A trace lists the states after the
atomic steps of a run, up to where it returns or stops, and `throughout` is the
weakest precondition that also says what holds of all of them.
-/

namespace Weakest

variable {ε σ α β : Type}

/-! ## Steps that lose their state -/

/-- The states after the atomic steps of a run that loses its state. -/
inductive RunsExcept (atomic : ∀ ⦃α : Type⦄, StateT σ (Except ε) α → Prop) :
    ∀ {α : Type}, StateT σ (Except ε) α → σ → List σ → Prop where
  | step {α : Type} {step : StateT σ (Except ε) α} {state after : σ}
      {value : α} (isAtomic : atomic step)
      (returns : step state = .ok (value, after)) :
      RunsExcept atomic step state [after]
  | stopped {α : Type} {step : StateT σ (Except ε) α} {state : σ} {stop : ε}
      (isAtomic : atomic step) (stops : step state = .error stop) :
      RunsExcept atomic step state []
  | pure {α : Type} (value : α) (state : σ) :
      RunsExcept atomic (pure value) state []
  | bind {α β : Type} {step : StateT σ (Except ε) α}
      {next : α → StateT σ (Except ε) β} {state after : σ} {value : α}
      {moments more : List σ} (first : RunsExcept atomic step state moments)
      (returns : step state = .ok (value, after))
      (rest : RunsExcept atomic (next value) after more) :
      RunsExcept atomic (step >>= next) state (moments ++ more)
  | ended {α β : Type} {step : StateT σ (Except ε) α}
      (next : α → StateT σ (Except ε) β) {state : σ} {stop : ε}
      {moments : List σ} (first : RunsExcept atomic step state moments)
      (stops : step state = .error stop) :
      RunsExcept atomic (step >>= next) state moments

/-- A trace goes on from the last of its states. -/
theorem getLastD_append (state : σ) (moments more : List σ) :
    (moments ++ more).getLastD state =
      more.getLastD (moments.getLastD state) := by
  cases more with
  | nil => simp
  | cons moment more => simp [List.getLast?_cons]

section

variable {atomic : ∀ ⦃α : Type⦄, StateT σ (Except ε) α → Prop}

/-- A run that returns ends in the last of its states. -/
theorem RunsExcept.last {step : StateT σ (Except ε) α} {state after : σ}
    {value : α} {moments : List σ}
    (runs : RunsExcept atomic step state moments)
    (returns : step state = .ok (value, after)) :
    moments.getLastD state = after := by
  induction runs generalizing after with
  | step _ here =>
      rw [here] at returns
      cases returns
      rfl
  | stopped _ stops =>
      rw [stops] at returns
      cases returns
  | pure =>
      cases returns
      rfl
  | bind _ first _ firstIh restIh =>
      rw [bind_returned first] at returns
      rw [getLastD_append, firstIh first, restIh returns]
  | ended next _ stops =>
      rw [bind_stopped stops] at returns
      cases returns

/-- Every state of some trace of a step is good, and its result is right. -/
def throughoutExcept
    (atomic : ∀ ⦃α : Type⦄, StateT σ (Except ε) α → Prop) (good : σ → Prop)
    (step : StateT σ (Except ε) α) (post : α → σ → Prop) (state : σ) : Prop :=
  ∃ moments, RunsExcept atomic step state moments ∧
    (∀ moment ∈ moments, good moment) ∧
    wpExcept (fun _ => True) step post state

variable {good : σ → Prop} {state : σ}

theorem throughoutExcept_pure {value : α} {post : α → σ → Prop}
    (holds : post value state) :
    throughoutExcept atomic good (pure value) post state :=
  ⟨[], .pure value state, nofun, holds⟩

theorem throughoutExcept_step {step : StateT σ (Except ε) α}
    {post : α → σ → Prop} {fail : ε → Prop} (isAtomic : atomic step)
    (holds : wpExcept fail step post state)
    (returned : ∀ value after, post value after → good after) :
    throughoutExcept atomic good step post state := by
  cases returns : step state with
  | ok result =>
      refine ⟨[result.2], .step isAtomic returns, ?_,
        wpExcept_mono holds (fun _ _ => id) fun _ _ => trivial⟩
      intro moment member
      rw [List.mem_singleton.mp member]
      exact returned _ _ (of_wpExcept holds returns)
  | error stop =>
      exact ⟨[], .stopped isAtomic returns, nofun,
        wpExcept_mono holds (fun _ _ => id) fun _ _ => trivial⟩

theorem throughoutExcept_mono {step : StateT σ (Except ε) α}
    {first second : α → σ → Prop} {better : σ → Prop}
    (holds : throughoutExcept atomic good step first state)
    (onWay : ∀ moment, good moment → better moment)
    (returned : ∀ value after, first value after → second value after) :
    throughoutExcept atomic better step second state := by
  rcases holds with ⟨moments, runs, allGood, result⟩
  exact ⟨moments, runs, fun moment member => onWay moment (allGood _ member),
    wpExcept_mono result returned fun _ => id⟩

theorem throughoutExcept_bind {step : StateT σ (Except ε) α}
    {next : α → StateT σ (Except ε) β} {middle : α → σ → Prop}
    {post : β → σ → Prop}
    (first : throughoutExcept atomic good step middle state)
    (rest : ∀ value after, middle value after →
      throughoutExcept atomic good (next value) post after) :
    throughoutExcept atomic good (step >>= next) post state := by
  rcases first with ⟨moments, runs, allGood, holds⟩
  cases returns : step state with
  | ok result =>
      rcases rest _ _ (of_wpExcept holds returns) with
        ⟨more, moreRuns, moreGood, last⟩
      refine ⟨moments ++ more, .bind runs returns moreRuns, ?_, ?_⟩
      · exact List.forall_mem_append.mpr ⟨allGood, moreGood⟩
      · rwa [wpExcept, bind_returned returns]
  | error stop =>
      refine ⟨moments, .ended next runs returns, allGood, ?_⟩
      rw [wpExcept, bind_stopped returns]
      trivial

end

/-! ## Steps that keep their state -/

/--
The states of a run that keeps its state, from those that its basic steps go
through.
-/
inductive Runs
    (basic : ∀ ⦃α : Type⦄, ExceptT ε (StateM σ) α → σ → List σ → Prop) :
    ∀ {α : Type}, ExceptT ε (StateM σ) α → σ → List σ → Prop where
  | step {α : Type} {step : ExceptT ε (StateM σ) α} {state : σ}
      {moments : List σ} (isBasic : basic step state moments) :
      Runs basic step state moments
  | pure {α : Type} (value : α) (state : σ) : Runs basic (pure value) state []
  | bind {α β : Type} {step : ExceptT ε (StateM σ) α}
      {next : α → ExceptT ε (StateM σ) β} {state after : σ} {value : α}
      {moments more : List σ} (first : Runs basic step state moments)
      (returns : step state = (.ok value, after))
      (rest : Runs basic (next value) after more) :
      Runs basic (step >>= next) state (moments ++ more)
  | ended {α β : Type} {step : ExceptT ε (StateM σ) α}
      (next : α → ExceptT ε (StateM σ) β) {state after : σ} {stop : ε}
      {moments : List σ} (first : Runs basic step state moments)
      (stops : step state = (.error stop, after)) :
      Runs basic (step >>= next) state moments

variable {basic : ∀ ⦃α : Type⦄, ExceptT ε (StateM σ) α → σ → List σ → Prop}

/-- A run that returns ends in the last of its states. -/
theorem Runs.last
    (basicLast : ∀ ⦃α : Type⦄ ⦃step : ExceptT ε (StateM σ) α⦄
      ⦃state after : σ⦄ ⦃value : α⦄ ⦃moments : List σ⦄,
      basic step state moments → step state = (.ok value, after) →
        moments.getLastD state = after)
    {step : ExceptT ε (StateM σ) α} {state after : σ} {value : α}
    {moments : List σ} (runs : Runs basic step state moments)
    (returns : step state = (.ok value, after)) :
    moments.getLastD state = after := by
  induction runs generalizing after with
  | step isBasic => exact basicLast isBasic returns
  | pure =>
      cases returns
      rfl
  | bind _ first _ firstIh restIh =>
      rw [bind_kept first] at returns
      rw [getLastD_append, firstIh first, restIh returns]
  | ended next _ stops =>
      rw [bind_ended stops] at returns
      cases returns

/-- Every state of some trace of a step is good, and its result is right. -/
def throughout
    (basic : ∀ ⦃α : Type⦄, ExceptT ε (StateM σ) α → σ → List σ → Prop)
    (good : σ → Prop) (step : ExceptT ε (StateM σ) α) (post : α → σ → Prop)
    (state : σ) : Prop :=
  ∃ moments, Runs basic step state moments ∧
    (∀ moment ∈ moments, good moment) ∧ wp (fun _ => True) step post state

variable {good : σ → Prop} {state : σ}

theorem throughout_pure {value : α} {post : α → σ → Prop}
    (holds : post value state) :
    throughout basic good (pure value) post state :=
  ⟨[], .pure value state, nofun, holds⟩

theorem throughout_bind {step : ExceptT ε (StateM σ) α}
    {next : α → ExceptT ε (StateM σ) β} {middle : α → σ → Prop}
    {post : β → σ → Prop}
    (first : throughout basic good step middle state)
    (rest : ∀ value after, middle value after →
      throughout basic good (next value) post after) :
    throughout basic good (step >>= next) post state := by
  rcases first with ⟨moments, runs, allGood, holds⟩
  rcases returns : step state with ⟨result, after⟩
  cases result with
  | ok value =>
      rcases rest value after (of_wp holds returns) with
        ⟨more, moreRuns, moreGood, last⟩
      refine ⟨moments ++ more, .bind runs returns moreRuns, ?_, ?_⟩
      · exact List.forall_mem_append.mpr ⟨allGood, moreGood⟩
      · rwa [wp, bind_kept returns]
  | error stop =>
      refine ⟨moments, .ended next runs returns, allGood, ?_⟩
      rw [wp, bind_ended returns]
      trivial

theorem throughout_mono {step : ExceptT ε (StateM σ) α}
    {first second : α → σ → Prop}
    (holds : throughout basic good step first state)
    (returned : ∀ value after, first value after → second value after) :
    throughout basic good step second state := by
  rcases holds with ⟨moments, runs, allGood, result⟩
  exact ⟨moments, runs, allGood, wp_mono result returned fun _ => id⟩

end Weakest
