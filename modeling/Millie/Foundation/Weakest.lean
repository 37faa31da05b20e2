/-!
# Weakest preconditions

Reasoning about steps that return or stop.  For steps that lose their state when
they stop, `wpExcept fail step post` holds of the states from which `step`
establishes `post` if it returns and stops only for reasons in `fail`.  For
steps that keep their state, `wp always step post` holds of the states from
which `step` establishes `post` if it returns and leaves `always` true of the
state if it stops.
-/

namespace Weakest

variable {ε σ α β : Type}

/-! ## Steps that lose their state -/

/-- The weakest precondition of a step that loses its state when it stops. -/
def wpExcept (fail : ε → Prop) (step : StateT σ (Except ε) α)
    (post : α → σ → Prop) : σ → Prop := fun state =>
  match step state with
  | .ok (value, after) => post value after
  | .error stop => fail stop

section

variable {fail : ε → Prop}

@[simp]
theorem wpExcept_pure (value : α) (post : α → σ → Prop) (state : σ) :
    wpExcept fail (pure value) post state ↔ post value state :=
  Iff.rfl

theorem wpExcept_bind (step : StateT σ (Except ε) α)
    (next : α → StateT σ (Except ε) β) (post : β → σ → Prop) (state : σ) :
    wpExcept fail (step >>= next) post state ↔
      wpExcept fail step (fun value => wpExcept fail (next value) post)
        state := by
  have run : (step >>= next) state =
      (match step state with
        | .ok (value, after) => next value after
        | .error stop => .error stop) := by
    change Except.bind (step state) _ = _
    cases step state <;> rfl
  unfold wpExcept
  rw [run]
  cases step state <;> rfl

/-- A step that returns leaves its state to the next one. -/
theorem bind_returned {step : StateT σ (Except ε) α}
    {next : α → StateT σ (Except ε) β} {state after : σ} {value : α}
    (returns : step state = .ok (value, after)) :
    (step >>= next) state = next value after := by
  change Except.bind (step state) _ = _
  rw [returns]
  rfl

/-- A step that stops ends the whole. -/
theorem bind_stopped {step : StateT σ (Except ε) α}
    {next : α → StateT σ (Except ε) β} {state : σ} {stop : ε}
    (stops : step state = .error stop) :
    (step >>= next) state = .error stop := by
  change Except.bind (step state) _ = _
  rw [stops]
  rfl

theorem wpExcept_of_eq {step : StateT σ (Except ε) α} {post : α → σ → Prop}
    {state after : σ} {value : α} (returns : step state = .ok (value, after)) :
    wpExcept fail step post state ↔ post value after := by
  rw [wpExcept, returns]

theorem wpExcept_mono {step : StateT σ (Except ε) α}
    {first second : α → σ → Prop} {weaker : ε → Prop} {state : σ}
    (holds : wpExcept fail step first state)
    (returned : ∀ value after, first value after → second value after)
    (stopped : ∀ stop, fail stop → weaker stop) :
    wpExcept weaker step second state := by
  unfold wpExcept at holds ⊢
  revert holds
  cases step state with
  | ok result => exact returned result.1 result.2
  | error stop => exact stopped stop

theorem wpExcept_and {step : StateT σ (Except ε) α}
    {first second : α → σ → Prop} {other : ε → Prop} {state : σ}
    (left : wpExcept fail step first state)
    (right : wpExcept other step second state) :
    wpExcept (fun stop => fail stop ∧ other stop) step
      (fun value after => first value after ∧ second value after) state := by
  unfold wpExcept at left right ⊢
  cases returns : step state with
  | ok result =>
      rw [returns] at left right
      exact ⟨left, right⟩
  | error stop =>
      rw [returns] at left right
      exact ⟨left, right⟩

/-- What does not depend on a step holds after it. -/
theorem wpExcept_const {step : StateT σ (Except ε) α} {holds : Prop}
    (always : holds) (state : σ) :
    wpExcept (fun _ => True) step (fun _ _ => holds) state := by
  unfold wpExcept
  cases step state with
  | ok result => exact always
  | error stop => trivial

/-- What a step that returned established. -/
theorem of_wpExcept {step : StateT σ (Except ε) α} {post : α → σ → Prop}
    {state after : σ} {value : α} (holds : wpExcept fail step post state)
    (returns : step state = .ok (value, after)) : post value after := by
  unfold wpExcept at holds
  rwa [returns] at holds

/-- A step that has no reason to stop returns. -/
theorem returns_of_wpExcept {step : StateT σ (Except ε) α}
    {post : α → σ → Prop} {state : σ} (holds : wpExcept fail step post state)
    (never : ∀ stop, ¬fail stop) :
    ∃ value after, step state = .ok (value, after) ∧ post value after := by
  unfold wpExcept at holds
  cases returns : step state with
  | ok result =>
      rw [returns] at holds
      exact ⟨result.1, result.2, rfl, holds⟩
  | error stop =>
      rw [returns] at holds
      exact absurd holds (never stop)

end

/-! ## Steps that keep their state -/

/-- The weakest precondition of a step. -/
def wp (always : σ → Prop) (step : ExceptT ε (StateM σ) α)
    (post : α → σ → Prop) : σ → Prop := fun state =>
  match step state with
  | (.ok value, after) => post value after
  | (.error _, after) => always after

variable {always : σ → Prop}

@[simp]
theorem wp_pure (value : α) (post : α → σ → Prop) (state : σ) :
    wp (ε := ε) always (pure value) post state ↔ post value state :=
  Iff.rfl

/-- A step that returns leaves its state to the next one. -/
theorem bind_kept {step : ExceptT ε (StateM σ) α}
    {next : α → ExceptT ε (StateM σ) β} {state after : σ} {value : α}
    (returns : step state = (.ok value, after)) :
    (step >>= next) state = next value after := by
  change (ExceptT.bindCont next (step state).1) (step state).2 = _
  rw [returns]
  rfl

/-- A step that stops ends the whole. -/
theorem bind_ended {step : ExceptT ε (StateM σ) α}
    {next : α → ExceptT ε (StateM σ) β} {state after : σ} {stop : ε}
    (stops : step state = (.error stop, after)) :
    (step >>= next) state = (.error stop, after) := by
  change (ExceptT.bindCont next (step state).1) (step state).2 = _
  rw [stops]
  rfl

theorem wp_bind (step : ExceptT ε (StateM σ) α)
    (next : α → ExceptT ε (StateM σ) β) (post : β → σ → Prop) (state : σ) :
    wp always (step >>= next) post state ↔
      wp always step (fun value => wp always (next value) post) state := by
  have run : (step >>= next) state =
      (match step state with
        | (.ok value, after) => next value after
        | (.error stop, after) => (.error stop, after)) := by
    change (ExceptT.bindCont next (step state).1) (step state).2 = _
    rcases step state with ⟨result, after⟩
    cases result <;> rfl
  unfold wp
  rw [run]
  rcases step state with ⟨result, after⟩
  cases result <;> rfl

/-- A step establishes whatever follows from what it establishes. -/
theorem wp_mono {step : ExceptT ε (StateM σ) α} {first second : α → σ → Prop}
    {weaker : σ → Prop} {state : σ} (holds : wp always step first state)
    (returned : ∀ value after, first value after → second value after)
    (stopped : ∀ after, always after → weaker after) :
    wp weaker step second state := by
  unfold wp at holds ⊢
  revert holds
  rcases step state with ⟨result, after⟩
  cases result with
  | ok value => exact returned value after
  | error stop => exact stopped after

theorem wp_and {step : ExceptT ε (StateM σ) α} {first second : α → σ → Prop}
    {other : σ → Prop} {state : σ} (left : wp always step first state)
    (right : wp other step second state) :
    wp (fun after => always after ∧ other after) step
      (fun value after => first value after ∧ second value after) state := by
  unfold wp at left right ⊢
  rcases run : step state with ⟨result, after⟩
  rw [run] at left right
  cases result with
  | ok value => exact ⟨left, right⟩
  | error stop => exact ⟨left, right⟩

/-- What a run that returned established. -/
theorem of_wp {step : ExceptT ε (StateM σ) α} {post : α → σ → Prop}
    {state after : σ} {value : α} (holds : wp always step post state)
    (returns : step state = (.ok value, after)) : post value after := by
  unfold wp at holds
  rwa [returns] at holds

/-- A run that cannot stop returns. -/
theorem returns_of_wp {step : ExceptT ε (StateM σ) α} {post : α → σ → Prop}
    {state : σ} (holds : wp always step post state)
    (never : ∀ after, ¬always after) :
    ∃ value after, step state = (.ok value, after) ∧ post value after := by
  unfold wp at holds
  rcases run : step state with ⟨result, after⟩
  rw [run] at holds
  cases result with
  | ok value => exact ⟨value, after, rfl, holds⟩
  | error stop => exact absurd holds (never after)

/-- What holds after every run, whether it returned or stopped. -/
theorem wp_always {step : ExceptT ε (StateM σ) α} {post : α → σ → Prop}
    {state : σ} (holds : wp always step post state)
    (kept : ∀ value after, post value after → always after) :
    always (step state).2 := by
  unfold wp at holds
  revert holds
  rcases step state with ⟨result, after⟩
  cases result with
  | ok value => exact kept value after
  | error stop => exact id

end Weakest
