import Millie.Foundation.Traces

/-!
# Steps that only append to a log

`view` reads a list off a state.  A step emits entries in `fine` if it changes
the list only by appending such entries, whether it returns or stops; of a step
that loses its state when it stops, the list is read after each of its atomic
steps.  The rules need no more of two steps in sequence than that each of them
does.  What a step shows by returning without appending anything composes in the
same way.
-/

namespace Weakest

variable {ε σ ρ α β : Type}

/-- One list is another with fine entries appended. -/
def Appends (fine : ρ → Prop) (before after : List ρ) : Prop :=
  ∃ new, after = before ++ new ∧ ∀ entry ∈ new, fine entry

section

variable {fine : ρ → Prop} {first second third : List ρ}

theorem Appends.refl (list : List ρ) : Appends fine list list :=
  ⟨[], (List.append_nil _).symm, nofun⟩

theorem Appends.trans (left : Appends fine first second)
    (right : Appends fine second third) : Appends fine first third := by
  rcases left with ⟨new, rfl, fineNew⟩
  rcases right with ⟨more, rfl, fineMore⟩
  exact ⟨new ++ more, List.append_assoc _ _ _,
    List.forall_mem_append.mpr ⟨fineNew, fineMore⟩⟩

theorem Appends.single {entry : ρ} (holds : fine entry) (list : List ρ) :
    Appends fine list (list ++ [entry]) :=
  ⟨[entry], rfl, List.forall_mem_singleton.mpr holds⟩

/-- What has been appended to nothing is fine. -/
theorem Appends.of_nil (appends : Appends fine [] second) :
    ∀ entry ∈ second, fine entry := by
  rcases appends with ⟨new, rfl, fineNew⟩
  exact fineNew

end

section

variable (view : σ → List ρ) (fine : ρ → Prop)

/-- A step that keeps its state emits fine entries and returns good values. -/
def Emits (good : α → Prop) (step : ExceptT ε (StateM σ) α) : Prop :=
  ∀ state, wp (fun after => Appends fine (view state) (view after)) step
    (fun value after => good value ∧ Appends fine (view state) (view after))
    state

/-- A step that loses its state emits fine entries, up to where it ends. -/
def EmitsExcept (atomic : ∀ ⦃α : Type⦄, StateT σ (Except ε) α → Prop)
    (step : StateT σ (Except ε) α) : Prop :=
  ∀ state, throughoutExcept atomic
    (fun moment => Appends fine (view state) (view moment)) step
    (fun _ after => Appends fine (view state) (view after)) state

end

variable {view : σ → List ρ} {fine : ρ → Prop} {good : α → Prop}
  {better : β → Prop}

theorem Emits.pure {value : α} (holds : good value) :
    Emits (ε := ε) view fine good (Pure.pure value) :=
  fun _ => ⟨holds, .refl _⟩

theorem Emits.bind {step : ExceptT ε (StateM σ) α}
    {next : α → ExceptT ε (StateM σ) β} (first : Emits view fine good step)
    (second : ∀ value, good value → Emits view fine better (next value)) :
    Emits view fine better (step >>= next) := by
  intro state
  rw [wp_bind]
  refine wp_mono (first state) ?_ fun _ => id
  rintro value middle ⟨holds, left⟩
  refine wp_mono (second value holds middle) ?_ fun _ => left.trans
  rintro result after ⟨fine, right⟩
  exact ⟨fine, left.trans right⟩

/-- What every run emits, whether it returns or stops. -/
theorem Emits.always {step : ExceptT ε (StateM σ) α}
    (emits : Emits view fine good step) (state : σ) :
    Appends fine (view state) (view (step state).2) :=
  wp_always (emits state) fun _ _ => And.right

section

variable {atomic : ∀ ⦃α : Type⦄, StateT σ (Except ε) α → Prop}

theorem EmitsExcept.pure (value : α) :
    EmitsExcept view fine atomic (Pure.pure value) :=
  fun _ => throughoutExcept_pure (.refl _)

/-- An atomic step emits what it has appended when it returns. -/
theorem EmitsExcept.step {step : StateT σ (Except ε) α}
    (isAtomic : atomic step)
    (appends : ∀ state, wpExcept (fun _ => True) step
      (fun _ after => Appends fine (view state) (view after)) state) :
    EmitsExcept view fine atomic step :=
  fun state => throughoutExcept_step isAtomic (appends state) fun _ _ => id

/-- What a step returns may be used to show what the next one emits. -/
theorem EmitsExcept.bind_value {step : StateT σ (Except ε) α}
    {next : α → StateT σ (Except ε) β}
    (first : EmitsExcept view fine atomic step)
    (values : ∀ state value after, step state = .ok (value, after) → good value)
    (second : ∀ value, good value → EmitsExcept view fine atomic (next value)) :
    EmitsExcept view fine atomic (step >>= next) := by
  intro state
  have shown : throughoutExcept atomic
      (fun moment => Appends fine (view state) (view moment)) step
      (fun value after => good value ∧ Appends fine (view state) (view after))
      state := by
    rcases first state with ⟨moments, runs, onWay, result⟩
    refine ⟨moments, runs, onWay, ?_⟩
    unfold wpExcept at result ⊢
    cases returns : step state with
    | ok ended =>
        rw [returns] at result
        exact ⟨values state ended.1 ended.2 returns, result⟩
    | error stop => trivial
  refine throughoutExcept_bind shown ?_
  rintro value middle ⟨holds, left⟩
  exact throughoutExcept_mono (second value holds middle) (fun _ => left.trans)
    fun _ _ => left.trans

theorem EmitsExcept.bind {step : StateT σ (Except ε) α}
    {next : α → StateT σ (Except ε) β}
    (first : EmitsExcept view fine atomic step)
    (second : ∀ value, EmitsExcept view fine atomic (next value)) :
    EmitsExcept view fine atomic (step >>= next) :=
  first.bind_value (fun _ _ _ _ => trivial) fun value _ => second value

/-- What a run from an empty list emits. -/
theorem EmitsExcept.always {step : StateT σ (Except ε) α}
    (emits : EmitsExcept view fine atomic step) {state : σ}
    (empty : view state = []) :
    throughoutExcept atomic (fun moment => ∀ entry ∈ view moment, fine entry)
      step (fun _ after => ∀ entry ∈ view after, fine entry) state := by
  have appends := emits state
  rw [empty] at appends
  exact throughoutExcept_mono appends (fun _ => Appends.of_nil)
    fun _ _ => Appends.of_nil

end

/-! ## What a run that returns appends -/

variable (view) in
/-- A step that appends a list whenever it returns. -/
def Adds (list : List ρ) (step : ExceptT ε (StateM σ) α) : Prop :=
  ∀ state, wp (fun _ => True) step
    (fun _ after => view after = view state ++ list) state

namespace Adds

variable {first second : List ρ}

theorem pure (value : α) :
    Adds view [] (Pure.pure value : ExceptT ε (StateM σ) α) :=
  fun state => (List.append_nil (view state)).symm

theorem bind {step : ExceptT ε (StateM σ) α}
    {next : α → ExceptT ε (StateM σ) β} (left : Adds view first step)
    (right : ∀ value, Adds view second (next value)) :
    Adds view (first ++ second) (step >>= next) := by
  intro state
  rw [wp_bind]
  refine wp_mono (left state) ?_ fun _ => id
  intro value middle added
  refine wp_mono (right value middle) ?_ fun _ => id
  intro result after more
  rw [more, added, List.append_assoc]

/-- What is appended after a step that appends nothing. -/
theorem after {step : ExceptT ε (StateM σ) α}
    {next : α → ExceptT ε (StateM σ) β} (left : Adds view [] step)
    (right : ∀ value, Adds view second (next value)) :
    Adds view second (step >>= next) :=
  left.bind right

/-- What is appended before a step that appends nothing. -/
theorem before {step : ExceptT ε (StateM σ) α}
    {next : α → ExceptT ε (StateM σ) β} (left : Adds view first step)
    (right : ∀ value, Adds view [] (next value)) :
    Adds view first (step >>= next) := by
  have both := left.bind right
  rwa [List.append_nil] at both

end Adds

/-! ## What a silent run shows -/

variable (view) in
/-- A step that only appends, and shows a claim when it appends nothing. -/
def Shows (claim : Prop) (step : ExceptT ε (StateM σ) α) : Prop :=
  ∀ state, wp (fun _ => True) step
    (fun _ after => view state <+: view after ∧
      (view after = view state → claim)) state

namespace Shows

variable {claim other : Prop}

theorem of_emits {step : ExceptT ε (StateM σ) α}
    (emits : Emits view fine good step) : Shows view True step := by
  intro state
  refine wp_mono (emits state) ?_ fun _ _ => trivial
  rintro value after ⟨-, new, appended, -⟩
  exact ⟨⟨new, appended.symm⟩, fun _ => trivial⟩

theorem mono {step : ExceptT ε (StateM σ) α} (shows_ : Shows view claim step)
    (imp : claim → other) : Shows view other step :=
  fun state => wp_mono (shows_ state)
    (fun _ _ both => ⟨both.1, fun same => imp (both.2 same)⟩) fun _ => id

/-- A silent sequence is silent in both of its steps. -/
theorem bind {step : ExceptT ε (StateM σ) α}
    {next : α → ExceptT ε (StateM σ) β} (first : Shows view claim step)
    (second : ∀ value, Shows view other (next value)) :
    Shows view (claim ∧ other) (step >>= next) := by
  intro state
  rw [wp_bind]
  refine wp_mono (first state) ?_ fun _ => id
  rintro value middle ⟨left, leftSilent⟩
  refine wp_mono (second value middle) ?_ fun _ => id
  rintro result after ⟨right, rightSilent⟩
  refine ⟨left.trans right, fun same => ?_⟩
  have middleSame : view middle = view state :=
    (left.eq_of_length_le (same ▸ right).length_le).symm
  exact ⟨leftSilent middleSame, rightSilent (same.trans middleSame.symm)⟩

/-- What is shown after a step that shows nothing of its own. -/
theorem after {step : ExceptT ε (StateM σ) α}
    {next : α → ExceptT ε (StateM σ) β} (first : Shows view True step)
    (second : ∀ value, Shows view claim (next value)) :
    Shows view claim (step >>= next) :=
  (first.bind second).mono And.right

/-- What is shown before a step that shows nothing of its own. -/
theorem before {step : ExceptT ε (StateM σ) α}
    {next : α → ExceptT ε (StateM σ) β} (first : Shows view claim step)
    (second : ∀ value, Shows view True (next value)) :
    Shows view claim (step >>= next) :=
  (first.bind second).mono And.left

end Shows

end Weakest
