import Mathlib.Data.Set.Basic

/-!
# Footprints

A step that logs the places it reads has a footprint: the places that it adds to
the log of every run.  The footprint of a sequence is the union of those of its
steps.
-/

namespace Footprint

variable {ε α β γ : Type} {first second : Set α}

/-- The step returns whatever the log is, and logs exactly these places. -/
def Touches (places : Set α) (step : StateT (List α) (Except ε) β) : Prop :=
  ∀ log, ∃ value after, step log = .ok (value, after) ∧
    ∀ place, place ∈ after ↔ place ∈ log ∨ place ∈ places

namespace Touches

theorem congr {step : StateT (List α) (Except ε) β}
    (touches : Touches first step) (same : first = second) :
    Touches second step :=
  same ▸ touches

theorem pure (value : β) :
    Touches ∅ (Pure.pure value : StateT (List α) (Except ε) β) := by
  intro log
  exact ⟨value, log, rfl, by simp⟩

theorem bind {step : StateT (List α) (Except ε) β}
    {next : β → StateT (List α) (Except ε) γ} (touches : Touches first step)
    (rest : ∀ value, Touches second (next value)) :
    Touches (first ∪ second) (step >>= next) := by
  intro log
  rcases touches log with ⟨value, middle, returns, added⟩
  rcases rest value middle with ⟨result, after, returned, more⟩
  refine ⟨result, after, ?_, fun place => ?_⟩
  · have taken : (step >>= next) log = next value middle := by
      change (step log >>= fun pair => next pair.1 pair.2) = _
      rw [returns]
      rfl
    exact taken.trans returned
  · rw [more, added, Set.mem_union, or_assoc]

/-- From an empty log a run logs its footprint. -/
theorem run {step : StateT (List α) (Except ε) β}
    (touches : Touches first step) : ∃ value log, step [] = .ok (value, log) ∧
      ∀ place, place ∈ log ↔ place ∈ first := by
  rcases touches [] with ⟨value, log, returns, added⟩
  refine ⟨value, log, returns, fun place => ?_⟩
  rw [added]
  exact or_iff_right List.not_mem_nil

end Touches

end Footprint
