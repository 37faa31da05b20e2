import Millie.Foundation.Weakest

/-!
# Enough fuel

A step that takes fuel settles if every sufficient amount of fuel gives the same
value and the same state.
-/

namespace Weakest

variable {ε σ α β : Type}

/-- Every sufficient amount of fuel gives the value and the state. -/
def Settles
    (run : Nat → StateT σ (Except ε) α)
    (state : σ)
    (value : α)
    (after : σ) :
    Prop :=
  ∃ bound, ∀ fuel ≥ bound, run fuel state = .ok (value, after)

namespace Settles

variable {run : Nat → StateT σ (Except ε) α}
  {next : Nat → α → StateT σ (Except ε) β} {state middle after : σ}
  {value : α} {result : β}

theorem of_eq (returns : ∀ fuel, run fuel state = .ok (value, after)) :
    Settles run state value after :=
  ⟨0, fun fuel _ => returns fuel⟩

/-- A step that uses up one unit of fuel. -/
theorem succ (body : Nat → StateT σ (Except ε) α)
    (unfolds : ∀ fuel, run (fuel + 1) state = body fuel state)
    (settles : Settles body state value after) :
    Settles run state value after := by
  rcases settles with ⟨bound, returns⟩
  refine ⟨bound + 1, fun fuel enough => ?_⟩
  cases fuel with
  | zero => cases enough
  | succ fuel =>
      rw [unfolds]
      exact returns fuel (Nat.le_of_succ_le_succ enough)

theorem bind (first : Settles run state value middle)
    (second : Settles (fun fuel => next fuel value) middle result after) :
    Settles (fun fuel => run fuel >>= next fuel) state result after := by
  rcases first with ⟨boundFirst, returnsFirst⟩
  rcases second with ⟨boundSecond, returnsSecond⟩
  refine ⟨max boundFirst boundSecond, fun fuel enough => ?_⟩
  have first := returnsFirst fuel (Nat.le_trans (Nat.le_max_left ..) enough)
  exact (bind_returned first).trans
    (returnsSecond fuel (Nat.le_trans (Nat.le_max_right ..) enough))

theorem returns (settles : Settles run state value after) :
    ∃ fuel, run fuel state = .ok (value, after) := by
  rcases settles with ⟨bound, returns⟩
  exact ⟨bound, returns bound (Nat.le_refl bound)⟩

/-- What every run establishes if it returns holds of the result. -/
theorem post {fail : Nat → ε → Prop} {post : α → σ → Prop}
    (settles : Settles run state value after)
    (holds : ∀ fuel, wpExcept (fail fuel) (run fuel) post state) :
    post value after := by
  rcases settles.returns with ⟨fuel, returns⟩
  exact of_wpExcept (holds fuel) returns

end Settles

end Weakest
