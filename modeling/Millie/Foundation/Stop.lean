/-!
# How a run can stop without a result

A translated loop carries fuel, and a translated memory access can leave the
memory it was given, and the program can end itself.  The outcomes are kept
apart: a claim that a function returns is a claim that enough fuel gives
`Except.ok`.
-/

/-- Why a translated function gives no result. -/
inductive Stop where
  | outOfFuel
  | undefinedBehaviour
  | failed
deriving DecidableEq, Repr

namespace Stop

@[simp]
theorem ok_bind {α β : Type} (value : α) (next : α → Except Stop β) :
    (Except.ok value >>= next) = next value :=
  rfl

@[simp]
theorem error_bind {α β : Type} (stop : Stop) (next : α → Except Stop β) :
    (Except.error stop >>= next) = .error stop :=
  rfl

theorem bind_eq_ok_iff {α β : Type} {step : Except Stop α}
    {next : α → Except Stop β} {result : β} :
    (step >>= next) = .ok result ↔
      ∃ value, step = .ok value ∧ next value = .ok result := by
  cases step with
  | ok value => simp
  | error stop => simp

/--
Changing the parts of a sequence where they do not run out of fuel does not
change a sequence that does not.
-/
theorem bind_settled {α β : Type} {first first' : Except Stop α}
    {next next' : α → Except Stop β}
    (settled : (first >>= next) ≠ .error .outOfFuel)
    (firstSame : first ≠ .error .outOfFuel → first' = first)
    (nextSame : ∀ value, next value ≠ .error .outOfFuel →
      next' value = next value) :
    (first' >>= next') = (first >>= next) := by
  cases first with
  | ok value =>
      rw [firstSame nofun]
      exact nextSame value settled
  | error stop =>
      have other : stop ≠ .outOfFuel := fun same => settled (same ▸ rfl)
      rw [firstSame fun same => other (Except.error.inj same)]
      rfl

end Stop
