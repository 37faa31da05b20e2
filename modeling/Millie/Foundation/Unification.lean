import Mathlib.Logic.Function.Basic

/-!
# Unifiers

Terms over variables form a monad: `pure a` is a variable and `t >>= θ` is the
term `t` under the substitution `θ`.  A substitution is most general for a
problem when it solves it and every other solution absorbs it.
-/

namespace Unification

universe u v

variable {M : Type u → Type v} [Monad M] [LawfulMonad M] {α : Type u}

/-- The substitution makes two terms equal. -/
def Unifier (θ : α → M α) (s t : M α) : Prop :=
  (s >>= θ) = (t >>= θ)

/-- A solution that every solution absorbs. -/
structure MostGeneral (σ : α → M α) (problem : (α → M α) → Prop) : Prop where
  solves : problem σ
  absorbed : ∀ θ, problem θ → ∀ a, θ a = σ a >>= θ

section

variable {σ τ θ : α → M α} {s t s' t' : M α}

omit [LawfulMonad M] in
theorem Unifier.symm (unifier : Unifier θ s t) : Unifier θ t s :=
  Eq.symm unifier

/-- A substitution that absorbs another one does so on every term. -/
theorem bind_absorbed (absorbs : ∀ a, θ a = σ a >>= θ) (t : M α) :
    t >>= θ = (t >>= σ) >>= θ := by
  rw [bind_assoc]
  congr 1
  ext a : 1
  exact absorbs a

/-- Whatever absorbs a substitution solves a problem before it or after it. -/
theorem unifier_absorbed (absorbs : ∀ a, θ a = σ a >>= θ) (s t : M α) :
    Unifier θ (s >>= σ) (t >>= σ) ↔ Unifier θ s t := by
  unfold Unifier
  rw [← bind_absorbed absorbs s, ← bind_absorbed absorbs t]

namespace MostGeneral

variable {problem other : (α → M α) → Prop}

omit [LawfulMonad M] in
theorem congr (mostGeneral : MostGeneral σ problem)
    (same : ∀ θ, other θ ↔ problem θ) : MostGeneral σ other where
  solves := (same σ).mpr mostGeneral.solves
  absorbed θ solves := mostGeneral.absorbed θ ((same θ).mp solves)

/-- A problem that everything solves. -/
theorem trivial (all : ∀ θ, problem θ) : MostGeneral pure problem where
  solves := all pure
  absorbed θ _ a := (pure_bind a θ).symm

/-- A variable and a term that replacing the variable leaves alone. -/
theorem single [DecidableEq α] {a : α} {t : M α}
    (apart : t >>= Function.update pure a t = t) :
    MostGeneral (Function.update pure a t) (Unifier · (pure a) t) where
  solves := by
    rw [Unifier, pure_bind, Function.update_self, apart]
  absorbed θ unifier b := by
    rw [Unifier, pure_bind] at unifier
    by_cases same : b = a
    · rw [same, Function.update_self, unifier]
    · rw [Function.update_of_ne same, pure_bind]

/-- One problem after another. -/
theorem comp (first : MostGeneral σ (Unifier · s t))
    (second : MostGeneral τ (Unifier · (s' >>= σ) (t' >>= σ))) :
    MostGeneral (fun a => σ a >>= τ)
      (fun θ => Unifier θ s t ∧ Unifier θ s' t') where
  solves := by
    constructor
    · have solves := first.solves
      unfold Unifier at solves ⊢
      rw [← bind_assoc, ← bind_assoc, solves]
    · have solves := second.solves
      unfold Unifier at solves ⊢
      rw [← bind_assoc, ← bind_assoc, solves]
  absorbed θ both a := by
    have absorbs := first.absorbed θ both.1
    have next := second.absorbed θ
      ((unifier_absorbed absorbs s' t').mpr both.2)
    rw [← bind_absorbed next]
    exact absorbs a

end MostGeneral

/-- If the second problem has no solution after the first, both have none. -/
theorem no_unifier_comp (first : MostGeneral σ (Unifier · s t))
    (second : ∀ θ, ¬Unifier θ (s' >>= σ) (t' >>= σ)) (θ : α → M α) :
    ¬(Unifier θ s t ∧ Unifier θ s' t') := by
  rintro ⟨left, right⟩
  exact second θ
    ((unifier_absorbed (first.absorbed θ left) s' t').mpr right)

end

end Unification
