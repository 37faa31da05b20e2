import Mathlib.Data.Set.Card
import Mathlib.Logic.Relation

/-!
# Linked structures

Reachability along a link relation when links change, and ranks: a number for
every node that falls along every link.  A rank rules out cycles and bounds the
length of every path.
-/

namespace Links

open Relation

variable {α : Type} {link after : α → α → Prop}

/-! ## Paths -/

/-- A path in a new relation runs along old links until it leaves a changed node. -/
theorem departs {changed : α → Prop}
    (old : ∀ p q, after p q → link p q ∨ changed p) {p q : α}
    (path : ReflTransGen after p q) :
    ReflTransGen link p q ∨
      ∃ v, changed v ∧ ReflTransGen link p v ∧ ReflTransGen after v q := by
  induction path using ReflTransGen.head_induction_on with
  | refl => exact .inl .refl
  | @head p middle first rest ih =>
      rcases old p middle first with kept | leaves
      · rcases ih with inside | ⟨v, isChanged, upTo, onward⟩
        · exact .inl (.head kept inside)
        · exact .inr ⟨v, isChanged, .head kept upTo, onward⟩
      · exact .inr ⟨p, leaves, .refl, .head first rest⟩

/-- A path to a node outside a closed set of sources never enters the set. -/
theorem closed {inside : α → Prop}
    (closed : ∀ p q, link p q → inside p → inside q) {p q : α}
    (path : ReflTransGen link p q) (start : inside p) : inside q := by
  induction path with
  | refl => exact start
  | tail _ last ih => exact closed _ _ last ih

/-- A node without links reaches only itself. -/
theorem reaches_of_terminal {p q : α} (terminal : ∀ r, ¬link p r)
    (path : ReflTransGen link p q) : q = p := by
  rcases path.cases_head with same | ⟨r, first, -⟩
  · exact same.symm
  · exact absurd first (terminal r)

/-! ## Ranks -/

/-- A number for every node that falls along every link. -/
def Ranks (link : α → α → Prop) (rank : α → Nat) : Prop :=
  ∀ p q, link p q → rank q < rank p

namespace Ranks

variable {rank : α → Nat}

/-- A link from `a` to `b` closes no cycle when `b` does not reach `a`. -/
theorem connect (ranks : Ranks link rank) {a b : α}
    (apart : ¬ReflTransGen link b a)
    (old : ∀ p q, after p q → link p q ∨ p = a ∧ q = b) :
    ∃ rank, Ranks after rank := by
  classical
  -- Whatever reaches `a` is lifted above everything that `b` reaches.
  refine ⟨fun p =>
    if ReflTransGen link p a then rank p + rank b + 1 else rank p, ?_⟩
  intro p q next
  rcases old p q next with kept | ⟨rfl, rfl⟩
  · have falls := ranks p q kept
    by_cases fromQ : ReflTransGen link q a
    · have fromP : ReflTransGen link p a := .head kept fromQ
      simp only [if_pos fromP, if_pos fromQ]
      omega
    · simp only [if_neg fromQ]
      split <;> omega
  · simp only [if_neg apart, if_pos (ReflTransGen.refl (a := p))]
    omega

/-- Without cycles, a node can be ranked by how many nodes follow it. -/
theorem of_acyclic (acyclic : ∀ p, ¬TransGen link p p)
    (finite : ∀ p, { q | TransGen link p q }.Finite) :
    Ranks link fun p => { q | TransGen link p q }.ncard := by
  intro p q next
  apply Set.ncard_lt_ncard ?_ (finite p)
  refine Set.ssubset_iff_of_subset ?_ |>.mpr ⟨q, .single next, acyclic q⟩
  exact fun r path => .head next path

end Ranks

end Links
