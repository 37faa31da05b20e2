import Millie.Types.Inference

/-!
# More general assumptions

A scheme is more general than another one if it has every instance of that one.
Whatever is derived from some assumptions is derived from more general ones,
because these leave more variables to generalise.
-/

namespace Millie.Types

open Millie.Symbols Millie.Syntax

/-! ## Schemes -/

/-- A scheme has every instance of another one and no other free variables. -/
structure Ty.Subsumes (general special : Ty Leaf) : Prop where
  instances : ∀ t, special.Admits t → general.Admits t
  free : ∀ v, Leaf.variable_ v ∈ general.leaves →
    Leaf.variable_ v ∈ special.leaves

theorem Ty.Subsumes.refl (scheme : Ty Leaf) : scheme.Subsumes scheme :=
  ⟨fun _ => id, fun _ => id⟩

@[simp]
theorem Leaf.under_variable :
    Leaf.under (fun v => .leaf (.variable_ v)) = Ty.leaf := by
  funext a
  cases a <;> rfl

namespace Generalises

variable {assumptions others : Assumptions} {s t scheme special : Ty Leaf}
  {ρ σ : TypePointer → Ty Leaf}

/-- Every type has a scheme. -/
theorem exists_scheme (assumptions : Assumptions) (t : Ty Leaf) :
    ∃ scheme, Generalises assumptions t scheme :=
  ⟨_, id, fun _ _ _ _ _ _ => id, rfl⟩

/-- What is substituted for the bound variables gives an instance. -/
theorem admits_bind (generalises : Generalises assumptions t scheme)
    (plain : t.Plain) (plainRho : PlainFor (Leaf.under ρ))
    (plainSigma : PlainFor (Leaf.under σ))
    (same : ∀ v, assumptions.Mentions v → ρ v = σ v) :
    (scheme.bind (Leaf.under σ)).Admits (t.bind (Leaf.under ρ)) := by
  rcases generalises with ⟨image, injective, rfl⟩
  let bound : Set TypePointer :=
    { v | Leaf.variable_ v ∈ t.leaves ∧ ¬assumptions.Mentions v }
  have injOn : Set.InjOn image bound := fun v inV w inW =>
    injective v w inV.1 inW.1 inV.2 inW.2
  refine ⟨plain.bind plainRho, fun g => ρ (Function.invFunOn image bound g), ?_⟩
  rw [Ty.bind_bind, Ty.bind_bind]
  apply Ty.bind_congr
  intro a member
  rcases plain a member with ⟨v, rfl⟩
  rw [Assumptions.close, Leaf.under]
  by_cases mentions : assumptions.Mentions v
  · rw [if_pos mentions, same v mentions]
    exact ((plainSigma v).bind_opened _).symm
  · rw [if_neg mentions]
    exact congrArg ρ (injOn.leftInvOn_invFunOn ⟨member, mentions⟩).symm

/--
The scheme of a type is more general than those of its instances, if these leave
no more variables to bind.
-/
theorem subsumes (generalises : Generalises assumptions t scheme)
    (instance_ : Generalises others (t.bind (Leaf.under σ)) special)
    (plain : t.Plain) (plainFor : PlainFor (Leaf.under σ))
    (mentioned : ∀ v w, assumptions.Mentions v →
      Leaf.variable_ w ∈ (σ v).leaves → others.Mentions w) :
    (scheme.bind (Leaf.under σ)).Subsumes special := by
  constructor
  · intro u admits
    rcases instance_.instances (plain.bind plainFor) admits with
      ⟨τ, plainTau, fixed, rfl⟩
    have composed : (t.bind (Leaf.under σ)).bind (Leaf.under τ) =
        t.bind (Leaf.under fun v => (σ v).bind (Leaf.under τ)) := by
      rw [Ty.bind_bind]
      apply Ty.bind_congr
      intro a member
      rcases plain a member with ⟨v, rfl⟩
      rfl
    rw [composed]
    apply generalises.admits_bind plain
      (fun v => (plainFor v).bind plainTau) plainFor
    intro v mentions
    apply Eq.trans (Ty.bind_congr fun a member => ?_) (σ v).bind_leaf
    rcases plainFor v a member with ⟨w, rfl⟩
    exact fixed w (mentioned v w mentions member)
  · intro w member
    rcases generalises with ⟨image, -, rfl⟩
    rcases instance_ with ⟨image', -, rfl⟩
    rw [Ty.bind_bind] at member
    rcases Ty.mem_leaves_bind.mp member with ⟨a, inside, here⟩
    rcases plain a inside with ⟨v, rfl⟩
    rw [Assumptions.close] at here
    split at here
    · rename_i mentions
      refine Ty.mem_leaves_bind.mpr ⟨.variable_ w,
        Ty.mem_leaves_bind.mpr ⟨_, inside, here⟩, ?_⟩
      rw [Assumptions.close, if_pos (mentioned v w mentions here)]
      exact List.mem_singleton_self _
    · exact absurd (List.mem_singleton.mp here) Leaf.noConfusion

end Generalises

/-! ## Assumptions -/

/-- The assumptions give the same names more general schemes. -/
def Assumptions.Subsumes (general special : Assumptions) : Prop :=
  List.Forall₂ (fun first second => first.1 = second.1 ∧
    first.2.Subsumes second.2) general special

namespace Assumptions.Subsumes

variable {general special : Assumptions}

theorem refl (assumptions : Assumptions) : assumptions.Subsumes assumptions :=
  List.forall₂_same.mpr fun entry _ => ⟨rfl, .refl entry.2⟩

theorem lookup (subsumes : general.Subsumes special) {id : Symbol}
    {scheme : Ty Leaf} (found : special.lookup id = some scheme) :
    ∃ scheme', general.lookup id = some scheme' ∧ scheme'.Subsumes scheme := by
  induction subsumes with
  | nil => cases found
  | cons here rest ih =>
      rw [List.lookup_cons] at found ⊢
      rw [here.1]
      split at found
      · cases found
        exact ⟨_, rfl, here.2⟩
      · exact ih found

theorem mentions (subsumes : general.Subsumes special) {v : TypePointer}
    (mentions : general.Mentions v) : special.Mentions v := by
  induction subsumes with
  | nil =>
      rcases mentions with ⟨entry, member, -⟩
      exact absurd member List.not_mem_nil
  | @cons first second _ _ here rest ih =>
      rcases mentions with ⟨entry, member, inside⟩
      rcases List.mem_cons.mp member with rfl | member
      · exact ⟨second, List.mem_cons_self, here.2.free v inside⟩
      · rcases ih ⟨entry, member, inside⟩ with ⟨other, member', inside'⟩
        exact ⟨other, List.mem_cons_of_mem _ member', inside'⟩

/-- A more general type gets a more general scheme. -/
theorem generalises (subsumes : general.Subsumes special) {t scheme : Ty Leaf}
    (plain : t.Plain) (generalises : Generalises special t scheme) :
    ∃ scheme', Generalises general t scheme' ∧ scheme'.Subsumes scheme := by
  rcases Generalises.exists_scheme general t with ⟨scheme', more⟩
  refine ⟨scheme', more, ?_⟩
  have same : ∀ u : Ty Leaf,
      u.bind (Leaf.under fun v => .leaf (.variable_ v)) = u := fun u => by
    rw [Leaf.under_variable, Ty.bind_leaf]
  have instance_ : Generalises special
      (t.bind (Leaf.under fun v => .leaf (.variable_ v))) scheme := by
    rwa [same]
  have wider := more.subsumes instance_ plain (fun v => .variable_ v)
    fun v w mentioned inside => by
      cases List.mem_singleton.mp inside
      exact subsumes.mentions mentioned
  rwa [same] at wider

end Assumptions.Subsumes

/-- A derivation holds under more general assumptions. -/
theorem Typing.subsumed {general special : Assumptions}
    {expression : Expression} {t : Ty Leaf}
    (typing : Typing special expression t)
    (subsumes : general.Subsumes special) : Typing general expression t := by
  induction typing generalizing general with
  | identifier found admits =>
      rcases subsumes.lookup found with ⟨scheme, found', wider⟩
      exact .identifier found' (wider.instances _ admits)
  | apply _ _ functionIh argumentIh =>
      exact .apply (functionIh subsumes) (argumentIh subsumes)
  | lambda plain _ bodyIh =>
      exact .lambda plain (bodyIh (.cons ⟨rfl, .refl _⟩ subsumes))
  | let_ valueTyping generalises _ valueIh bodyIh =>
      rcases subsumes.generalises valueTyping.plain generalises with
        ⟨scheme, generalises', wider⟩
      exact .let_ (valueIh subsumes) generalises'
        (bodyIh (.cons ⟨rfl, wider⟩ subsumes))
  | letrec plain _ generalises _ valueIh bodyIh =>
      rcases subsumes.generalises plain generalises with
        ⟨scheme, generalises', wider⟩
      exact .letrec plain (valueIh (.cons ⟨rfl, .refl _⟩ subsumes))
        generalises' (bodyIh (.cons ⟨rfl, wider⟩ subsumes))
  | if_ _ _ _ testIh thenIh elseIh =>
      exact .if_ (testIh subsumes) (thenIh subsumes) (elseIh subsumes)
  | binary operatorTypes _ _ leftIh rightIh =>
      exact .binary operatorTypes (leftIh subsumes) (rightIh subsumes)
  | unary _ argIh => exact .unary (argIh subsumes)
  | tuple _ _ firstIh restIh =>
      exact .tuple (firstIh subsumes) (restIh subsumes)
  | tupleFinal _ firstIh => exact .tupleFinal (firstIh subsumes)
  | integerConstant => exact .integerConstant
  | true_ => exact .true_
  | false_ => exact .false_

end Millie.Types
