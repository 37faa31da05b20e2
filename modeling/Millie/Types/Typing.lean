import Millie.Types.Instances

/-!
# Typing derivations

The rules that the checker implements, over the terms of its types.  A scheme is
a term whose generic leaves are bound.  Lambda-bound names and a let rec name
inside its own definition have one type, let-bound ones have every instance of
their scheme.
-/

namespace Millie.Types

open Millie.Symbols Millie.Syntax

/-! ## Schemes -/

namespace Ty.Plain

variable {s t : Ty Leaf}

theorem variable_ (v : TypePointer) : (Ty.leaf (.variable_ v)).Plain :=
  fun _ member => ⟨v, List.mem_singleton.mp member⟩

theorem int : (Ty.int : Ty Leaf).Plain :=
  fun _ member => absurd member List.not_mem_nil

theorem bool : (Ty.bool : Ty Leaf).Plain :=
  fun _ member => absurd member List.not_mem_nil

theorem func_iff : (Ty.func s t).Plain ↔ s.Plain ∧ t.Plain :=
  List.forall_mem_append

theorem tuple_iff : (Ty.tuple s t).Plain ↔ s.Plain ∧ t.Plain :=
  List.forall_mem_append

end Ty.Plain

/-- Replace the generic leaves. -/
def Leaf.opened (θ : TypePointer → Ty Leaf) : Leaf → Ty Leaf
  | .generic g => θ g
  | a => .leaf a

/-- The types that a scheme stands for. -/
def Ty.Admits (scheme t : Ty Leaf) : Prop :=
  t.Plain ∧ ∃ θ : TypePointer → Ty Leaf, t = scheme.bind (Leaf.opened θ)

/-- A plain type is the one instance of itself. -/
theorem Ty.Plain.bind_opened {t : Ty Leaf} (plain : t.Plain)
    (θ : TypePointer → Ty Leaf) : t.bind (Leaf.opened θ) = t := by
  apply Eq.trans (Ty.bind_congr ?_) t.bind_leaf
  intro a member
  rcases plain a member with ⟨v, rfl⟩
  rfl

theorem Ty.Plain.admits_iff {s t : Ty Leaf} (plain : s.Plain) :
    s.Admits t ↔ t = s := by
  constructor
  · rintro ⟨-, θ, rfl⟩
    exact plain.bind_opened θ
  · rintro rfl
    exact ⟨plain, fun v => .leaf (.variable_ v), (plain.bind_opened _).symm⟩

/-- Substituting for the variables of a scheme substitutes in its instances. -/
theorem Ty.Admits.subst {scheme t : Ty Leaf} (admits : scheme.Admits t)
    {σ : TypePointer → Ty Leaf} (plainFor : PlainFor (Leaf.under σ)) :
    (scheme.bind (Leaf.under σ)).Admits (t.bind (Leaf.under σ)) := by
  rcases admits with ⟨plain, θ, rfl⟩
  refine ⟨plain.bind plainFor, fun g => (θ g).bind (Leaf.under σ), ?_⟩
  rw [Ty.bind_bind, Ty.bind_bind]
  apply Ty.bind_congr
  intro a _
  cases a with
  | variable_ v => exact ((plainFor v).bind_opened _).symm
  | generic g => rfl
  | error => rfl

/-! ## Assumptions -/

/-- The schemes of the names in scope, the innermost binding first. -/
abbrev Assumptions := List (Symbol × Ty Leaf)

namespace Assumptions

/-- A variable is free in the assumptions. -/
def Mentions (assumptions : Assumptions) (v : TypePointer) : Prop :=
  ∃ entry ∈ assumptions, Leaf.variable_ v ∈ entry.2.leaves

instance (assumptions : Assumptions) (v : TypePointer) :
    Decidable (assumptions.Mentions v) :=
  inferInstanceAs (Decidable (∃ entry ∈ assumptions, _))

/-- Bind the variables that are not free in the assumptions. -/
def close (assumptions : Assumptions) (image : TypePointer → TypePointer) :
    Leaf → Ty Leaf
  | .variable_ v =>
      if assumptions.Mentions v then .leaf (.variable_ v)
      else .leaf (.generic (image v))
  | a => .leaf a

/-- Substitute for the variables of the assumptions. -/
def subst (assumptions : Assumptions) (σ : TypePointer → Ty Leaf) :
    Assumptions :=
  assumptions.map fun entry => (entry.1, entry.2.bind (Leaf.under σ))

variable {assumptions : Assumptions} {σ τ : TypePointer → Ty Leaf}
  {v : TypePointer}

theorem lookup_subst (id : Symbol) :
    (assumptions.subst σ).lookup id =
      (assumptions.lookup id).map (·.bind (Leaf.under σ)) := by
  induction assumptions with
  | nil => rfl
  | cons entry assumptions ih =>
      rw [subst, List.map_cons, List.lookup_cons, List.lookup_cons]
      split
      · rfl
      · exact ih

theorem subst_congr (same : ∀ v, assumptions.Mentions v → σ v = τ v) :
    assumptions.subst σ = assumptions.subst τ := by
  apply List.map_congr_left
  intro entry member
  refine congrArg (Prod.mk entry.1) (Ty.bind_congr fun a inside => ?_)
  cases a with
  | variable_ v => exact same v ⟨entry, member, inside⟩
  | generic g => rfl
  | error => rfl

/-- Substituting every variable for itself changes nothing. -/
theorem subst_self
    (same : ∀ v, assumptions.Mentions v → σ v = .leaf (.variable_ v)) :
    assumptions.subst σ = assumptions := by
  rw [subst_congr same, subst]
  apply Eq.trans (List.map_congr_left fun entry _ => ?_) assumptions.map_id
  refine congrArg (Prod.mk entry.1) (Eq.trans (Ty.bind_congr fun a _ => ?_)
    entry.2.bind_leaf)
  cases a <;> rfl

/-- The variables of what is substituted for a free variable are free. -/
theorem Mentions.subst (mentions : assumptions.Mentions v) {w : TypePointer}
    (inside : Leaf.variable_ w ∈ (σ v).leaves) :
    (assumptions.subst σ).Mentions w := by
  rcases mentions with ⟨entry, member, here⟩
  exact ⟨_, List.mem_map_of_mem member,
    Ty.mem_leaves_bind.mpr ⟨_, here, inside⟩⟩

/-- From some number on no variable is free in the assumptions. -/
theorem exists_fresh (assumptions : Assumptions) :
    ∃ bound, ∀ v, assumptions.Mentions v → v < bound := by
  have listed : ∀ leaves : List Leaf, ∃ bound,
      ∀ v, Leaf.variable_ v ∈ leaves → v < bound := by
    intro leaves
    induction leaves with
    | nil => exact ⟨0, fun _ member => absurd member List.not_mem_nil⟩
    | cons a leaves ih =>
        rcases ih with ⟨bound, above⟩
        cases a with
        | variable_ w =>
            refine ⟨max bound (w + 1), fun v member => ?_⟩
            rcases List.mem_cons.mp member with same | member
            · cases same
              exact Nat.lt_of_lt_of_le (Nat.lt_succ_self _)
                (Nat.le_max_right _ _)
            · exact Nat.lt_of_lt_of_le (above v member) (Nat.le_max_left _ _)
        | generic g | error =>
            refine ⟨bound, fun v member => ?_⟩
            rcases List.mem_cons.mp member with same | member
            · cases same
            · exact above v member
  rcases listed (assumptions.flatMap fun entry => entry.2.leaves) with
    ⟨bound, above⟩
  refine ⟨bound, fun v mentions => above v ?_⟩
  rcases mentions with ⟨entry, member, inside⟩
  exact List.mem_flatMap.mpr ⟨entry, member, inside⟩

end Assumptions

/-- The scheme that binds the variables that are not free in the assumptions. -/
def Generalises (assumptions : Assumptions) (t scheme : Ty Leaf) : Prop :=
  ∃ image : TypePointer → TypePointer,
    (∀ v w, Leaf.variable_ v ∈ t.leaves → Leaf.variable_ w ∈ t.leaves →
      ¬assumptions.Mentions v → ¬assumptions.Mentions w →
        image v = image w → v = w) ∧
      scheme = t.bind (assumptions.close image)

namespace Generalises

variable {assumptions : Assumptions} {s t scheme : Ty Leaf}
  {σ : TypePointer → Ty Leaf}

/-- Every instance of the scheme comes from substituting in its type. -/
theorem instances (generalises : Generalises assumptions t scheme)
    (plainT : t.Plain) (admits : scheme.Admits s) :
    ∃ τ : TypePointer → Ty Leaf, PlainFor (Leaf.under τ) ∧
      (∀ v, assumptions.Mentions v → τ v = .leaf (.variable_ v)) ∧
        s = t.bind (Leaf.under τ) := by
  rcases generalises with ⟨image, -, rfl⟩
  rcases admits with ⟨plain, θ, rfl⟩
  rw [Ty.bind_bind] at plain ⊢
  refine ⟨fun v =>
    if Leaf.variable_ v ∈ t.leaves ∧ ¬assumptions.Mentions v then θ (image v)
    else .leaf (.variable_ v), ?_, ?_, ?_⟩
  · intro v
    rw [Leaf.under]
    split
    · rename_i bound
      intro a member
      refine plain a (Ty.mem_leaves_bind.mpr ⟨_, bound.1, ?_⟩)
      rwa [Assumptions.close, if_neg bound.2]
    · exact .variable_ v
  · intro v mentions
    exact if_neg fun bound => bound.2 mentions
  · apply Ty.bind_congr
    intro a member
    rcases plainT a member with ⟨v, rfl⟩
    rw [Assumptions.close, Leaf.under]
    by_cases mentions : assumptions.Mentions v
    · rw [if_pos mentions, if_neg fun bound => bound.2 mentions]
      rfl
    · rw [if_neg mentions, if_pos ⟨member, mentions⟩]
      rfl

/-- A type whose variables are all free is its own scheme. -/
theorem eq_of_mentioned (generalises : Generalises assumptions t scheme)
    (plain : t.Plain)
    (mentioned : ∀ v, Leaf.variable_ v ∈ t.leaves → assumptions.Mentions v) :
    scheme = t := by
  rcases generalises with ⟨image, -, rfl⟩
  refine Eq.trans (Ty.bind_congr fun a member => ?_) t.bind_leaf
  rcases plain a member with ⟨v, rfl⟩
  exact if_pos (mentioned v member)

/--
Substitution preserves generalisation: the variables that are bound are first
renamed to fresh ones.
-/
theorem subst (generalises : Generalises assumptions t scheme)
    (plainT : t.Plain) (plainFor : PlainFor (Leaf.under σ)) :
    ∃ τ : TypePointer → Ty Leaf, PlainFor (Leaf.under τ) ∧
      (∀ v, assumptions.Mentions v → τ v = σ v) ∧
        Generalises (assumptions.subst σ) (t.bind (Leaf.under τ))
          (scheme.bind (Leaf.under σ)) := by
  rcases generalises with ⟨image, injective, rfl⟩
  rcases (assumptions.subst σ).exists_fresh with ⟨bound, above⟩
  have fresh : ∀ v, ¬(assumptions.subst σ).Mentions (bound + v) :=
    fun v mentions => Nat.not_lt_of_le (Nat.le_add_right bound v)
      (above _ mentions)
  let τ : TypePointer → Ty Leaf := fun v =>
    if assumptions.Mentions v then σ v else .leaf (.variable_ (bound + v))
  have bound_leaf : ∀ v, Leaf.variable_ v ∈ (t.bind (Leaf.under τ)).leaves →
      ¬(assumptions.subst σ).Mentions v →
      ∃ w, Leaf.variable_ w ∈ t.leaves ∧ ¬assumptions.Mentions w ∧
        v = bound + w := by
    intro v member notMentions
    rcases Ty.mem_leaves_bind.mp member with ⟨a, inside, here⟩
    rcases plainT a inside with ⟨w, rfl⟩
    by_cases mentions : assumptions.Mentions w
    · rw [Leaf.under, show τ w = σ w from if_pos mentions] at here
      exact absurd (mentions.subst here) notMentions
    · rw [Leaf.under,
        show τ w = .leaf (.variable_ (bound + w)) from if_neg mentions] at here
      cases List.mem_singleton.mp here
      exact ⟨w, inside, mentions, rfl⟩
  refine ⟨τ, ?_, fun v mentions => if_pos mentions,
    fun v => image (v - bound), ?_, ?_⟩
  · intro v
    change Ty.Plain (if assumptions.Mentions v then σ v else _)
    split
    · exact plainFor v
    · exact .variable_ _
  · intro v w inV inW freshV freshW same
    rcases bound_leaf v inV freshV with ⟨v, memberV, boundV, rfl⟩
    rcases bound_leaf w inW freshW with ⟨w, memberW, boundW, rfl⟩
    have images : image v = image w := by
      simpa only [Nat.add_sub_cancel_left] using same
    rw [injective v w memberV memberW boundV boundW images]
  · rw [Ty.bind_bind, Ty.bind_bind]
    apply Ty.bind_congr
    intro a member
    rcases plainT a member with ⟨v, rfl⟩
    by_cases mentions : assumptions.Mentions v
    · rw [Assumptions.close, if_pos mentions, Leaf.under,
        show τ v = σ v from if_pos mentions]
      apply Eq.trans (σ v).bind_leaf.symm
      apply Ty.bind_congr
      intro b inside
      rcases plainFor v b inside with ⟨w, rfl⟩
      exact (if_pos (mentions.subst inside)).symm
    · rw [Assumptions.close, if_neg mentions, Leaf.under,
        show τ v = .leaf (.variable_ (bound + v)) from if_neg mentions, Ty.bind,
        Ty.bind, Assumptions.close, if_neg (fresh v), Nat.add_sub_cancel_left]
      rfl

end Generalises

/-! ## Derivations -/

/-- What the operands and the result of a binary operator may be. -/
inductive OperatorTypes : TokenType → Ty Leaf → Ty Leaf → Prop where
  | arithmetic {operator : TokenType}
      (among : operator ∈ [.tokPlus, .tokMinus, .tokStar, .tokSlash]) :
      OperatorTypes operator .int .int
  | equality (t : Ty Leaf) : OperatorTypes .tokEquals t .bool

/-- The typing rules of the checker. -/
inductive Typing : Assumptions → Expression → Ty Leaf → Prop where
  | identifier {assumptions : Assumptions} {range : TokenRange} {id : Symbol}
      {scheme t : Ty Leaf} (found : assumptions.lookup id = some scheme)
      (admits : scheme.Admits t) : Typing assumptions (.identifier range id) t
  | apply {assumptions : Assumptions} {range : TokenRange}
      {function argument : Expression} {s t : Ty Leaf}
      (functionTyping : Typing assumptions function (.func s t))
      (argumentTyping : Typing assumptions argument s) :
      Typing assumptions (.apply range function argument) t
  | lambda {assumptions : Assumptions} {range : TokenRange} {id : Symbol}
      {body : Expression} {s t : Ty Leaf} (plain : s.Plain)
      (bodyTyping : Typing ((id, s) :: assumptions) body t) :
      Typing assumptions (.lambda range id body) (.func s t)
  | let_ {assumptions : Assumptions} {range : TokenRange} {id : Symbol}
      {value body : Expression} {s scheme t : Ty Leaf}
      (valueTyping : Typing assumptions value s)
      (generalises : Generalises assumptions s scheme)
      (bodyTyping : Typing ((id, scheme) :: assumptions) body t) :
      Typing assumptions (.let_ range id value body) t
  | letrec {assumptions : Assumptions} {range : TokenRange} {id : Symbol}
      {value body : Expression} {s scheme t : Ty Leaf} (plain : s.Plain)
      (valueTyping : Typing ((id, s) :: assumptions) value s)
      (generalises : Generalises assumptions s scheme)
      (bodyTyping : Typing ((id, scheme) :: assumptions) body t) :
      Typing assumptions (.letrec range id value body) t
  | if_ {assumptions : Assumptions} {range : TokenRange}
      {test thenArm elseArm : Expression} {t : Ty Leaf}
      (testTyping : Typing assumptions test .bool)
      (thenTyping : Typing assumptions thenArm t)
      (elseTyping : Typing assumptions elseArm t) :
      Typing assumptions (.if_ range test thenArm elseArm) t
  | binary {assumptions : Assumptions} {range : TokenRange}
      {operator : TokenType} {left right : Expression} {s t : Ty Leaf}
      (operatorTypes : OperatorTypes operator s t)
      (leftTyping : Typing assumptions left s)
      (rightTyping : Typing assumptions right s) :
      Typing assumptions (.binary range operator left right) t
  | unary {assumptions : Assumptions} {range : TokenRange}
      {operator : TokenType} {arg : Expression} {t : Ty Leaf}
      (argTyping : Typing assumptions arg t) :
      Typing assumptions (.unary range operator arg) t
  | tuple {assumptions : Assumptions} {range : TokenRange}
      {first rest : Expression} {length : Nat} {s t : Ty Leaf}
      (firstTyping : Typing assumptions first s)
      (restTyping : Typing assumptions rest t) :
      Typing assumptions (.tuple range first rest length) (.tuple s t)
  | tupleFinal {assumptions : Assumptions} {range : TokenRange}
      {first : Expression} {t : Ty Leaf}
      (firstTyping : Typing assumptions first t) :
      Typing assumptions (.tupleFinal range first) (.tupleFinal t)
  | integerConstant {assumptions : Assumptions} {range : TokenRange}
      {literalValue : UInt64} :
      Typing assumptions (.integerConstant range literalValue) .int
  | true_ {assumptions : Assumptions} {range : TokenRange} :
      Typing assumptions (.true_ range) .bool
  | false_ {assumptions : Assumptions} {range : TokenRange} :
      Typing assumptions (.false_ range) .bool

namespace Typing

variable {assumptions : Assumptions} {expression : Expression} {s t : Ty Leaf}

theorem plain (typing : Typing assumptions expression t) : t.Plain := by
  induction typing with
  | identifier _ admits => exact admits.1
  | apply _ _ functionIh => exact (Ty.Plain.func_iff.mp functionIh).2
  | lambda plain _ bodyIh => exact Ty.Plain.func_iff.mpr ⟨plain, bodyIh⟩
  | let_ _ _ _ _ bodyIh => exact bodyIh
  | letrec _ _ _ _ _ bodyIh => exact bodyIh
  | if_ _ _ _ _ thenIh => exact thenIh
  | binary operatorTypes =>
      cases operatorTypes with
      | arithmetic => exact .int
      | equality => exact .bool
  | unary _ argIh => exact argIh
  | tuple _ _ firstIh restIh => exact Ty.Plain.tuple_iff.mpr ⟨firstIh, restIh⟩
  | tupleFinal _ firstIh => exact firstIh
  | integerConstant => exact .int
  | true_ | false_ => exact .bool

/-- A derivation holds for every instance of the variables in it. -/
theorem subst (typing : Typing assumptions expression t)
    {σ : TypePointer → Ty Leaf} (plainFor : PlainFor (Leaf.under σ)) :
    Typing (assumptions.subst σ) expression (t.bind (Leaf.under σ)) := by
  induction typing generalizing σ with
  | identifier found admits =>
      refine .identifier ?_ (admits.subst plainFor)
      rw [Assumptions.lookup_subst, found]
      rfl
  | apply _ _ functionIh argumentIh =>
      exact .apply (functionIh plainFor) (argumentIh plainFor)
  | lambda plain _ bodyIh =>
      exact .lambda (plain.bind plainFor) (bodyIh plainFor)
  | let_ valueTyping generalises _ valueIh bodyIh =>
      rcases generalises.subst valueTyping.plain plainFor with
        ⟨τ, plainFor', same, generalises'⟩
      have value := valueIh plainFor'
      rw [Assumptions.subst_congr same] at value
      exact .let_ value generalises' (bodyIh plainFor)
  | @letrec assumptions range id value body s scheme t plain valueTyping
      generalises _ valueIh bodyIh =>
      rcases generalises.subst plain plainFor with
        ⟨τ, plainFor', same, generalises'⟩
      have value := valueIh plainFor'
      have inner : Assumptions.subst ((id, s) :: assumptions) τ =
          (id, s.bind (Leaf.under τ)) :: assumptions.subst τ := rfl
      rw [inner, Assumptions.subst_congr same] at value
      exact .letrec (plain.bind plainFor') value generalises' (bodyIh plainFor)
  | if_ _ _ _ testIh thenIh elseIh =>
      exact .if_ (testIh plainFor) (thenIh plainFor) (elseIh plainFor)
  | binary operatorTypes _ _ leftIh rightIh =>
      refine .binary ?_ (leftIh plainFor) (rightIh plainFor)
      cases operatorTypes with
      | arithmetic among => exact .arithmetic among
      | equality t => exact .equality _
  | unary _ argIh => exact .unary (argIh plainFor)
  | tuple _ _ firstIh restIh =>
      exact .tuple (firstIh plainFor) (restIh plainFor)
  | tupleFinal _ firstIh => exact .tupleFinal (firstIh plainFor)
  | integerConstant => exact .integerConstant
  | true_ => exact .true_
  | false_ => exact .false_

/-- Substitution keeps the derivation and the scheme of a let. -/
theorem subst_generalised (typing : Typing assumptions expression s)
    {scheme : Ty Leaf} (generalises : Generalises assumptions s scheme)
    {σ : TypePointer → Ty Leaf} (plainFor : PlainFor (Leaf.under σ)) :
    ∃ s', Typing (assumptions.subst σ) expression s' ∧
      Generalises (assumptions.subst σ) s' (scheme.bind (Leaf.under σ)) := by
  rcases generalises.subst typing.plain plainFor with
    ⟨τ, plainFor', same, generalises'⟩
  have typing' := typing.subst plainFor'
  rw [Assumptions.subst_congr same] at typing'
  exact ⟨_, typing', generalises'⟩

/-- And those of a let rec. -/
theorem subst_recursive {id : Symbol}
    (typing : Typing ((id, s) :: assumptions) expression s)
    {scheme : Ty Leaf} (generalises : Generalises assumptions s scheme)
    {σ : TypePointer → Ty Leaf} (plainFor : PlainFor (Leaf.under σ)) :
    ∃ s', s'.Plain ∧
      Typing ((id, s') :: assumptions.subst σ) expression s' ∧
      Generalises (assumptions.subst σ) s' (scheme.bind (Leaf.under σ)) := by
  rcases generalises.subst typing.plain plainFor with
    ⟨τ, plainFor', same, generalises'⟩
  have typing' := typing.subst plainFor'
  have inner : Assumptions.subst ((id, s) :: assumptions) τ =
      (id, s.bind (Leaf.under τ)) :: assumptions.subst τ := rfl
  rw [inner, Assumptions.subst_congr same] at typing'
  exact ⟨_, typing'.plain, typing', generalises'⟩

/-- A let-bound value has every instance of its scheme. -/
theorem instances (typing : Typing assumptions expression s)
    {scheme : Ty Leaf} (generalises : Generalises assumptions s scheme)
    (admits : scheme.Admits t) : Typing assumptions expression t := by
  rcases generalises.instances typing.plain admits with
    ⟨τ, plainFor, same, rfl⟩
  have typing' := typing.subst plainFor
  rwa [Assumptions.subst_self same] at typing'

/-- So has a let rec value, with that instance for its own name. -/
theorem instances_recursive {id : Symbol}
    (typing : Typing ((id, s) :: assumptions) expression s)
    {scheme : Ty Leaf} (generalises : Generalises assumptions s scheme)
    (admits : scheme.Admits t) :
    Typing ((id, t) :: assumptions) expression t := by
  rcases generalises.instances typing.plain admits with
    ⟨τ, plainFor, same, rfl⟩
  have typing' := typing.subst plainFor
  have inner : Assumptions.subst ((id, s) :: assumptions) τ =
      (id, s.bind (Leaf.under τ)) :: assumptions.subst τ := rfl
  rwa [inner, Assumptions.subst_self same] at typing'

end Typing

end Millie.Types
