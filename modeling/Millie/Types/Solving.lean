import Millie.Foundation.Unification
import Millie.Types.Analysis

/-!
# What a unification solves

Types are terms, so a graph whose links fall along a rank gives every node a
term, and an instance for a variable is a substitution.  A unification that
reports nothing applies a most general unifier of the two terms to the whole
graph, and one that reports something had no unifier to find.
-/

namespace Millie.Types

open Relation Links Unification

/-! ## The monad of types -/

instance : Monad Ty where
  pure := Ty.leaf
  bind := Ty.bind

instance : LawfulMonad Ty :=
  LawfulMonad.mk' Ty Ty.bind_leaf (fun _ _ => rfl) Ty.bind_bind

/-- A type without errors and generic variables. -/
def Ty.Plain (type : Ty Leaf) : Prop :=
  ∀ a ∈ type.leaves, ∃ v, a = .variable_ v

/-- A substitution that introduces no error and no generic variable. -/
def PlainFor (σ : Leaf → Ty Leaf) : Prop :=
  ∀ v, (σ (.variable_ v)).Plain

theorem Ty.Plain.bind {type : Ty Leaf} {σ : Leaf → Ty Leaf}
    (plain : type.Plain) (plainFor : PlainFor σ) : (type.bind σ).Plain := by
  intro b member
  rcases Ty.mem_leaves_bind.mp member with ⟨a, inside, image⟩
  rcases plain a inside with ⟨v, rfl⟩
  exact plainFor v b image

theorem plainFor_leaf : PlainFor Ty.leaf := by
  intro v a member
  exact ⟨v, List.mem_singleton.mp member⟩

theorem PlainFor.comp {σ τ : Leaf → Ty Leaf} (first : PlainFor σ)
    (second : PlainFor τ) : PlainFor fun a => (σ a).bind τ :=
  fun v => (first v).bind second

theorem PlainFor.update {v : TypePointer} {t : Ty Leaf} (plain : t.Plain) :
    PlainFor (Function.update Ty.leaf (.variable_ v) t) := by
  intro w
  by_cases same : Leaf.variable_ w = .variable_ v
  · rw [same, Function.update_self]
    exact plain
  · rw [Function.update_of_ne same]
    exact plainFor_leaf w

/-! ## Terms of a graph -/

section

variable {graph middle after : TypeGraph} {a b p q : TypePointer}
  {s t u : Ty Leaf} {σ τ : Leaf → Ty Leaf}

/-- A type whose links fall along a rank stands for a term. -/
theorem RanksFrom.denotes {rank : TypePointer → Nat}
    (ranks : RanksFrom graph p rank) (wellFormed : graph.WellFormed)
    (inside : p < graph.size) : ∃ t, Denotes graph p t := by
  induction measure : rank p using Nat.strong_induction_on generalizing p with
  | _ n ih =>
      have next : ∀ q, graph.Link p q → ∃ t, Denotes graph q t := by
        intro q link
        have falls := ranks p q .refl link
        exact ih _ (measure ▸ falls) (ranks.reached (.single link))
          (wellFormed.link_lt inside link) rfl
      have shaped := wellFormed.shaped p inside
      generalize node : graph.nodes p = exp at shaped
      have plain : ¬exp.IsVariable → ¬(graph.nodes p).IsVariable := by
        rw [node]
        exact id
      cases shaped with
      | unbound scratch => exact ⟨_, .unbound node⟩
      | @bound scratch q _ =>
          rcases next q (.inl (by rw [node])) with ⟨t, instance_⟩
          exact ⟨t, .bound node instance_⟩
      | generic scratch => exact ⟨_, .generic node⟩
      | error => exact ⟨_, .error node⟩
      | int => exact ⟨_, .int node⟩
      | bool => exact ⟨_, .bool node⟩
      | @func a b _ _ =>
          rcases next a (.inl (by rw [node])) with ⟨s, first⟩
          rcases next b (.inr ⟨plain (by simp [TypeExp.IsVariable]),
            by rw [node]⟩) with ⟨t, second⟩
          exact ⟨_, .func node first second⟩
      | @tuple a b _ _ =>
          rcases next a (.inl (by rw [node])) with ⟨s, first⟩
          rcases next b (.inr ⟨plain (by simp [TypeExp.IsVariable]),
            by rw [node]⟩) with ⟨t, second⟩
          exact ⟨_, .tuple node first second⟩
      | @tupleFinal a _ =>
          rcases next a (.inl (by rw [node])) with ⟨s, first⟩
          exact ⟨_, .tupleFinal node first⟩

/-- In a ranked graph every node stands for a term. -/
theorem TypeGraph.Ranked.denotes (ranked : graph.Ranked)
    (wellFormed : graph.WellFormed) (inside : p < graph.size) :
    ∃ t, Denotes graph p t := by
  rcases ranked.ranksFrom wellFormed inside with ⟨rank, ranks⟩
  exact ranks.denotes wellFormed inside

/-- The terms of a graph after some variables have got instances. -/
def Resolves (graph after : TypeGraph) (σ : Leaf → Ty Leaf) : Prop :=
  ∀ p t, Denotes graph p t → Denotes after p (t.bind σ)

theorem Resolves.refl (graph : TypeGraph) : Resolves graph graph Ty.leaf := by
  intro p t denotes
  rw [Ty.bind_leaf]
  exact denotes

theorem Resolves.trans (first : Resolves graph middle σ)
    (second : Resolves middle after τ) :
    Resolves graph after fun a => (σ a).bind τ := by
  intro p t denotes
  rw [← Ty.bind_bind]
  exact second _ _ (first _ _ denotes)

/-- A type that does not lead to a variable keeps its term. -/
theorem Denotes.bind_apart (denotes : Denotes graph p t)
    (apart : ¬graph.Reaches p a) : Denotes (graph.bind a b) p t := by
  have other : ∀ {p q : TypePointer}, ¬graph.Reaches p a → graph.Link p q →
      ¬graph.Reaches q a := fun none link path => none (.head link path)
  have kept : ∀ {p : TypePointer}, ¬graph.Reaches p a →
      (graph.bind a b).nodes p = graph.nodes p := fun none =>
    TypeGraph.bind_old graph b fun same => none (same ▸ .refl)
  induction denotes with
  | bound node instance_ ih =>
      exact .bound ((kept apart).trans node)
        (ih (other apart (.inl (by rw [node]))))
  | unbound node => exact .unbound ((kept apart).trans node)
  | generic node => exact .generic ((kept apart).trans node)
  | error node => exact .error ((kept apart).trans node)
  | int node => exact .int ((kept apart).trans node)
  | bool node => exact .bool ((kept apart).trans node)
  | func node first second firstIh secondIh =>
      exact .func ((kept apart).trans node)
        (firstIh (other apart (.inl (by rw [node]))))
        (secondIh (other apart
          (.inr ⟨by rw [node]; simp [TypeExp.IsVariable], by rw [node]⟩)))
  | tuple node first second firstIh secondIh =>
      exact .tuple ((kept apart).trans node)
        (firstIh (other apart (.inl (by rw [node]))))
        (secondIh (other apart
          (.inr ⟨by rw [node]; simp [TypeExp.IsVariable], by rw [node]⟩)))
  | tupleFinal node first firstIh =>
      exact .tupleFinal ((kept apart).trans node)
        (firstIh (other apart (.inl (by rw [node]))))

/-- An instance for a variable replaces the variable in every term. -/
theorem resolves_bind (unbound : graph.Unbound a) (instance_ : Denotes graph b u)
    (apart : ¬graph.Reaches b a) :
    Resolves graph (graph.bind a b)
      (Function.update Ty.leaf (.variable_ a) u) := by
  have kept : ∀ {p : TypePointer}, p ≠ a →
      (graph.bind a b).nodes p = graph.nodes p := TypeGraph.bind_old graph b
  have plain : ∀ {p : TypePointer}, (graph.nodes p).type ≠ .variable_ →
      p ≠ a := by
    rintro p other rfl
    exact other unbound.1
  intro p t denotes
  induction denotes with
  | @bound p q scratch t node inner ih =>
      refine .bound ((kept ?_).trans node) ih
      rintro rfl
      rw [TypeGraph.Unbound, node] at unbound
      cases unbound.2
  | @unbound p scratch node =>
      by_cases same : p = a
      · subst same
        rw [Ty.bind, Function.update_self]
        have bound : (graph.bind p b).nodes p = ⟨.variable_, some b, scratch⟩ := by
          rw [TypeGraph.bind_node, node]
        exact .bound bound (instance_.bind_apart apart)
      · rw [Ty.bind, Function.update_of_ne fun leaf => same (Leaf.variable_.inj leaf)]
        exact .unbound ((kept same).trans node)
  | generic node => exact .generic ((kept (plain (by rw [node]; simp))).trans node)
  | error node => exact .error ((kept (plain (by rw [node]; simp))).trans node)
  | int node => exact .int ((kept (plain (by rw [node]; simp))).trans node)
  | bool node => exact .bool ((kept (plain (by rw [node]; simp))).trans node)
  | func node first second firstIh secondIh =>
      exact .func ((kept (plain (by rw [node]; simp))).trans node) firstIh
        secondIh
  | tuple node first second firstIh secondIh =>
      exact .tuple ((kept (plain (by rw [node]; simp))).trans node) firstIh
        secondIh
  | tupleFinal node first firstIh =>
      exact .tupleFinal ((kept (plain (by rw [node]; simp))).trans node) firstIh

end

/-! ## Terms without a unifier -/

/-- The kind of node that stands for a type. -/
def Ty.kind : Ty Leaf → TypeExpType
  | leaf a => a.type
  | int => .int
  | bool => .bool
  | func _ _ => .func
  | tuple _ _ => .tuple
  | tupleFinal _ => .tupleFinal

section

variable {graph : TypeGraph} {a b p q : TypePointer} {s t u : Ty Leaf}
  {θ : Leaf → Ty Leaf}

/-- A node that is no variable has the kind of its term. -/
theorem Denotes.kind_eq (denotes : Denotes graph p t)
    (noVariable : (graph.nodes p).type ≠ .variable_) :
    t.kind = (graph.nodes p).type := by
  cases denotes with
  | bound node | unbound node => exact absurd (by rw [node]) noVariable
  | generic node | error node | int node | bool node | func node
  | tuple node | tupleFinal node =>
      rw [node]
      rfl

/-- A plain term of another kind than a variable keeps its kind. -/
theorem Ty.Plain.kind_bind (plain : t.Plain)
    (noVariable : t.kind ≠ .variable_) : (t.bind θ).kind = t.kind := by
  cases t with
  | leaf a =>
      rcases plain a (List.mem_singleton_self a) with ⟨v, rfl⟩
      exact absurd rfl noVariable
  | int | bool | func | tuple | tupleFinal => rfl

/-- Two nodes of different kinds have no unifier. -/
theorem no_unifier_clash (left : Denotes graph p s) (right : Denotes graph q t)
    (plainS : s.Plain) (plainT : t.Plain)
    (noVariableP : (graph.nodes p).type ≠ .variable_)
    (noVariableQ : (graph.nodes q).type ≠ .variable_)
    (different : (graph.nodes p).type ≠ (graph.nodes q).type) :
    ¬Unifier θ s t := by
  have kindS := left.kind_eq noVariableP
  have kindT := right.kind_eq noVariableQ
  intro unifier
  apply different
  calc (graph.nodes p).type = s.kind := kindS.symm
    _ = (s.bind θ).kind :=
        (plainS.kind_bind (by rw [kindS]; exact noVariableP)).symm
    _ = (t.bind θ).kind := congrArg Ty.kind unifier
    _ = t.kind := plainT.kind_bind (by rw [kindT]; exact noVariableQ)
    _ = (graph.nodes q).type := kindT

/-- The image of a leaf is no larger than the image of a type that has it. -/
theorem Ty.size_image_le {a : Leaf} (member : a ∈ t.leaves) :
    (θ a).size ≤ (t.bind θ).size := by
  induction t with
  | leaf b =>
      rw [List.mem_singleton.mp member]
      exact Nat.le_refl _
  | int | bool => cases member
  | func first second firstIh secondIh | tuple first second firstIh secondIh =>
      simp only [Ty.bind, Ty.size]
      rcases List.mem_append.mp member with inFirst | inSecond
      · have := firstIh inFirst
        omega
      · have := secondIh inSecond
        omega
  | tupleFinal first firstIh =>
      simp only [Ty.bind, Ty.size]
      exact Nat.le_succ_of_le (firstIh member)

theorem Ty.size_image_lt {a : Leaf} (member : a ∈ t.leaves)
    (other : t ≠ .leaf a) : (θ a).size < (t.bind θ).size := by
  cases t with
  | leaf b => exact absurd (by rw [List.mem_singleton.mp member]) other
  | int | bool => cases member
  | func first second | tuple first second =>
      simp only [Ty.bind, Ty.size]
      rcases List.mem_append.mp member with inFirst | inSecond
      · have := Ty.size_image_le (θ := θ) inFirst
        omega
      · have := Ty.size_image_le (θ := θ) inSecond
        omega
  | tupleFinal first =>
      simp only [Ty.bind, Ty.size]
      exact Nat.lt_succ_of_le (Ty.size_image_le member)

/-- A pruned type that stands for a variable is that variable. -/
theorem Denotes.variable_pruned
    (denotes : Denotes graph b (.leaf (.variable_ a)))
    (pruned : ∀ r, ¬graph.Bound b r) : b = a := by
  cases denotes with
  | bound node instance_ =>
      exact absurd ⟨by rw [node], by rw [node]⟩ (pruned _)
  | unbound node => rfl

/-- A variable and a larger term with the variable in it have no unifier. -/
theorem no_unifier_recursive (denotes : Denotes graph b u)
    (unbound : graph.Unbound a) (distinct : a ≠ b)
    (pruned : ∀ r, ¬graph.Bound b r) (contained : graph.Reaches b a) :
    ¬Unifier θ (.leaf (.variable_ a)) u := by
  have member : Leaf.variable_ a ∈ u.leaves :=
    denotes.mem_variables.mpr ⟨contained, unbound⟩
  have other : u ≠ .leaf (.variable_ a) := by
    rintro rfl
    exact distinct (denotes.variable_pruned pruned).symm
  intro unifier
  have larger := Ty.size_image_lt (θ := θ) member other
  have same : θ (.variable_ a) = u.bind θ := unifier
  rw [← same] at larger
  exact Nat.lt_irrefl _ larger

end

/-! ## Terms with two arguments -/

namespace Joins

variable {kind : TypeExpType} {join : Ty Leaf → Ty Leaf → Ty Leaf}
  {graph : TypeGraph} {p a b : TypePointer} {s t s' t' : Ty Leaf}

/-- What a node with two arguments stands for. -/
theorem of_denotes (joins : Joins kind join)
    (node : graph.nodes p = ⟨kind, some a, .type b⟩)
    (denotes : Denotes graph p t) :
    ∃ first second, t = join first second ∧ Denotes graph a first ∧
      Denotes graph b second := by
  cases joins with
  | func | tuple =>
      cases denotes <;> simp_all

theorem unifier_iff (joins : Joins kind join) {θ : Leaf → Ty Leaf} :
    Unifier θ (join s t) (join s' t') ↔ Unifier θ s s' ∧ Unifier θ t t' := by
  cases joins with
  | func => exact Ty.func.injEq _ _ _ _ ▸ Iff.rfl
  | tuple => exact Ty.tuple.injEq _ _ _ _ ▸ Iff.rfl

theorem plain_iff (joins : Joins kind join) :
    (join s t).Plain ↔ s.Plain ∧ t.Plain := by
  unfold Ty.Plain
  rw [joins.leaves]
  exact List.forall_mem_append

end Joins

/-! ## The result of a unification -/

/-- A unification finds a most general unifier, or reports that there is none. -/
inductive Solved (s t : Ty Leaf) (graph after : TypeGraph) :
    List TypeGraph → Prop where
  | unifier (σ : Leaf → Ty Leaf)
      (mostGeneral : MostGeneral σ (Unifier · s t))
      (resolves : Resolves graph after σ) (plainFor : PlainFor σ) :
      Solved s t graph after []
  | none {moments : List TypeGraph} (failed : moments ≠ [])
      (noUnifier : ∀ θ, ¬Unifier θ s t) : Solved s t graph after moments

namespace Solved

variable {graph middle after : TypeGraph} {s t s' t' : Ty Leaf}
  {moments first second : List TypeGraph} {a b p q : TypePointer}

/-- The same terms are unified already. -/
theorem same (graph : TypeGraph) (s : Ty Leaf) :
    Solved s s graph graph [] :=
  .unifier _ (.trivial fun _ => rfl) (.refl graph) plainFor_leaf

theorem symm (solved : Solved s t graph after moments) :
    Solved t s graph after moments := by
  cases solved with
  | unifier σ mostGeneral resolves plainFor =>
      exact .unifier σ (mostGeneral.congr fun _ => ⟨.symm, .symm⟩) resolves
        plainFor
  | none failed noUnifier =>
      exact .none failed fun θ unifier => noUnifier θ unifier.symm

/-- A variable that a type does not lead to gets the type as its instance. -/
theorem bind (unbound : graph.Unbound a) (instance_ : Denotes graph b t)
    (plain : t.Plain) (apart : ¬graph.Reaches b a) :
    Solved (.leaf (.variable_ a)) t graph (graph.bind a b) [] := by
  have absent : Leaf.variable_ a ∉ t.leaves := fun member =>
    apart (instance_.mem_variables.mp member).1
  have fixed : t.bind (Function.update Ty.leaf (.variable_ a) t) = t := by
    calc t.bind (Function.update Ty.leaf (.variable_ a) t)
        = t.bind Ty.leaf := Ty.bind_congr fun b member =>
          Function.update_of_ne (ne_of_mem_of_not_mem member absent) _ _
      _ = t := Ty.bind_leaf t
  exact .unifier _ (.single fixed) (resolves_bind unbound instance_ apart)
    (.update plain)

/-- First one pair of arguments, then the other as the first has left it. -/
theorem both {kind : TypeExpType} {join : Ty Leaf → Ty Leaf → Ty Leaf}
    (joins : Joins kind join) (firsts : Solved s t graph middle first)
    (seconds : ∀ σ, first = [] → Resolves graph middle σ → PlainFor σ →
      Solved (s'.bind σ) (t'.bind σ) middle after second) :
    Solved (join s s') (join t t') graph after (first ++ second) := by
  cases firsts with
  | none failed noUnifier =>
      exact .none (List.append_ne_nil_of_left_ne_nil failed _) fun θ unifier =>
        noUnifier θ (joins.unifier_iff.mp unifier).1
  | unifier σ mostGeneral resolves plainFor =>
      cases seconds σ rfl resolves plainFor with
      | none failed noUnifier =>
          exact .none failed fun θ unifier =>
            no_unifier_comp mostGeneral noUnifier θ
              (joins.unifier_iff.mp unifier)
      | unifier τ mostGeneral' resolves' plainFor' =>
          refine .unifier _ ?_ (resolves.trans resolves')
            (plainFor.comp plainFor')
          exact (mostGeneral.comp mostGeneral').congr fun _ =>
            joins.unifier_iff

theorem final (firsts : Solved s t graph after moments) :
    Solved (.tupleFinal s) (.tupleFinal t) graph after moments := by
  have same : ∀ θ, Unifier θ (.tupleFinal s) (.tupleFinal t) ↔
      Unifier θ s t := fun _ =>
    ⟨Ty.tupleFinal.inj, congrArg Ty.tupleFinal⟩
  cases firsts with
  | unifier σ mostGeneral resolves plainFor =>
      exact .unifier σ (mostGeneral.congr same) resolves plainFor
  | none failed noUnifier =>
      exact .none failed fun θ unifier => noUnifier θ ((same θ).mp unifier)

end Solved

/-- Unification solves the equation of the two terms. -/
theorem Unifies.solved {graph after : TypeGraph} {p q : TypePointer}
    {moments : List TypeGraph} (unifies : Unifies graph p q moments after)
    {s t : Ty Leaf} (left : Denotes graph p s) (right : Denotes graph q t)
    (plainS : s.Plain) (plainT : t.Plain) :
    Solved s t graph after moments := by
  induction unifies generalizing s t with
  | prunes first second pruned ih =>
      exact ih (first.denotes_iff.mp left) (second.denotes_iff.mp right) plainS
        plainT
  | bails isError =>
      have never : ∀ {graph p s}, Denotes graph p s → s.Plain →
          (graph.nodes p).type ≠ .error := by
        intro graph p s denotes plain isError
        have kind := denotes.kind_eq (by rw [isError]; exact nofun)
        rw [isError] at kind
        cases s <;> try cases kind
        rcases plain _ (List.mem_singleton_self _) with ⟨v, rfl⟩
        cases kind
      rcases isError with isError | isError
      · exact absurd isError (never left plainS)
      · exact absurd isError (never right plainT)
  | same unbound =>
      rw [left.unique right]
      exact .same _ _
  | @recursive graph p q a b oriented unbound distinct pruned contained =>
      have none : ∀ {u}, Denotes graph b u → ∀ θ,
          ¬Unifier θ (.leaf (.variable_ a)) u := fun denotes θ =>
        no_unifier_recursive denotes unbound distinct pruned contained
      rcases oriented.either with ⟨rfl, rfl⟩ | ⟨rfl, rfl⟩
      · rw [left.unique (.of_unbound unbound)]
        exact .none (List.cons_ne_nil _ _) (none right)
      · rw [right.unique (.of_unbound unbound)]
        exact .none (List.cons_ne_nil _ _) fun θ unifier =>
          none left θ unifier.symm
  | binds oriented unbound noError pruned apart =>
      rcases oriented.either with ⟨rfl, rfl⟩ | ⟨rfl, rfl⟩
      · rw [left.unique (.of_unbound unbound)]
        exact .bind unbound right plainT apart
      · rw [right.unique (.of_unbound unbound)]
        exact (Solved.bind unbound left plainS apart).symm
  | clash noVariableP noVariableQ noErrors different =>
      exact .none (List.cons_ne_nil _ _) fun θ =>
        no_unifier_clash left right plainS plainT noVariableP noVariableQ
          different
  | @leaves graph p q type sameType =>
      have kinds : ∀ {graph p s}, Denotes graph p s → s.Plain →
          (graph.nodes p).type = .int ∨ (graph.nodes p).type = .bool ∨
            (graph.nodes p).type = .genericVariable →
          s = .int ∧ (graph.nodes p).type = .int ∨
            s = .bool ∧ (graph.nodes p).type = .bool := by
        intro graph p s denotes plain type
        have kind := denotes.kind_eq (by
          rcases type with type | type | type <;> rw [type] <;> exact nofun)
        cases s with
        | leaf a =>
            rcases plain a (List.mem_singleton_self a) with ⟨v, rfl⟩
            rw [← kind] at type
            simp [Ty.kind, Leaf.type] at type
        | int => exact .inl ⟨rfl, kind.symm⟩
        | bool => exact .inr ⟨rfl, kind.symm⟩
        | func | tuple | tupleFinal =>
            rw [← kind] at type
            simp [Ty.kind] at type
      have equal : s = t := by
        rcases kinds left plainS type with ⟨rfl, kindP⟩ | ⟨rfl, kindP⟩
        · rcases kinds right plainT (sameType ▸ type) with
            ⟨rfl, -⟩ | ⟨-, kindQ⟩
          · rfl
          · rw [← sameType, kindP] at kindQ
            cases kindQ
        · rcases kinds right plainT (sameType ▸ type) with
            ⟨-, kindQ⟩ | ⟨rfl, -⟩
          · rw [← sameType, kindP] at kindQ
            cases kindQ
          · rfl
      rw [equal]
      exact .same _ _
  | both joins nodeP nodeQ firsts seconds firstIh secondIh =>
      rcases joins.of_denotes nodeP left with ⟨s₁, s₂, rfl, leftFirst, leftSecond⟩
      rcases joins.of_denotes nodeQ right with
        ⟨t₁, t₂, rfl, rightFirst, rightSecond⟩
      rcases joins.plain_iff.mp plainS with ⟨plainS₁, plainS₂⟩
      rcases joins.plain_iff.mp plainT with ⟨plainT₁, plainT₂⟩
      refine .both joins (firstIh leftFirst rightFirst plainS₁ plainT₁) ?_
      intro σ _ resolves plainFor
      exact secondIh (resolves _ _ leftSecond) (resolves _ _ rightSecond)
        (plainS₂.bind plainFor) (plainT₂.bind plainFor)
  | final nodeP nodeQ firsts ih =>
      cases left <;> simp_all
      cases right <;> simp_all
      exact .final (ih (by assumption) (by assumption) plainS plainT)

end Millie.Types
