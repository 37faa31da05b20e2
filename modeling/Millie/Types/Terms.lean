import Millie.Types.Graph
import Millie.Foundation.Links
import Millie.Foundation.Weakest

/-!
# Types as terms

A node of the type graph stands for the term that its instance and argument
links unfold to.  The links and the terms ignore the scratch field of variables,
which the operations on types use for marks and clear again.
-/

namespace Millie.Types

open Relation Links Weakest

/-! ## Terms -/

/-- A type over leaves. -/
inductive Ty (α : Type) where
  | leaf (a : α)
  | int
  | bool
  | func (fromType toType : Ty α)
  | tuple (first rest : Ty α)
  | tupleFinal (first : Ty α)
deriving DecidableEq

namespace Ty

variable {α β γ : Type}

/-- The leaves of a type. -/
def leaves : Ty α → List α
  | leaf a => [a]
  | int | bool => []
  | func first second | tuple first second => first.leaves ++ second.leaves
  | tupleFinal first => first.leaves

/-- Replace every leaf by a type. -/
def bind : Ty α → (α → Ty β) → Ty β
  | leaf a, image => image a
  | int, _ => int
  | bool, _ => bool
  | func first second, image => func (first.bind image) (second.bind image)
  | tuple first second, image => tuple (first.bind image) (second.bind image)
  | tupleFinal first, image => tupleFinal (first.bind image)

/-- The number of nodes of a type. -/
def size : Ty α → Nat
  | leaf _ | int | bool => 1
  | func first second | tuple first second => first.size + second.size + 1
  | tupleFinal first => first.size + 1

theorem bind_congr {type : Ty α} {first second : α → Ty β}
    (same : ∀ a ∈ type.leaves, first a = second a) :
    type.bind first = type.bind second := by
  induction type with
  | leaf a => exact same a (List.mem_singleton_self a)
  | int => rfl
  | bool => rfl
  | func left right leftIh rightIh | tuple left right leftIh rightIh =>
      rw [bind, bind,
        leftIh fun a member => same a (List.mem_append_left _ member),
        rightIh fun a member => same a (List.mem_append_right _ member)]
  | tupleFinal first firstIh =>
      rw [bind, bind, firstIh same]

theorem bind_leaf (type : Ty α) : type.bind leaf = type := by
  induction type with
  | leaf a => rfl
  | int => rfl
  | bool => rfl
  | func left right leftIh rightIh | tuple left right leftIh rightIh =>
      rw [bind, leftIh, rightIh]
  | tupleFinal first firstIh => rw [bind, firstIh]

theorem bind_bind (type : Ty α) (first : α → Ty β) (second : β → Ty γ) :
    (type.bind first).bind second =
      type.bind fun a => (first a).bind second := by
  induction type with
  | leaf a => rfl
  | int => rfl
  | bool => rfl
  | func left right leftIh rightIh | tuple left right leftIh rightIh =>
      rw [bind, bind, bind, leftIh, rightIh]
  | tupleFinal first firstIh => rw [bind, bind, bind, firstIh]

theorem mem_leaves_bind {type : Ty α} {image : α → Ty β} {b : β} :
    b ∈ (type.bind image).leaves ↔
      ∃ a ∈ type.leaves, b ∈ (image a).leaves := by
  induction type with
  | leaf a => simp [bind, leaves]
  | int => simp [bind, leaves]
  | bool => simp [bind, leaves]
  | func left right leftIh rightIh | tuple left right leftIh rightIh =>
      simp only [bind, leaves, List.mem_append, leftIh, rightIh]
      constructor
      · rintro (⟨a, member, inside⟩ | ⟨a, member, inside⟩)
        · exact ⟨a, .inl member, inside⟩
        · exact ⟨a, .inr member, inside⟩
      · rintro ⟨a, member | member, inside⟩
        · exact .inl ⟨a, member, inside⟩
        · exact .inr ⟨a, member, inside⟩
  | tupleFinal first firstIh => exact firstIh

end Ty

/-- A leaf of a type in the graph. -/
inductive Leaf where
  | variable_ (type : TypePointer)
  | generic (type : TypePointer)
  | error
deriving DecidableEq

/-! ## Shapes -/

/-- Whether a node's second union is scratch space. -/
def TypeExp.IsVariable (exp : TypeExp) : Prop :=
  exp.type = .variable_ ∨ exp.type = .genericVariable

/-- The links of a node are those of its type and stay in the graph. -/
inductive TypeExp.Shaped (size : Nat) : TypeExp → Prop where
  | unbound (scratch : Link) : Shaped size ⟨.variable_, none, scratch⟩
  | bound (scratch : Link) {q : TypePointer} (inside : q < size) :
      Shaped size ⟨.variable_, some q, scratch⟩
  | generic (scratch : Link) : Shaped size ⟨.genericVariable, none, scratch⟩
  | error : Shaped size ⟨.error, none, .null⟩
  | int : Shaped size ⟨.int, none, .null⟩
  | bool : Shaped size ⟨.bool, none, .null⟩
  | func {a b : TypePointer} (first : a < size) (second : b < size) :
      Shaped size ⟨.func, some a, .type b⟩
  | tuple {a b : TypePointer} (first : a < size) (second : b < size) :
      Shaped size ⟨.tuple, some a, .type b⟩
  | tupleFinal {a : TypePointer} (first : a < size) :
      Shaped size ⟨.tupleFinal, some a, .null⟩

theorem TypeExp.Shaped.mono {small large : Nat} {exp : TypeExp}
    (shaped : exp.Shaped small) (grows : small ≤ large) : exp.Shaped large := by
  cases shaped with
  | unbound scratch => exact .unbound scratch
  | bound scratch inside => exact .bound scratch (Nat.lt_of_lt_of_le inside grows)
  | generic scratch => exact .generic scratch
  | error => exact .error
  | int => exact .int
  | bool => exact .bool
  | func first second =>
      exact .func (Nat.lt_of_lt_of_le first grows)
        (Nat.lt_of_lt_of_le second grows)
  | tuple first second =>
      exact .tuple (Nat.lt_of_lt_of_le first grows)
        (Nat.lt_of_lt_of_le second grows)
  | tupleFinal first => exact .tupleFinal (Nat.lt_of_lt_of_le first grows)

theorem TypeExp.Shaped.link_lt {size : Nat} {exp : TypeExp}
    {q : TypePointer} (shaped : exp.Shaped size)
    (link : exp.first = some q ∨ ¬exp.IsVariable ∧ exp.second = .type q) :
    q < size := by
  cases shaped with
  | unbound scratch =>
      rcases link with first | ⟨plain, -⟩
      · cases first
      · exact absurd (.inl rfl) plain
  | bound scratch inside =>
      rcases link with first | ⟨plain, -⟩
      · cases first
        exact inside
      · exact absurd (.inl rfl) plain
  | generic scratch =>
      rcases link with first | ⟨plain, -⟩
      · cases first
      · exact absurd (.inr rfl) plain
  | error => rcases link with first | ⟨-, second⟩ <;> contradiction
  | int => rcases link with first | ⟨-, second⟩ <;> contradiction
  | bool => rcases link with first | ⟨-, second⟩ <;> contradiction
  | func inFirst inSecond | tuple inFirst inSecond =>
      rcases link with first | ⟨-, second⟩
      · cases first
        exact inFirst
      · cases second
        exact inSecond
  | tupleFinal inFirst =>
      rcases link with first | ⟨-, second⟩
      · cases first
        exact inFirst
      · cases second

namespace TypeGraph

/-- An instance or argument link. -/
def Link (graph : TypeGraph) (p q : TypePointer) : Prop :=
  (graph.nodes p).first = some q ∨
    ¬(graph.nodes p).IsVariable ∧ (graph.nodes p).second = .type q

/-- The links from a type lead to another. -/
abbrev Reaches (graph : TypeGraph) : TypePointer → TypePointer → Prop :=
  ReflTransGen graph.Link

/-- A variable with an instance. -/
def Bound (graph : TypeGraph) (p q : TypePointer) : Prop :=
  (graph.nodes p).type = .variable_ ∧ (graph.nodes p).first = some q

/-- A variable without an instance. -/
def Unbound (graph : TypeGraph) (p : TypePointer) : Prop :=
  (graph.nodes p).type = .variable_ ∧ (graph.nodes p).first = none

/-- Every node is shaped, and the static nodes are in place. -/
structure WellFormed (graph : TypeGraph) : Prop where
  size : 3 ≤ graph.size
  integer : graph.nodes integerTypeExp = ⟨.int, none, .null⟩
  boolean : graph.nodes booleanTypeExp = ⟨.bool, none, .null⟩
  error : graph.nodes errorTypeExp = ⟨.error, none, .null⟩
  shaped : ∀ p < graph.size, (graph.nodes p).Shaped graph.size
  onlyError : ∀ p < graph.size, (graph.nodes p).type = .error →
    p = errorTypeExp

/-- No variable carries a mark. -/
def Clean (graph : TypeGraph) : Prop :=
  ∀ p < graph.size, (graph.nodes p).IsVariable →
    (graph.nodes p).second = .null

theorem wellFormed_static : staticGraph.WellFormed where
  size := Nat.le_refl 3
  integer := rfl
  boolean := rfl
  error := rfl
  shaped p inside := by
    match p, inside with
    | 0, _ => exact .int
    | 1, _ => exact .bool
    | 2, _ => exact .error
  onlyError p inside isError := by
    match p, inside with
    | 0, _ => cases isError
    | 1, _ => cases isError
    | 2, _ => rfl

theorem clean_static : staticGraph.Clean := by
  intro p inside isVariable
  match p, inside with
  | 0, _ => rcases isVariable with type | type <;> cases type
  | 1, _ => rcases isVariable with type | type <;> cases type
  | 2, _ => rcases isVariable with type | type <;> cases type

namespace WellFormed

variable {graph : TypeGraph}

theorem link_lt (wellFormed : graph.WellFormed) {p q : TypePointer}
    (inside : p < graph.size) (link : graph.Link p q) : q < graph.size :=
  (wellFormed.shaped p inside).link_lt link

theorem reaches_lt (wellFormed : graph.WellFormed) {p q : TypePointer}
    (inside : p < graph.size) (path : graph.Reaches p q) : q < graph.size :=
  have closed : ∀ q r, graph.Link q r → q < graph.size → r < graph.size :=
    fun _ _ link here => wellFormed.link_lt here link
  Links.closed closed path inside

end WellFormed

end TypeGraph

/-! ## What a node stands for -/

/-- The term that the links of a node unfold to. -/
inductive Denotes (graph : TypeGraph) : TypePointer → Ty Leaf → Prop where
  | bound {p q : TypePointer} {scratch : Link} {t : Ty Leaf}
      (node : graph.nodes p = ⟨.variable_, some q, scratch⟩)
      (instance_ : Denotes graph q t) : Denotes graph p t
  | unbound {p : TypePointer} {scratch : Link}
      (node : graph.nodes p = ⟨.variable_, none, scratch⟩) :
      Denotes graph p (.leaf (.variable_ p))
  | generic {p : TypePointer} {scratch : Link}
      (node : graph.nodes p = ⟨.genericVariable, none, scratch⟩) :
      Denotes graph p (.leaf (.generic p))
  | error {p : TypePointer}
      (node : graph.nodes p = ⟨.error, none, .null⟩) :
      Denotes graph p (.leaf .error)
  | int {p : TypePointer} (node : graph.nodes p = ⟨.int, none, .null⟩) :
      Denotes graph p .int
  | bool {p : TypePointer} (node : graph.nodes p = ⟨.bool, none, .null⟩) :
      Denotes graph p .bool
  | func {p a b : TypePointer} {s t : Ty Leaf}
      (node : graph.nodes p = ⟨.func, some a, .type b⟩)
      (first : Denotes graph a s) (second : Denotes graph b t) :
      Denotes graph p (.func s t)
  | tuple {p a b : TypePointer} {s t : Ty Leaf}
      (node : graph.nodes p = ⟨.tuple, some a, .type b⟩)
      (first : Denotes graph a s) (second : Denotes graph b t) :
      Denotes graph p (.tuple s t)
  | tupleFinal {p a : TypePointer} {s : Ty Leaf}
      (node : graph.nodes p = ⟨.tupleFinal, some a, .null⟩)
      (first : Denotes graph a s) : Denotes graph p (.tupleFinal s)

namespace Denotes

variable {graph : TypeGraph}

/-- A node stands for at most one term. -/
theorem unique {p : TypePointer} {s t : Ty Leaf} (left : Denotes graph p s)
    (right : Denotes graph p t) : s = t := by
  induction left generalizing t with
  | bound node instance_ ih =>
      cases right <;> simp_all
      exact ih (by assumption)
  | unbound node => cases right <;> simp_all
  | generic node => cases right <;> simp_all
  | error node => cases right <;> simp_all
  | int node => cases right <;> simp_all
  | bool node => cases right <;> simp_all
  | func node first second firstIh secondIh =>
      cases right <;> simp_all
      exact ⟨firstIh (by assumption), secondIh (by assumption)⟩
  | tuple node first second firstIh secondIh =>
      cases right <;> simp_all
      exact ⟨firstIh (by assumption), secondIh (by assumption)⟩
  | tupleFinal node first firstIh =>
      cases right <;> simp_all
      exact firstIh (by assumption)

/-- A node that a type links to stands for a part of its term. -/
theorem link {p q : TypePointer} {t : Ty Leaf} (denotes : Denotes graph p t)
    (link : graph.Link p q) :
    ∃ s, Denotes graph q s ∧ s.leaves ⊆ t.leaves := by
  unfold TypeGraph.Link TypeExp.IsVariable at link
  cases denotes with
  | bound node instance_ =>
      rw [node] at link
      rcases link with first | ⟨plain, -⟩
      · cases first
        exact ⟨t, instance_, List.Subset.refl _⟩
      · exact absurd (.inl rfl) plain
  | unbound node | generic node =>
      rw [node] at link
      rcases link with first | ⟨plain, -⟩
      · cases first
      · exact absurd (by simp) plain
  | error node | int node | bool node =>
      rw [node] at link
      rcases link with first | ⟨-, second⟩ <;> contradiction
  | func node first second | tuple node first second =>
      rw [node] at link
      rcases link with isFirst | ⟨-, isSecond⟩
      · cases isFirst
        exact ⟨_, first, List.subset_append_left _ _⟩
      · cases isSecond
        exact ⟨_, second, List.subset_append_right _ _⟩
  | tupleFinal node first =>
      rw [node] at link
      rcases link with isFirst | ⟨-, isSecond⟩
      · cases isFirst
        exact ⟨_, first, List.Subset.refl _⟩
      · cases isSecond

/-- A node that a type reaches stands for a part of its term. -/
theorem reaches {p q : TypePointer} {t : Ty Leaf} (denotes : Denotes graph p t)
    (path : graph.Reaches p q) :
    ∃ s, Denotes graph q s ∧ s.leaves ⊆ t.leaves := by
  induction path with
  | refl => exact ⟨t, denotes, List.Subset.refl _⟩
  | tail _ last ih =>
      rcases ih with ⟨s, here, inside⟩
      rcases here.link last with ⟨r, next, smaller⟩
      exact ⟨r, next, List.Subset.trans smaller inside⟩

/-- The leaves of a term are nodes that the type reaches. -/
theorem leaf_reached {p : TypePointer} {t : Ty Leaf} {a : Leaf}
    (denotes : Denotes graph p t) (member : a ∈ t.leaves) :
    ∃ q, graph.Reaches p q ∧ Denotes graph q (.leaf a) := by
  induction denotes with
  | @bound p q scratch t node instance_ ih =>
      rcases ih member with ⟨r, path, here⟩
      exact ⟨r, .head (.inl (by rw [node])) path, here⟩
  | unbound node =>
      rw [List.mem_singleton.mp member]
      exact ⟨_, .refl, .unbound node⟩
  | generic node =>
      rw [List.mem_singleton.mp member]
      exact ⟨_, .refl, .generic node⟩
  | error node =>
      rw [List.mem_singleton.mp member]
      exact ⟨_, .refl, .error node⟩
  | int node => cases member
  | bool node => cases member
  | func node first second firstIh secondIh
  | tuple node first second firstIh secondIh =>
      rcases List.mem_append.mp member with inFirst | inSecond
      · rcases firstIh inFirst with ⟨r, path, here⟩
        exact ⟨r, .head (.inl (by rw [node])) path, here⟩
      · rcases secondIh inSecond with ⟨r, path, here⟩
        refine ⟨r, .head (.inr ⟨?_, by rw [node]⟩) path, here⟩
        simp [TypeExp.IsVariable, node]
  | tupleFinal node first firstIh =>
      rcases firstIh member with ⟨r, path, here⟩
      exact ⟨r, .head (.inl (by rw [node])) path, here⟩

theorem of_variable {p v : TypePointer}
    (denotes : Denotes graph p (.leaf (.variable_ v))) :
    graph.Reaches p v ∧ graph.Unbound v := by
  generalize same : Ty.leaf (Leaf.variable_ v) = t at denotes
  induction denotes with
  | bound node instance_ ih =>
      rcases ih same with ⟨path, unbound⟩
      exact ⟨.head (.inl (by rw [node])) path, unbound⟩
  | unbound node =>
      cases same
      exact ⟨.refl, by rw [node], by rw [node]⟩
  | _ => cases same

theorem of_generic {p v : TypePointer}
    (denotes : Denotes graph p (.leaf (.generic v))) :
    graph.Reaches p v ∧ (graph.nodes v).type = .genericVariable := by
  generalize same : Ty.leaf (Leaf.generic v) = t at denotes
  induction denotes with
  | bound node instance_ ih =>
      rcases ih same with ⟨path, generic⟩
      exact ⟨.head (.inl (by rw [node])) path, generic⟩
  | generic node =>
      cases same
      exact ⟨.refl, by rw [node]⟩
  | _ => cases same

/-- An unbound variable stands for itself. -/
theorem of_unbound {p : TypePointer} (unbound : graph.Unbound p) :
    Denotes graph p (.leaf (.variable_ p)) := by
  rcases unbound with ⟨type, first⟩
  cases node : graph.nodes p with
  | mk type' first' second' =>
      rw [node] at type first
      cases type
      cases first
      exact .unbound node

/-- The unbound variables that a type reaches are the variables of its term. -/
theorem mem_variables {p v : TypePointer} {t : Ty Leaf}
    (denotes : Denotes graph p t) :
    Leaf.variable_ v ∈ t.leaves ↔ graph.Reaches p v ∧ graph.Unbound v := by
  constructor
  · intro member
    rcases denotes.leaf_reached member with ⟨q, path, here⟩
    exact ⟨path.trans here.of_variable.1, here.of_variable.2⟩
  · rintro ⟨path, unbound⟩
    rcases denotes.reaches path with ⟨s, here, inside⟩
    rw [here.unique (of_unbound unbound)] at inside
    exact inside (List.mem_singleton_self _)

end Denotes

/-! ## Growth -/

/-- Two nodes agree up to the scratch field of a variable. -/
def TypeExp.Same (before after : TypeExp) : Prop :=
  after.type = before.type ∧ after.first = before.first ∧
    (before.IsVariable ∨ after.second = before.second)

namespace TypeExp.Same

theorem refl (exp : TypeExp) : exp.Same exp :=
  ⟨rfl, rfl, .inr rfl⟩

theorem isVariable {before after : TypeExp} (same : before.Same after) :
    after.IsVariable ↔ before.IsVariable := by
  unfold IsVariable
  rw [same.1]

theorem trans {first second third : TypeExp} (left : first.Same second)
    (right : second.Same third) : first.Same third := by
  refine ⟨right.1.trans left.1, right.2.1.trans left.2.1, ?_⟩
  rcases left.2.2 with isVariable | kept
  · exact .inl isVariable
  · rcases right.2.2 with isVariable | kept'
    · exact .inl (left.isVariable.mp isVariable)
    · exact .inr (kept'.trans kept)

/-- A node that agrees with a plain node is that node. -/
theorem eq {before after : TypeExp} (same : before.Same after)
    (plain : ¬before.IsVariable) : after = before := by
  rcases same with ⟨type, first, isVariable | second⟩
  · exact absurd isVariable plain
  · cases before
    cases after
    simp_all

theorem shaped {size : Nat} {before after : TypeExp}
    (same : before.Same after) (shaped : before.Shaped size) :
    after.Shaped size := by
  rcases after with ⟨type, first, second⟩
  cases shaped with
  | unbound scratch =>
      rcases same with ⟨rfl, rfl, -⟩
      exact .unbound second
  | bound scratch inside =>
      rcases same with ⟨rfl, rfl, -⟩
      exact .bound second inside
  | generic scratch =>
      rcases same with ⟨rfl, rfl, -⟩
      exact .generic second
  | error =>
      rw [same.eq (by simp [IsVariable])]
      exact .error
  | int =>
      rw [same.eq (by simp [IsVariable])]
      exact .int
  | bool =>
      rw [same.eq (by simp [IsVariable])]
      exact .bool
  | func inFirst inSecond =>
      rw [same.eq (by simp [IsVariable])]
      exact .func inFirst inSecond
  | tuple inFirst inSecond =>
      rw [same.eq (by simp [IsVariable])]
      exact .tuple inFirst inSecond
  | tupleFinal inFirst =>
      rw [same.eq (by simp [IsVariable])]
      exact .tupleFinal inFirst

end TypeExp.Same

/-- A later graph has more nodes, and agrees on the old ones. -/
structure TypeGraph.Allocates (before after : TypeGraph) : Prop where
  size : before.size ≤ after.size
  same : ∀ p < before.size, (before.nodes p).Same (after.nodes p)

namespace TypeGraph.Allocates

variable {before after : TypeGraph}

theorem refl (graph : TypeGraph) : graph.Allocates graph :=
  ⟨Nat.le_refl _, fun _ _ => .refl _⟩

theorem trans {first second third : TypeGraph}
    (left : first.Allocates second) (right : second.Allocates third) :
    first.Allocates third where
  size := Nat.le_trans left.size right.size
  same p inside := (left.same p inside).trans
    (right.same p (Nat.lt_of_lt_of_le inside left.size))

theorem link_iff (allocates : before.Allocates after) {p q : TypePointer}
    (inside : p < before.size) : after.Link p q ↔ before.Link p q := by
  have same := allocates.same p inside
  unfold Link
  rw [same.2.1, same.isVariable]
  rcases same.2.2 with isVariable | kept
  · simp [isVariable]
  · rw [kept]

theorem unbound_iff (allocates : before.Allocates after) {p : TypePointer}
    (inside : p < before.size) : after.Unbound p ↔ before.Unbound p := by
  have same := allocates.same p inside
  unfold Unbound
  rw [same.1, same.2.1]

theorem reaches_iff (allocates : before.Allocates after)
    (wellFormed : before.WellFormed) {p q : TypePointer}
    (inside : p < before.size) : after.Reaches p q ↔ before.Reaches p q := by
  constructor
  · intro path
    induction path using ReflTransGen.head_induction_on with
    | refl => exact .refl
    | head first _ ih =>
        have old := (allocates.link_iff inside).mp first
        exact .head old (ih (wellFormed.link_lt inside old))
  · intro path
    induction path using ReflTransGen.head_induction_on with
    | refl => exact .refl
    | head first _ ih =>
        exact .head ((allocates.link_iff inside).mpr first)
          (ih (wellFormed.link_lt inside first))

/-- A type keeps its term. -/
theorem denotes (allocates : before.Allocates after)
    (wellFormed : before.WellFormed) {p : TypePointer} {t : Ty Leaf}
    (inside : p < before.size) (denotes : Denotes before p t) :
    Denotes after p t := by
  induction denotes with
  | @bound p q scratch t node instance_ ih =>
      have same := allocates.same p inside
      have child := wellFormed.link_lt inside (.inl (by rw [node]))
      rw [node] at same
      have kept : after.nodes p = ⟨.variable_, some q, (after.nodes p).second⟩ := by
        cases left : after.nodes p
        simp_all [TypeExp.Same]
      exact .bound kept (ih child)
  | @unbound p scratch node =>
      have same := allocates.same p inside
      rw [node] at same
      have kept : after.nodes p = ⟨.variable_, none, (after.nodes p).second⟩ := by
        cases left : after.nodes p
        simp_all [TypeExp.Same]
      exact .unbound kept
  | @generic p scratch node =>
      have same := allocates.same p inside
      rw [node] at same
      have kept : after.nodes p = ⟨.genericVariable, none, (after.nodes p).second⟩ := by
        cases left : after.nodes p
        simp_all [TypeExp.Same]
      exact .generic kept
  | @error p node =>
      have same := (allocates.same p inside).eq (by simp [TypeExp.IsVariable, node])
      exact .error (same.trans node)
  | @int p node =>
      have same := (allocates.same p inside).eq (by simp [TypeExp.IsVariable, node])
      exact .int (same.trans node)
  | @bool p node =>
      have same := (allocates.same p inside).eq (by simp [TypeExp.IsVariable, node])
      exact .bool (same.trans node)
  | @func p a b s t node first second firstIh secondIh =>
      have same := (allocates.same p inside).eq (by simp [TypeExp.IsVariable, node])
      exact .func (same.trans node)
        (firstIh (wellFormed.link_lt inside (.inl (by rw [node]))))
        (secondIh (wellFormed.link_lt inside
          (.inr ⟨by simp [TypeExp.IsVariable, node], by rw [node]⟩)))
  | @tuple p a b s t node first second firstIh secondIh =>
      have same := (allocates.same p inside).eq (by simp [TypeExp.IsVariable, node])
      exact .tuple (same.trans node)
        (firstIh (wellFormed.link_lt inside (.inl (by rw [node]))))
        (secondIh (wellFormed.link_lt inside
          (.inr ⟨by simp [TypeExp.IsVariable, node], by rw [node]⟩)))
  | @tupleFinal p a s node first firstIh =>
      have same := (allocates.same p inside).eq (by simp [TypeExp.IsVariable, node])
      exact .tupleFinal (same.trans node)
        (firstIh (wellFormed.link_lt inside (.inl (by rw [node]))))

end TypeGraph.Allocates

end Millie.Types
