import Millie.Types.Terms
import Mathlib.Data.Set.Insert

/-!
# Following links

What pruning, the containment search and the clean-up of a type compute, and
that a rank bounds the fuel they take.
-/

namespace Millie.Types

open Relation Links Weakest

/-! ## Single steps -/

namespace TypeGraph

/-- A graph with one more node. -/
def add (graph : TypeGraph) (contents : TypeExp) : TypeGraph :=
  ⟨Function.update graph.nodes graph.size contents, graph.size + 1⟩

/-- A graph in which a variable's scratch field is set. -/
def mark (graph : TypeGraph) (v : TypePointer) (other : Types.Link) : TypeGraph :=
  { graph with
    nodes := Function.update graph.nodes v
      { graph.nodes v with second := other } }

/-- A graph in which a variable has an instance. -/
def bind (graph : TypeGraph) (v instance_ : TypePointer) : TypeGraph :=
  { graph with
    nodes := Function.update graph.nodes v
      { graph.nodes v with first := some instance_ } }

@[simp]
theorem add_size (graph : TypeGraph) (contents : TypeExp) :
    (graph.add contents).size = graph.size + 1 :=
  rfl

@[simp]
theorem mark_size (graph : TypeGraph) (v : TypePointer) (other : Types.Link) :
    (graph.mark v other).size = graph.size :=
  rfl

@[simp]
theorem bind_size (graph : TypeGraph) (v instance_ : TypePointer) :
    (graph.bind v instance_).size = graph.size :=
  rfl

theorem add_node (graph : TypeGraph) (contents : TypeExp) :
    (graph.add contents).nodes graph.size = contents :=
  Function.update_self ..

theorem add_old (graph : TypeGraph) (contents : TypeExp) {p : TypePointer}
    (inside : p < graph.size) : (graph.add contents).nodes p = graph.nodes p :=
  Function.update_of_ne (Nat.ne_of_lt inside) ..

theorem mark_node (graph : TypeGraph) (v : TypePointer) (other : Types.Link) :
    (graph.mark v other).nodes v = { graph.nodes v with second := other } :=
  Function.update_self ..

theorem mark_old (graph : TypeGraph) {v p : TypePointer} (other : Types.Link)
    (distinct : p ≠ v) : (graph.mark v other).nodes p = graph.nodes p :=
  Function.update_of_ne distinct ..

theorem bind_node (graph : TypeGraph) (v instance_ : TypePointer) :
    (graph.bind v instance_).nodes v =
      { graph.nodes v with first := some instance_ } :=
  Function.update_self ..

theorem bind_old (graph : TypeGraph) {v p : TypePointer}
    (instance_ : TypePointer) (distinct : p ≠ v) :
    (graph.bind v instance_).nodes p = graph.nodes p :=
  Function.update_of_ne distinct ..

/-- The instance is the only new link. -/
theorem bind_link (graph : TypeGraph) (v instance_ p q : TypePointer)
    (link : (graph.bind v instance_).Link p q) : graph.Link p q ∨ p = v := by
  by_cases here : p = v
  · exact .inr here
  · rw [Link, bind_old graph instance_ here] at link
    exact .inl link

/-- Changing scratch fields keeps a graph well formed. -/
theorem WellFormed.same {before after : TypeGraph}
    (wellFormed : before.WellFormed) (size : after.size = before.size)
    (same : ∀ v, (before.nodes v).Same (after.nodes v)) :
    after.WellFormed where
  size := size ▸ wellFormed.size
  integer := by
    have kept := same integerTypeExp
    rw [wellFormed.integer] at kept
    exact kept.eq (by simp [TypeExp.IsVariable])
  boolean := by
    have kept := same booleanTypeExp
    rw [wellFormed.boolean] at kept
    exact kept.eq (by simp [TypeExp.IsVariable])
  error := by
    have kept := same errorTypeExp
    rw [wellFormed.error] at kept
    exact kept.eq (by simp [TypeExp.IsVariable])
  shaped v inside := by
    rw [size] at inside ⊢
    exact (same v).shaped (wellFormed.shaped v inside)
  onlyError v inside isError := by
    rw [size] at inside
    exact wellFormed.onlyError v inside ((same v).1.symm.trans isError)

theorem mark_same {graph : TypeGraph} {v : TypePointer}
    (isVariable : (graph.nodes v).IsVariable) (other : Types.Link)
    (p : TypePointer) :
    (graph.nodes p).Same ((graph.mark v other).nodes p) := by
  by_cases same : p = v
  · rw [same, mark_node]
    exact ⟨rfl, rfl, .inl isVariable⟩
  · rw [mark_old graph other same]
    exact .refl _

theorem mark_allocates {graph : TypeGraph} {v : TypePointer}
    (isVariable : (graph.nodes v).IsVariable) (other : Types.Link) :
    graph.Allocates (graph.mark v other) :=
  ⟨Nat.le_refl _, fun p _ => mark_same isVariable other p⟩

theorem mark_wellFormed {graph : TypeGraph} (wellFormed : graph.WellFormed)
    {v : TypePointer} (isVariable : (graph.nodes v).IsVariable)
    (other : Types.Link) : (graph.mark v other).WellFormed :=
  wellFormed.same rfl (mark_same isVariable other)

theorem add_allocates (graph : TypeGraph) (contents : TypeExp) :
    graph.Allocates (graph.add contents) :=
  ⟨Nat.le_succ _, fun p inside => by
    rw [add_old graph contents inside]
    exact .refl _⟩

theorem add_wellFormed {graph : TypeGraph} (wellFormed : graph.WellFormed)
    {contents : TypeExp} (shaped : contents.Shaped graph.size)
    (noError : contents.type ≠ .error) : (graph.add contents).WellFormed where
  size := Nat.le_succ_of_le wellFormed.size
  integer := by
    rw [add_old graph contents (Nat.lt_of_lt_of_le (by decide) wellFormed.size)]
    exact wellFormed.integer
  boolean := by
    rw [add_old graph contents (Nat.lt_of_lt_of_le (by decide) wellFormed.size)]
    exact wellFormed.boolean
  error := by
    rw [add_old graph contents (Nat.lt_of_lt_of_le (by decide) wellFormed.size)]
    exact wellFormed.error
  shaped p inside := by
    rcases Nat.lt_succ_iff_lt_or_eq.mp inside with old | rfl
    · rw [add_old graph contents old]
      exact (wellFormed.shaped p old).mono (Nat.le_succ _)
    · rw [add_node]
      exact shaped.mono (Nat.le_succ _)
  onlyError p inside isError := by
    rcases Nat.lt_succ_iff_lt_or_eq.mp inside with old | rfl
    · rw [add_old graph contents old] at isError
      exact wellFormed.onlyError p old isError
    · rw [add_node] at isError
      exact absurd isError noError

theorem bind_wellFormed {graph : TypeGraph} (wellFormed : graph.WellFormed)
    {a b : TypePointer} (isVariable : (graph.nodes a).type = .variable_)
    (inside : b < graph.size) : (graph.bind a b).WellFormed := by
  have other : ∀ {p exp}, graph.nodes p = exp → exp.type ≠ .variable_ →
      (graph.bind a b).nodes p = exp := by
    rintro p exp node plain
    have distinct : p ≠ a := by
      rintro rfl
      exact plain (node ▸ isVariable)
    rw [bind_old graph b distinct, node]
  constructor
  · exact wellFormed.size
  · exact other wellFormed.integer nofun
  · exact other wellFormed.boolean nofun
  · exact other wellFormed.error nofun
  · intro p below
    by_cases here : p = a
    · subst here
      rw [bind_node]
      dsimp only
      rw [isVariable]
      exact .bound _ inside
    · rw [bind_old graph b here]
      exact wellFormed.shaped p below
  · intro p below isError
    by_cases here : p = a
    · subst here
      rw [bind_node] at isError
      exact absurd (isVariable.symm.trans isError) nofun
    · rw [bind_old graph b here] at isError
      exact wellFormed.onlyError p below isError

end TypeGraph

section

variable {fail : Stop → Prop} {graph : TypeGraph}

@[simp]
theorem wp_node (type : TypePointer) (post : TypeExp → TypeGraph → Prop) :
    wpExcept fail (node type) post graph ↔ post (graph.nodes type) graph :=
  Iff.rfl

@[simp]
theorem wp_allocate (contents : TypeExp)
    (post : TypePointer → TypeGraph → Prop) :
    wpExcept fail (allocate contents) post graph ↔
      post graph.size (graph.add contents) :=
  Iff.rfl

@[simp]
theorem wp_setVarTempOther (type : TypePointer) (other : Link)
    (post : Unit → TypeGraph → Prop) :
    wpExcept fail (setVarTempOther type other) post graph ↔
      post () (graph.mark type other) :=
  Iff.rfl

end

/-- A rank of the nodes that a type reaches. -/
def RanksFrom (graph : TypeGraph) (p : TypePointer)
    (rank : TypePointer → Nat) : Prop :=
  ∀ r s, graph.Reaches p r → graph.Link r s → rank s < rank r

namespace RanksFrom

variable {graph : TypeGraph} {p q : TypePointer} {rank : TypePointer → Nat}

theorem reached (ranks : RanksFrom graph p rank) (path : graph.Reaches p q) :
    RanksFrom graph q rank :=
  fun r s further => ranks r s (path.trans further)

theorem le (ranks : RanksFrom graph p rank) (path : graph.Reaches p q) :
    rank q ≤ rank p := by
  induction path with
  | refl => exact Nat.le_refl _
  | tail path last ih =>
      exact Nat.le_trans (Nat.le_of_lt (ranks _ _ path last)) ih

/-- A rank serves every graph with the same links behind the type. -/
theorem congr {other : TypeGraph} (ranks : RanksFrom graph p rank)
    (reaches : ∀ r, other.Reaches p r → graph.Reaches p r)
    (links : ∀ r s, graph.Reaches p r → other.Link r s → graph.Link r s) :
    RanksFrom other p rank :=
  fun r s path link =>
    ranks r s (reaches r path) (links r s (reaches r path) link)

end RanksFrom

/-- The only reason to stop is fuel below what every rank allows. -/
def Starved (graph : TypeGraph) (fuel : Nat) (p : TypePointer) :
    Stop → Prop := fun reason =>
  reason = .outOfFuel ∧ ∀ rank, RanksFrom graph p rank → fuel ≤ rank p

/-! ## Pruning -/

/-- `q` is where the instances that start at `p` end. -/
structure Prunes (graph : TypeGraph) (p q : TypePointer) : Prop where
  path : ReflTransGen graph.Bound p q
  ended : ∀ r, ¬graph.Bound q r

theorem TypeGraph.Bound.link {graph : TypeGraph} {p q : TypePointer}
    (bound : graph.Bound p q) : graph.Link p q :=
  .inl bound.2

namespace Prunes

variable {graph : TypeGraph} {p q : TypePointer}

theorem reaches (prunes : Prunes graph p q) : graph.Reaches p q :=
  ReflTransGen.mono (fun _ _ => TypeGraph.Bound.link) _ _ prunes.path

theorem denotes_iff (prunes : Prunes graph p q) {t : Ty Leaf} :
    Denotes graph p t ↔ Denotes graph q t := by
  rcases prunes with ⟨path, -⟩
  induction path using ReflTransGen.head_induction_on with
  | refl => rfl
  | @head p r first _ ih =>
      rw [← ih]
      rcases first with ⟨type, instance_⟩
      cases node : graph.nodes p with
      | mk type' first' second' =>
          rw [node] at type instance_
          cases type
          cases instance_
          constructor
          · intro denotes
            cases denotes <;> simp_all
          · exact .bound node

/-- A pruned variable has no instance. -/
theorem unbound (prunes : Prunes graph p q)
    (variable_ : (graph.nodes q).type = .variable_) : graph.Unbound q := by
  cases first : (graph.nodes q).first with
  | none => exact ⟨variable_, first⟩
  | some r => exact absurd ⟨variable_, first⟩ (prunes.ended r)

end Prunes

theorem pruneTypeExp_spec (fuel : Nat) (p : TypePointer)
    (graph : TypeGraph) :
    wpExcept (Starved graph fuel p) (pruneTypeExp fuel p)
      (fun q after => after = graph ∧ Prunes graph p q) graph := by
  induction fuel generalizing p with
  | zero => exact ⟨rfl, fun rank _ => Nat.zero_le _⟩
  | succ fuel ih =>
      rw [pruneTypeExp, wpExcept_bind, wp_node]
      split
      · rename_i q type instance_
        have bound : graph.Bound p q := ⟨type, instance_⟩
        apply wpExcept_mono (ih q)
        · rintro r after ⟨same, prunes⟩
          exact ⟨same, .head bound prunes.path, prunes.ended⟩
        · rintro stop ⟨isFuel, least⟩
          refine ⟨isFuel, fun rank ranks => ?_⟩
          have inner := ranks.reached (.single bound.link)
          exact Nat.lt_of_le_of_lt (least rank inner)
            (ranks _ _ .refl bound.link)
      · rename_i other
        refine ⟨rfl, .refl, ?_⟩
        rintro q ⟨type, instance_⟩
        exact other q type instance_

/-- A rank behind a type still serves when the graph has grown. -/
theorem TypeGraph.Allocates.ranksFrom {before after : TypeGraph}
    (allocates : before.Allocates after) (wellFormed : before.WellFormed)
    {p : TypePointer} (inside : p < before.size)
    {rank : TypePointer → Nat} (ranks : RanksFrom before p rank) :
    RanksFrom after p rank := by
  apply ranks.congr
  · exact fun r => (allocates.reaches_iff wellFormed inside).mp
  · exact fun r s path =>
      (allocates.link_iff (wellFormed.reaches_lt inside path)).mp

/-- Pruning ends at the same node in a graph that has grown. -/
theorem TypeGraph.Allocates.prunes {before after : TypeGraph}
    (allocates : before.Allocates after) (wellFormed : before.WellFormed)
    {p q : TypePointer} (inside : p < before.size)
    (prunes : Prunes after p q) : Prunes before p q := by
  have old : ∀ {r s}, r < before.size →
      (after.Bound r s ↔ before.Bound r s) := by
    intro r s below
    have same := allocates.same r below
    rw [TypeGraph.Bound, TypeGraph.Bound, same.1, same.2.1]
  rcases prunes with ⟨path, ended⟩
  induction path using ReflTransGen.head_induction_on with
  | refl => exact ⟨.refl, fun r bound => ended r ((old inside).mpr bound)⟩
  | head first _ ih =>
      have bound := (old inside).mp first
      have rest := ih (wellFormed.link_lt inside bound.link)
      exact ⟨.head bound rest.path, rest.ended⟩

/-! ## The containment search -/

/-- A node without links or marks that is not `a`. -/
def TypeGraph.DeadEnd (graph : TypeGraph) (a q : TypePointer) : Prop :=
  q ≠ a ∧ (graph.nodes q).first = none ∧ (graph.nodes q).second = .null

/--
What the containment search finds in the scratch fields on its way: nothing, or
without an instance the variable itself or a dead end.
-/
def TypeGraph.Searchable (graph : TypeGraph) (a : TypePointer) : Prop :=
  ∀ v < graph.size, (graph.nodes v).IsVariable →
    (graph.nodes v).second = .null ∨ (graph.nodes v).first = none ∧
      ((graph.nodes v).second = .type v ∨
        ∃ q, (graph.nodes v).second = .type q ∧ graph.DeadEnd a q)

theorem TypeGraph.Clean.searchable {graph : TypeGraph} (clean : graph.Clean)
    (a : TypePointer) : graph.Searchable a :=
  fun v inside isVariable => .inl (clean v inside isVariable)

/-- No variable marks itself. -/
def TypeGraph.SelfFree (graph : TypeGraph) : Prop :=
  ∀ v < graph.size, (graph.nodes v).IsVariable →
    (graph.nodes v).second ≠ .type v

theorem TypeGraph.Clean.selfFree {graph : TypeGraph} (clean : graph.Clean) :
    graph.SelfFree := by
  intro v inside isVariable marked
  rw [clean v inside isVariable] at marked
  cases marked

/-- The search stops for lack of fuel, or because a variable marks itself. -/
def StarvedSearch (graph : TypeGraph) (fuel : Nat) (p : TypePointer) :
    Stop → Prop := fun reason =>
  reason = .outOfFuel ∧
    (graph.SelfFree → ∀ rank, RanksFrom graph p rank → fuel ≤ rank p + 1)

/-- A search that fails below a link fails above it. -/
theorem StarvedSearch.link {graph : TypeGraph} {fuel : Nat}
    {p q : TypePointer} (link : graph.Link p q) {reason : Stop}
    (starved : StarvedSearch graph fuel q reason) :
    StarvedSearch graph (fuel + 1) p reason := by
  refine ⟨starved.1, fun free rank ranks => ?_⟩
  have inner := ranks.reached (.single link)
  exact Nat.succ_le_succ
    (Nat.le_trans (starved.2 free rank inner) (ranks _ _ .refl link))

theorem reaches_first_or_second {graph : TypeGraph} {p a b c : TypePointer}
    (links : ∀ q, graph.Link p q ↔ q = b ∨ q = c) (other : a ≠ p) :
    graph.Reaches p a ↔ graph.Reaches b a ∨ graph.Reaches c a := by
  constructor
  · intro path
    rcases path.cases_head with same | ⟨q, first, rest⟩
    · exact absurd same.symm other
    · rcases (links q).mp first with rfl | rfl
      · exact .inl rest
      · exact .inr rest
  · rintro (path | path)
    · exact .head ((links b).mpr (.inl rfl)) path
    · exact .head ((links c).mpr (.inr rfl)) path

theorem reaches_only {graph : TypeGraph} {p a b : TypePointer}
    (links : ∀ q, graph.Link p q ↔ q = b) (other : a ≠ p) :
    graph.Reaches p a ↔ graph.Reaches b a := by
  have both := reaches_first_or_second (c := b)
    (fun q => (links q).trans (or_self_iff).symm) other
  rwa [or_self_iff] at both

theorem not_reaches {graph : TypeGraph} {p a : TypePointer}
    (links : ∀ q, ¬graph.Link p q) (other : a ≠ p) : ¬graph.Reaches p a :=
  fun path => other (Links.reaches_of_terminal links path)

theorem isTypeContainedWithin_deadEnd {graph : TypeGraph}
    {a q : TypePointer} (deadEnd : graph.DeadEnd a q) (fuel : Nat) :
    wpExcept (fun reason => reason = .outOfFuel ∧ fuel = 0)
      (isTypeContainedWithin a fuel q)
      (fun found after => after = graph ∧ found = false) graph := by
  rcases deadEnd with ⟨other, first, second⟩
  cases fuel with
  | zero => exact ⟨rfl, rfl⟩
  | succ fuel =>
      rw [isTypeContainedWithin, if_neg (Ne.symm other)]
      simp only [wpExcept_bind, wp_node, first, second]
      exact ⟨rfl, rfl⟩

/-- Two searches in a row, as for a node with two arguments. -/
theorem search_both {graph : TypeGraph} {a p b c : TypePointer} {fuel : Nat}
    (other : a ≠ p) (links : ∀ q, graph.Link p q ↔ q = b ∨ q = c)
    (ih : ∀ q, graph.Link p q →
      wpExcept (StarvedSearch graph fuel q) (isTypeContainedWithin a fuel q)
        (fun found after => after = graph ∧
          (found = true ↔ graph.Reaches q a)) graph) :
    wpExcept (StarvedSearch graph (fuel + 1) p)
      (isTypeContainedWithin a fuel b >>= fun inFirst =>
        if inFirst = true then pure true else isTypeContainedWithin a fuel c)
      (fun found after => after = graph ∧ (found = true ↔ graph.Reaches p a))
      graph := by
  have linkB : graph.Link p b := (links b).mpr (.inl rfl)
  have linkC : graph.Link p c := (links c).mpr (.inr rfl)
  have reaches := reaches_first_or_second links other
  rw [wpExcept_bind]
  apply wpExcept_mono (ih b linkB) ?_ fun _ => StarvedSearch.link linkB
  rintro inFirst after ⟨rfl, first⟩
  cases inFirst with
  | true => exact ⟨rfl, by simpa [reaches] using .inl (first.mp rfl)⟩
  | false =>
      apply wpExcept_mono (ih c linkC) ?_ fun _ => StarvedSearch.link linkC
      rintro inSecond after ⟨rfl, second⟩
      refine ⟨rfl, second.trans ?_⟩
      rw [reaches]
      exact ⟨.inr, fun either => either.resolve_left fun path =>
        absurd (first.mpr path) Bool.false_ne_true⟩

theorem search_one {graph : TypeGraph} {a p b : TypePointer} {fuel : Nat}
    (other : a ≠ p) (links : ∀ q, graph.Link p q ↔ q = b)
    (ih : ∀ q, graph.Link p q →
      wpExcept (StarvedSearch graph fuel q) (isTypeContainedWithin a fuel q)
        (fun found after => after = graph ∧
          (found = true ↔ graph.Reaches q a)) graph) :
    wpExcept (StarvedSearch graph (fuel + 1) p)
      (isTypeContainedWithin a fuel b >>= fun inFirst =>
        if inFirst = true then pure true else pure false)
      (fun found after => after = graph ∧ (found = true ↔ graph.Reaches p a))
      graph := by
  have linkB : graph.Link p b := (links b).mpr rfl
  have reaches := reaches_only links other
  rw [wpExcept_bind]
  apply wpExcept_mono (ih b linkB) ?_ fun _ => StarvedSearch.link linkB
  rintro inFirst after ⟨rfl, first⟩
  cases inFirst with
  | true => exact ⟨rfl, by simpa [reaches] using first⟩
  | false => exact ⟨rfl, by simpa [reaches] using first⟩

theorem isTypeContainedWithin_spec {graph : TypeGraph}
    (wellFormed : graph.WellFormed) {a : TypePointer}
    (searchable : graph.Searchable a) (fuel : Nat) (p : TypePointer)
    (inside : p < graph.size) :
    wpExcept (StarvedSearch graph fuel p) (isTypeContainedWithin a fuel p)
      (fun found after => after = graph ∧ (found = true ↔ graph.Reaches p a))
      graph := by
  induction fuel generalizing p with
  | zero => exact ⟨rfl, fun _ _ _ => Nat.zero_le _⟩
  | succ fuel ih =>
      rw [isTypeContainedWithin]
      by_cases found : a = p
      · rw [if_pos found]
        exact ⟨rfl, by simp [found, ReflTransGen.refl]⟩
      rw [if_neg found]
      simp only [wpExcept_bind, wp_node]
      have next : ∀ q, graph.Link p q → _ := fun q link =>
        ih q (wellFormed.link_lt inside link)
      have shaped := wellFormed.shaped p inside
      have marks := searchable p inside
      generalize node : graph.nodes p = exp at shaped marks
      have links : ∀ q, graph.Link p q ↔ exp.first = some q ∨
          ¬exp.IsVariable ∧ exp.second = .type q := fun q => by
        rw [TypeGraph.Link, node]
      cases shaped with
      | unbound scratch | generic scratch =>
          have none_ : ¬graph.Reaches p a :=
            not_reaches (by simp [links, TypeExp.IsVariable]) found
          rcases marks (by simp [TypeExp.IsVariable]) with
            rfl | ⟨-, rfl | ⟨q, rfl, deadEnd⟩⟩
          · exact ⟨rfl, by simpa using none_⟩
          · apply wpExcept_mono (ih p inside)
            · exact fun _ _ => id
            · rintro stop ⟨isFuel, -⟩
              refine ⟨isFuel, fun free => absurd ?_ (free p inside ?_)⟩
              · rw [node]
              · simp [TypeExp.IsVariable, node]
          · apply wpExcept_mono (isTypeContainedWithin_deadEnd deadEnd fuel)
            · rintro result after ⟨rfl, rfl⟩
              exact ⟨rfl, by simpa using none_⟩
            · rintro stop ⟨isFuel, rfl⟩
              exact ⟨isFuel, fun _ _ _ => Nat.le_add_left _ _⟩
      | bound scratch within =>
          rcases marks (.inl rfl) with rfl | ⟨unbound, -⟩
          · exact search_one found
              (by simp [links, TypeExp.IsVariable, eq_comm]) next
          · cases unbound
      | error | int | bool =>
          have none_ : ¬graph.Reaches p a := not_reaches (by simp [links]) found
          exact ⟨rfl, by simpa using none_⟩
      | func inFirst inSecond | tuple inFirst inSecond =>
          exact search_both found
            (by simp [links, TypeExp.IsVariable, eq_comm]) next
      | tupleFinal inFirst =>
          exact search_one found (by simp [links, eq_comm]) next

/-- The types of a list reach a node. -/
def TypeGraph.ReachedFrom (graph : TypeGraph) (types : List TypePointer)
    (q : TypePointer) : Prop :=
  ∃ type ∈ types, graph.Reaches type q

theorem isTypeNonGeneric_spec {graph : TypeGraph}
    (wellFormed : graph.WellFormed) {a : TypePointer}
    (searchable : graph.Searchable a) (fuel : Nat)
    (nonGenerics : List TypePointer)
    (inside : ∀ n ∈ nonGenerics, n < graph.size) :
    wpExcept
      (fun reason => ∃ n ∈ nonGenerics, StarvedSearch graph fuel n reason)
      (isTypeNonGeneric fuel a nonGenerics)
      (fun found after => after = graph ∧
        (found = true ↔ graph.ReachedFrom nonGenerics a)) graph := by
  induction nonGenerics with
  | nil => exact ⟨rfl, by simp [TypeGraph.ReachedFrom]⟩
  | cons n nonGenerics ih =>
      rw [isTypeNonGeneric, wpExcept_bind]
      apply wpExcept_mono (isTypeContainedWithin_spec wellFormed searchable fuel
        n (inside n (List.mem_cons_self ..)))
      · rintro found after ⟨rfl, first⟩
        cases found with
        | true =>
            exact ⟨rfl, by simpa [TypeGraph.ReachedFrom] using .inl (first.mp rfl)⟩
        | false =>
            apply wpExcept_mono
              (ih fun m member => inside m (List.mem_cons_of_mem _ member))
            · rintro found after ⟨rfl, rest⟩
              refine ⟨rfl, rest.trans ?_⟩
              have none_ : ¬after.Reaches n a := by simpa using first
              simp [TypeGraph.ReachedFrom, none_]
            · rintro stop ⟨m, member, starved⟩
              exact ⟨m, List.mem_cons_of_mem _ member, starved⟩
      · exact fun stop starved => ⟨n, List.mem_cons_self .., starved⟩

/-! ## Cleaning up -/

/-- A variable without an instance, or a generic variable. -/
def TypeGraph.Open (graph : TypeGraph) (v : TypePointer) : Prop :=
  (graph.nodes v).IsVariable ∧ (graph.nodes v).first = none

/-- The open nodes that a type reaches. -/
def TypeGraph.openNodes (graph : TypeGraph) (p : TypePointer) :
    Set TypePointer :=
  { v | graph.Reaches p v ∧ graph.Open v }

open Classical in
/-- Clear the scratch fields of a set of nodes. -/
noncomputable def TypeGraph.unmark (graph : TypeGraph)
    (set : Set TypePointer) : TypeGraph :=
  { graph with
    nodes := fun v =>
      if v ∈ set then { graph.nodes v with second := .null }
      else graph.nodes v }

namespace TypeGraph

variable {graph : TypeGraph} {set : Set TypePointer}

theorem unmark_empty (graph : TypeGraph) : graph.unmark ∅ = graph := by
  simp [unmark]

theorem unmark_unmark (graph : TypeGraph) (first second : Set TypePointer) :
    (graph.unmark first).unmark second = graph.unmark (first ∪ second) := by
  simp only [unmark, TypeGraph.mk.injEq, and_true]
  ext v : 1
  by_cases inFirst : v ∈ first <;> by_cases inSecond : v ∈ second <;>
    simp [inFirst, inSecond]

theorem unmark_same (isVariable : ∀ v ∈ set, (graph.nodes v).IsVariable)
    (v : TypePointer) : (graph.nodes v).Same ((graph.unmark set).nodes v) := by
  unfold unmark
  by_cases member : v ∈ set
  · simp only [if_pos member]
    exact ⟨rfl, rfl, .inl (isVariable v member)⟩
  · simp only [if_neg member]
    exact .refl _

theorem unmark_allocates (isVariable : ∀ v ∈ set, (graph.nodes v).IsVariable) :
    graph.Allocates (graph.unmark set) :=
  ⟨Nat.le_refl _, fun v _ => unmark_same isVariable v⟩

theorem unmark_wellFormed (wellFormed : graph.WellFormed)
    (isVariable : ∀ v ∈ set, (graph.nodes v).IsVariable) :
    (graph.unmark set).WellFormed :=
  wellFormed.same rfl (unmark_same isVariable)

theorem unmark_link_iff (isVariable : ∀ v ∈ set, (graph.nodes v).IsVariable)
    (p q : TypePointer) : (graph.unmark set).Link p q ↔ graph.Link p q := by
  have same := unmark_same isVariable p
  unfold Link
  rw [same.2.1, same.isVariable]
  rcases same.2.2 with scratch | kept
  · simp [scratch]
  · rw [kept]

theorem unmark_link (isVariable : ∀ v ∈ set, (graph.nodes v).IsVariable) :
    (graph.unmark set).Link = graph.Link := by
  ext p q
  exact unmark_link_iff isVariable p q

theorem unmark_openNodes (isVariable : ∀ v ∈ set, (graph.nodes v).IsVariable)
    (p : TypePointer) :
    (graph.unmark set).openNodes p = graph.openNodes p := by
  ext v
  have same := unmark_same isVariable v
  simp only [openNodes, Set.mem_ofPred_eq, Reaches, unmark_link isVariable,
    Open, same.isVariable, same.2.1]

theorem openNodes_isVariable (p : TypePointer) :
    ∀ v ∈ graph.openNodes p, (graph.nodes v).IsVariable :=
  fun _ member => member.2.1

theorem Open.terminal {p : TypePointer} (open_ : graph.Open p) :
    ∀ q, ¬graph.Link p q := by
  rintro q (first | ⟨plain, -⟩)
  · rw [open_.2] at first
    cases first
  · exact plain open_.1

/-- The open nodes of a node are those of the nodes it links to. -/
theorem openNodes_link {p b c : TypePointer}
    (links : ∀ q, graph.Link p q ↔ q = b ∨ q = c) :
    graph.openNodes p = graph.openNodes b ∪ graph.openNodes c := by
  ext v
  constructor
  · rintro ⟨path, open_⟩
    rcases path.cases_head with rfl | ⟨q, first, rest⟩
    · exact absurd ((links b).mpr (.inl rfl)) (open_.terminal b)
    · rcases (links q).mp first with rfl | rfl
      · exact .inl ⟨rest, open_⟩
      · exact .inr ⟨rest, open_⟩
  · rintro (⟨path, open_⟩ | ⟨path, open_⟩)
    · exact ⟨.head ((links b).mpr (.inl rfl)) path, open_⟩
    · exact ⟨.head ((links c).mpr (.inr rfl)) path, open_⟩

theorem openNodes_only {p b : TypePointer}
    (links : ∀ q, graph.Link p q ↔ q = b) :
    graph.openNodes p = graph.openNodes b := by
  rw [openNodes_link (c := b) fun q => (links q).trans or_self_iff.symm,
    Set.union_self]

theorem openNodes_none {p : TypePointer} (closed : ¬graph.Open p)
    (terminal : ∀ q, ¬graph.Link p q) : graph.openNodes p = ∅ := by
  ext v
  constructor
  · rintro ⟨path, open_⟩
    rw [Links.reaches_of_terminal terminal path] at open_
    exact absurd open_ closed
  · exact False.elim

theorem openNodes_open {p : TypePointer} (open_ : graph.Open p) :
    graph.openNodes p = {p} := by
  ext v
  constructor
  · rintro ⟨path, -⟩
    exact Links.reaches_of_terminal open_.terminal path
  · rintro rfl
    exact ⟨.refl, open_⟩

end TypeGraph

/-- The open nodes of a type stay the same when the graph grows. -/
theorem TypeGraph.Allocates.openNodes {before after : TypeGraph}
    (allocates : before.Allocates after) (wellFormed : before.WellFormed)
    {p : TypePointer} (inside : p < before.size) :
    after.openNodes p = before.openNodes p := by
  ext v
  have reached := allocates.reaches_iff wellFormed (q := v) inside
  constructor
  · rintro ⟨path, open_⟩
    have old := reached.mp path
    have same := allocates.same v (wellFormed.reaches_lt inside old)
    exact ⟨old, same.isVariable.mp open_.1, same.2.1.symm.trans open_.2⟩
  · rintro ⟨path, open_⟩
    have same := allocates.same v (wellFormed.reaches_lt inside path)
    exact ⟨reached.mpr path, same.isVariable.mpr open_.1,
      same.2.1.trans open_.2⟩

theorem Prunes.openNodes {graph : TypeGraph} {p q : TypePointer}
    (prunes : Prunes graph p q) : graph.openNodes p = graph.openNodes q := by
  rcases prunes with ⟨path, -⟩
  induction path using ReflTransGen.head_induction_on with
  | refl => rfl
  | @head p r first _ ih =>
      rw [← ih]
      apply TypeGraph.openNodes_only
      intro s
      simp [TypeGraph.Link, TypeExp.IsVariable, first.1, first.2, eq_comm]

/-- A walk through a type stops for lack of fuel only. -/
def StarvedWalk (graph : TypeGraph) (fuel : Nat) (p : TypePointer) :
    Stop → Prop := fun reason =>
  reason = .outOfFuel ∧ ∀ rank, RanksFrom graph p rank → fuel ≤ rank p + 1

theorem StarvedWalk.prune {graph : TypeGraph} {fuel : Nat} {p : TypePointer}
    {reason : Stop} (starved : Starved graph fuel p reason) :
    StarvedWalk graph (fuel + 1) p reason :=
  ⟨starved.1, fun rank ranks => Nat.succ_le_succ (starved.2 rank ranks)⟩

theorem StarvedWalk.link {graph : TypeGraph} {fuel : Nat}
    {p q r : TypePointer} (prunes : Prunes graph p q) (link : graph.Link q r)
    {reason : Stop} (starved : StarvedWalk graph fuel r reason) :
    StarvedWalk graph (fuel + 1) p reason := by
  refine ⟨starved.1, fun rank ranks => Nat.succ_le_succ ?_⟩
  have path := prunes.reaches
  have inner := ranks.reached (path.trans (.single link))
  exact Nat.le_trans (starved.2 rank inner)
    (Nat.le_trans (ranks _ _ path link) (ranks.le path))

/-- Cleaning up one more type clears its open nodes as well. -/
theorem cleanup_after {graph : TypeGraph} (set : Set TypePointer)
    (isVariable : ∀ v ∈ set, (graph.nodes v).IsVariable) {fuel : Nat}
    {p q r : TypePointer} (prunes : Prunes graph p q)
    (link : graph.Link q r)
    (cleans : wpExcept (StarvedWalk (graph.unmark set) fuel r)
      (cleanupTypeVariables fuel r)
      (fun _ after => after =
        (graph.unmark set).unmark ((graph.unmark set).openNodes r))
      (graph.unmark set)) :
    wpExcept (StarvedWalk graph (fuel + 1) p) (cleanupTypeVariables fuel r)
      (fun _ after => after = graph.unmark (set ∪ graph.openNodes r))
      (graph.unmark set) := by
  apply wpExcept_mono cleans
  · rintro - after rfl
    rw [TypeGraph.unmark_unmark, TypeGraph.unmark_openNodes isVariable]
  · rintro stop ⟨isFuel, least⟩
    apply StarvedWalk.link prunes link
    refine ⟨isFuel, fun rank ranks => least rank ?_⟩
    unfold RanksFrom TypeGraph.Reaches
    rw [TypeGraph.unmark_link isVariable]
    exact ranks

theorem cleanupTypeVariables_spec {graph : TypeGraph}
    (wellFormed : graph.WellFormed) (fuel : Nat) (p : TypePointer)
    (inside : p < graph.size) :
    wpExcept (StarvedWalk graph fuel p) (cleanupTypeVariables fuel p)
      (fun _ after => after = graph.unmark (graph.openNodes p)) graph := by
  induction fuel generalizing p graph with
  | zero => exact ⟨rfl, fun _ _ => Nat.zero_le _⟩
  | succ fuel ih =>
      rw [cleanupTypeVariables, wpExcept_bind]
      apply wpExcept_mono (pruneTypeExp_spec fuel p graph) ?_
        fun _ => StarvedWalk.prune
      rintro q after ⟨rfl, prunes⟩
      rename TypeGraph => graph
      rw [prunes.openNodes]
      have within := wellFormed.reaches_lt inside prunes.reaches
      have shaped := wellFormed.shaped q within
      simp only [wpExcept_bind, wp_node]
      generalize node : graph.nodes q = exp at shaped
      have links : ∀ r, graph.Link q r ↔ exp.first = some r ∨
          ¬exp.IsVariable ∧ exp.second = .type r := fun r => by
        rw [TypeGraph.Link, node]
      -- Cleaning up starts from the graph in which nothing is cleared yet.
      have start : graph.unmark ∅ = graph := TypeGraph.unmark_empty graph
      have first : ∀ r, graph.Link q r →
          wpExcept (StarvedWalk graph (fuel + 1) p)
            (cleanupTypeVariables fuel r)
            (fun _ after => after = graph.unmark (graph.openNodes r)) graph := by
        intro r link
        have cleans := cleanup_after ∅ (by simp) prunes link (by
          rw [start]
          exact ih wellFormed r (wellFormed.link_lt within link))
        rwa [start, Set.empty_union] at cleans
      have second : ∀ r s, graph.Link q r → graph.Link q s →
          wpExcept (StarvedWalk graph (fuel + 1) p)
            (cleanupTypeVariables fuel s)
            (fun _ after => after =
              graph.unmark (graph.openNodes r ∪ graph.openNodes s))
            (graph.unmark (graph.openNodes r)) := by
        intro r s _ link
        have isVariable := graph.openNodes_isVariable r
        exact cleanup_after _ isVariable prunes link
          (ih (TypeGraph.unmark_wellFormed wellFormed isVariable) s
            (wellFormed.link_lt within link))
      cases shaped with
      | unbound scratch | generic scratch =>
          have open_ : graph.Open q := by
            simp [TypeGraph.Open, TypeExp.IsVariable, node]
          rw [TypeGraph.openNodes_open open_]
          simp only [decide_true, decide_false, Bool.or_true, Bool.true_or,
            if_true, wp_setVarTempOther, reduceCtorEq]
          simp only [TypeGraph.mark, TypeGraph.unmark, TypeGraph.mk.injEq,
            and_true]
          ext v : 1
          by_cases same : v = q
          · simp [same]
          · simp [same]
      | bound scratch within => exact absurd ⟨by rw [node], by rw [node]⟩ (prunes.ended _)
      | error | int | bool =>
          have none_ : graph.openNodes q = ∅ :=
            TypeGraph.openNodes_none
              (by simp [TypeGraph.Open, TypeExp.IsVariable, node])
              (by simp [links])
          exact (none_ ▸ start).symm
      | @func a b _ _ | @tuple a b _ _ =>
          have both : graph.openNodes q =
              graph.openNodes a ∪ graph.openNodes b :=
            TypeGraph.openNodes_link
              (by simp [links, TypeExp.IsVariable, eq_comm])
          rw [both]
          simp only [reduceCtorEq, decide_false, Bool.or_self,
            Bool.false_eq_true, if_false, wpExcept_bind]
          apply wpExcept_mono (first a (by simp [links])) ?_ fun _ => id
          rintro - after rfl
          exact second a b (by simp [links])
            (by simp [links, TypeExp.IsVariable])
      | @tupleFinal a _ =>
          have only : graph.openNodes q = graph.openNodes a :=
            TypeGraph.openNodes_only (by simp [links, eq_comm])
          rw [only]
          simp only [reduceCtorEq, decide_false, Bool.or_self,
            Bool.false_eq_true, if_false, wpExcept_bind]
          apply wpExcept_mono (first a (by simp [links])) ?_ fun _ => id
          rintro - after rfl
          rfl

end Millie.Types
