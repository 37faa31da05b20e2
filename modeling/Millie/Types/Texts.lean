import Millie.Foundation.FirstOccurrences
import Millie.Types.Terms

/-!
# Texts of types

The text of a term whose leaves are names.  Only functions are put in
parentheses, so a text determines its term up to the nesting of tuples, and with
names by first occurrence two terms have the same text exactly when they are
equal up to that and to a one-to-one renaming.
-/

namespace Millie.Types

open FirstOccurrences

/-! ## Renaming -/

namespace Ty

variable {α β γ : Type}

/-- Rename the leaves of a type. -/
def rename (t : Ty α) (f : α → β) : Ty β :=
  t.bind fun a => leaf (f a)

@[simp]
theorem rename_leaf (a : α) (f : α → β) : (leaf a).rename f = leaf (f a) :=
  rfl

@[simp]
theorem rename_func (s t : Ty α) (f : α → β) :
    (func s t).rename f = func (s.rename f) (t.rename f) :=
  rfl

@[simp]
theorem rename_tuple (s t : Ty α) (f : α → β) :
    (tuple s t).rename f = tuple (s.rename f) (t.rename f) :=
  rfl

@[simp]
theorem rename_tupleFinal (s : Ty α) (f : α → β) :
    (tupleFinal s).rename f = tupleFinal (s.rename f) :=
  rfl

theorem rename_congr {t : Ty α} {f g : α → β}
    (same : ∀ a ∈ t.leaves, f a = g a) : t.rename f = t.rename g :=
  bind_congr fun a member => congrArg leaf (same a member)

theorem rename_rename (t : Ty α) (f : α → β) (g : β → γ) :
    (t.rename f).rename g = t.rename fun a => g (f a) :=
  bind_bind t _ _

@[simp]
theorem leaves_rename (t : Ty α) (f : α → β) :
    (t.rename f).leaves = t.leaves.map f := by
  induction t with
  | leaf a => rfl
  | int | bool => rfl
  | func s t first second | tuple s t first second =>
      simp only [rename_func, rename_tuple, leaves, first, second,
        List.map_append]
  | tupleFinal s first => exact first

/-- A renaming that is one-to-one on the leaves of two types loses nothing. -/
theorem rename_injOn [Nonempty α] {s t : Ty α} {f : α → β} {set : Set α}
    (injective : Set.InjOn f set) (insideS : ∀ a ∈ s.leaves, a ∈ set)
    (insideT : ∀ a ∈ t.leaves, a ∈ set) (same : s.rename f = t.rename f) :
    s = t := by
  have back : ∀ {t : Ty α}, (∀ a ∈ t.leaves, a ∈ set) →
      (t.rename f).rename (Function.invFunOn f set) = t := by
    intro t inside
    calc (t.rename f).rename (Function.invFunOn f set)
        = t.rename fun a => Function.invFunOn f set (f a) :=
          rename_rename t _ _
      _ = t.rename fun a => a := rename_congr fun a member =>
          injective.leftInvOn_invFunOn (inside a member)
      _ = t := bind_leaf t
  rw [← back insideS, same, back insideT]

/-- A type without its leaves. -/
def shape (t : Ty α) : Ty Unit :=
  t.rename fun _ => ()

theorem shape_rename (t : Ty α) (f : α → β) : (t.rename f).shape = t.shape :=
  rename_rename t f _

theorem length_leaves_of_shape {s : Ty α} {t : Ty β}
    (same : s.shape = t.shape) : s.leaves.length = t.leaves.length := by
  have lengths := congrArg (fun shape => shape.leaves.length) same
  simpa [shape] using lengths

/-- Two types are the same when their shapes and their leaves are. -/
theorem ext_shape {s t : Ty α} (shapes : s.shape = t.shape)
    (members : s.leaves = t.leaves) : s = t := by
  induction s generalizing t with
  | leaf a =>
      cases t with
      | leaf b => rw [List.singleton_inj.mp members]
      | _ => cases shapes
  | int | bool =>
      cases t with
      | int | bool => first | rfl | cases shapes
      | _ => cases shapes
  | func s₁ s₂ first second =>
      cases t with
      | func t₁ t₂ =>
          rcases func.inj shapes with ⟨shapes₁, shapes₂⟩
          rcases List.append_inj members (length_leaves_of_shape shapes₁) with
            ⟨members₁, members₂⟩
          rw [first shapes₁ members₁, second shapes₂ members₂]
      | _ => cases shapes
  | tuple s₁ s₂ first second =>
      cases t with
      | tuple t₁ t₂ =>
          rcases tuple.inj shapes with ⟨shapes₁, shapes₂⟩
          rcases List.append_inj members (length_leaves_of_shape shapes₁) with
            ⟨members₁, members₂⟩
          rw [first shapes₁ members₁, second shapes₂ members₂]
      | _ => cases shapes
  | tupleFinal s first =>
      cases t with
      | tupleFinal t => rw [first (tupleFinal.inj shapes) members]
      | _ => cases shapes

theorem rename_eq_iff {s : Ty α} {t : Ty β} {f : α → γ} {g : β → γ} :
    s.rename f = t.rename g ↔
      s.shape = t.shape ∧ s.leaves.map f = t.leaves.map g := by
  constructor
  · intro same
    have shapes := congrArg shape same
    have members := congrArg Ty.leaves same
    rw [shape_rename, shape_rename] at shapes
    rw [leaves_rename, leaves_rename] at members
    exact ⟨shapes, members⟩
  · rintro ⟨shapes, members⟩
    apply ext_shape
    · rw [shape_rename, shape_rename, shapes]
    · rw [leaves_rename, leaves_rename, members]

/-- Two types that a one-to-one renaming of the leaves turns into each other. -/
def Alike (s t : Ty α) : Prop :=
  ∃ ρ : α → α, Set.InjOn ρ { a | a ∈ s.leaves } ∧ t = s.rename ρ

/-- Naming leaves by first occurrence tells the types apart that are not alike. -/
theorem alike_iff_positions [DecidableEq α] {s t : Ty α} :
    s.Alike t ↔
      s.rename (position s.leaves) = t.rename (position t.leaves) := by
  rw [rename_eq_iff, map_position_eq_iff]
  constructor
  · rintro ⟨ρ, injective, rfl⟩
    exact ⟨(shape_rename s ρ).symm, ρ, injective, leaves_rename s ρ⟩
  · rintro ⟨shapes, ρ, injective, members⟩
    refine ⟨ρ, injective, ext_shape ?_ ?_⟩
    · rw [shape_rename, shapes]
    · rw [leaves_rename, members]

/-! ## Nested tuples -/

/-- Put the components of a tuple in front of another. -/
@[simp]
def splice : Ty α → Ty α → Ty α
  | tuple first rest, t => tuple first (rest.splice t)
  | s, t => tuple s t

/-- Nested tuples as one, without the mark of a last component. -/
@[simp]
def flat : Ty α → Ty α
  | leaf a => leaf a
  | int => int
  | bool => bool
  | func s t => func s.flat t.flat
  | tuple s t => s.flat.splice t.flat
  | tupleFinal s => s.flat

@[simp]
theorem leaves_splice (s t : Ty α) :
    (s.splice t).leaves = s.leaves ++ t.leaves := by
  induction s with
  | tuple first rest _ ih =>
      rw [splice, leaves, ih, leaves, List.append_assoc]
  | _ => rfl

@[simp]
theorem leaves_flat (t : Ty α) : t.flat.leaves = t.leaves := by
  induction t with
  | leaf a => rfl
  | int | bool => rfl
  | func s t first second => rw [flat, leaves, first, second, leaves]
  | tuple s t first second =>
      rw [flat, leaves_splice, first, second, leaves]
  | tupleFinal s first => exact first

theorem rename_splice (s t : Ty α) (f : α → β) :
    (s.splice t).rename f = (s.rename f).splice (t.rename f) := by
  induction s with
  | tuple first rest _ ih =>
      rw [splice, rename_tuple, ih, rename_tuple, splice]
  | _ => rfl

theorem flat_rename (t : Ty α) (f : α → β) :
    (t.rename f).flat = t.flat.rename f := by
  induction t with
  | leaf a => rfl
  | int | bool => rfl
  | func s t first second =>
      rw [rename_func, flat, first, second, flat, rename_func]
  | tuple s t first second =>
      rw [rename_tuple, flat, first, second, flat, rename_splice]
  | tupleFinal s first => exact first

/-- Alike types are alike without their nesting. -/
theorem Alike.flat {s t : Ty α} (alike : s.Alike t) : s.flat.Alike t.flat := by
  rcases alike with ⟨ρ, injective, rfl⟩
  refine ⟨ρ, ?_, flat_rename s ρ⟩
  rwa [leaves_flat]

/-- A type that is no tuple. -/
def IsAtom : Ty α → Prop
  | tuple _ _ | tupleFinal _ => False
  | _ => True

/-- A type in which no tuple is a component of another. -/
def Flat : Ty α → Prop
  | leaf _ | int | bool => True
  | func s t => s.Flat ∧ t.Flat
  | tuple s t => s.IsAtom ∧ s.Flat ∧ t.Flat
  | tupleFinal _ => False

theorem Flat.splice {s t : Ty α} (left : s.Flat) (right : t.Flat) :
    (s.splice t).Flat := by
  induction s with
  | leaf a => exact ⟨trivial, trivial, right⟩
  | int | bool => exact ⟨trivial, trivial, right⟩
  | func s₁ s₂ _ _ => exact ⟨trivial, left, right⟩
  | tuple first rest _ ih => exact ⟨left.1, left.2.1, ih left.2.2⟩
  | tupleFinal s _ => exact left.elim

theorem Flat.atom_or_tuple {t : Ty α} (flat : t.Flat) :
    t.IsAtom ∨ ∃ first rest, t = tuple first rest := by
  cases t with
  | tuple first rest => exact .inr ⟨first, rest, rfl⟩
  | tupleFinal first => exact flat.elim
  | _ => exact .inl trivial

theorem flat_flat (t : Ty α) : t.flat.Flat := by
  induction t with
  | leaf a => trivial
  | int | bool => trivial
  | func s t first second => exact ⟨first, second⟩
  | tuple s t first second => exact first.splice second
  | tupleFinal s first => exact first

/-! ## Texts -/

/-- The text of a type whose leaves are names. -/
@[simp]
def print : Ty String → String
  | leaf name => name
  | int => "int"
  | bool => "bool"
  | func s t => "( " ++ s.print ++ " -> " ++ t.print ++ " )"
  | tuple s t => s.print ++ " * " ++ t.print
  | tupleFinal s => s.print

theorem print_splice (s t : Ty String) :
    (s.splice t).print = s.print ++ " * " ++ t.print := by
  induction s with
  | tuple first rest _ ih =>
      rw [splice, print, ih, print]
      simp only [String.append_assoc]
  | _ => rfl

/-- A text does not show how tuples are nested. -/
theorem print_flat (t : Ty String) : t.flat.print = t.print := by
  induction t with
  | leaf name => rfl
  | int | bool => rfl
  | func s t first second => rw [flat, print, first, second, print]
  | tuple s t first second => rw [flat, print_splice, first, second, print]
  | tupleFinal s first => exact first

end Ty

/-- A name of a type variable: a quote and one more character. -/
def IsTypeName (name : String) : Prop :=
  ∃ c, name.toList = "'".toList ++ [c]

/-- A type all of whose leaves are names of type variables. -/
def Ty.HasNames (t : Ty String) : Prop :=
  ∀ name ∈ t.leaves, IsTypeName name

/-- What follows a whole type: no further component of a tuple. -/
def Ends (rest : List Char) : Prop :=
  ∀ more, rest ≠ " * ".toList ++ more

theorem ends_nil : Ends [] := by
  simp [Ends]

theorem ends_arrow (more : List Char) : Ends (" -> ".toList ++ more) := by
  simp [Ends]

theorem ends_parenthesis (more : List Char) : Ends (" )".toList ++ more) := by
  simp [Ends]

/-- A type whose text ends where it does, whatever follows. -/
def Delimited (u : Ty String) : Prop :=
  ∀ w : Ty String, w.IsAtom → w.Flat → w.HasNames → ∀ x y,
    u.print.toList ++ x = w.print.toList ++ y → u = w ∧ x = y

/-- A type that can be read from its text and what follows the whole type. -/
def Readable (u : Ty String) : Prop :=
  ∀ w : Ty String, w.Flat → w.HasNames → ∀ x y, Ends x → Ends y →
    u.print.toList ++ x = w.print.toList ++ y → u = w ∧ x = y

section

variable {s t u : Ty String}

theorem Ty.HasNames.left (names : ∀ name ∈ s.leaves ++ t.leaves, IsTypeName name) :
    s.HasNames :=
  fun name member => names name (List.mem_append_left _ member)

theorem Ty.HasNames.right
    (names : ∀ name ∈ s.leaves ++ t.leaves, IsTypeName name) : t.HasNames :=
  fun name member => names name (List.mem_append_right _ member)

theorem Ty.print_tuple (s t : Ty String) (rest : List Char) :
    (tuple s t).print.toList ++ rest =
      s.print.toList ++ (" * ".toList ++ (t.print.toList ++ rest)) := by
  simp [print]

theorem Ty.print_func (s t : Ty String) (rest : List Char) :
    (func s t).print.toList ++ rest =
      "( ".toList ++ (s.print.toList ++
        (" -> ".toList ++ (t.print.toList ++ (" )".toList ++ rest)))) := by
  simp [print]

theorem readable_of_delimited (delimited : Delimited u) : Readable u := by
  intro w flat names x y endsX endsY same
  rcases flat.atom_or_tuple with atom | ⟨a, r, rfl⟩
  · exact delimited w atom flat names x y same
  · rw [Ty.print_tuple] at same
    rcases delimited a flat.1 flat.2.1 (.left names) x _ same with ⟨-, rest⟩
    exact absurd rest (endsX _)

theorem readable_tuple (first : Delimited s) (rest : Readable t) :
    Readable (.tuple s t) := by
  intro w flat names x y endsX endsY same
  rw [Ty.print_tuple] at same
  rcases flat.atom_or_tuple with atom | ⟨a, r, rfl⟩
  · rcases first w atom flat names _ y same with ⟨-, ends⟩
    exact absurd ends.symm (endsY _)
  · rw [Ty.print_tuple] at same
    rcases first a flat.1 flat.2.1 (.left names) _ _ same with ⟨rfl, others⟩
    rcases rest r flat.2.2 (.right names) x y endsX endsY
      (List.append_cancel_left others) with ⟨rfl, ends⟩
    exact ⟨rfl, ends⟩

theorem delimited_func (first : Readable s) (second : Readable t) :
    Delimited (.func s t) := by
  intro w atom flat names x y same
  rw [Ty.print_func] at same
  cases w with
  | func a b =>
      rw [Ty.print_func] at same
      rcases first a flat.1 (.left names) _ _ (ends_arrow _) (ends_arrow _)
        (List.append_cancel_left same) with ⟨rfl, results⟩
      rcases second b flat.2 (.right names) _ _ (ends_parenthesis _)
        (ends_parenthesis _) (List.append_cancel_left results) with
        ⟨rfl, rests⟩
      exact ⟨rfl, List.append_cancel_left rests⟩
  | leaf name =>
      rcases names name (List.mem_singleton_self name) with ⟨c, spelled⟩
      simp [Ty.print, spelled] at same
  | int | bool => simp [Ty.print] at same
  | tuple | tupleFinal => exact atom.elim

theorem delimited_leaf {name : String} (isName : IsTypeName name) :
    Delimited (.leaf name) := by
  intro w atom flat names x y same
  rcases isName with ⟨c, spelled⟩
  cases w with
  | leaf other =>
      rcases names other (List.mem_singleton_self other) with ⟨d, spelled'⟩
      simp only [Ty.print, spelled, spelled', List.append_assoc] at same
      rcases List.cons.inj (List.append_cancel_left same) with ⟨rfl, rests⟩
      rw [String.toList_inj.mp (spelled.trans spelled'.symm)]
      exact ⟨rfl, rests⟩
  | func | int | bool => simp [Ty.print, spelled] at same
  | tuple | tupleFinal => exact atom.elim

theorem delimited_int : Delimited .int := by
  intro w atom flat names x y same
  cases w with
  | int => exact ⟨rfl, List.append_cancel_left same⟩
  | leaf name =>
      rcases names name (List.mem_singleton_self name) with ⟨c, spelled⟩
      simp [Ty.print, spelled] at same
  | func | bool => simp [Ty.print] at same
  | tuple | tupleFinal => exact atom.elim

theorem delimited_bool : Delimited .bool := by
  intro w atom flat names x y same
  cases w with
  | bool => exact ⟨rfl, List.append_cancel_left same⟩
  | leaf name =>
      rcases names name (List.mem_singleton_self name) with ⟨c, spelled⟩
      simp [Ty.print, spelled] at same
  | func | int => simp [Ty.print] at same
  | tuple | tupleFinal => exact atom.elim

theorem Ty.Flat.readable (flat : u.Flat) (names : u.HasNames) :
    (u.IsAtom → Delimited u) ∧ Readable u := by
  have ofAtom : ∀ {u}, Delimited u → (u.IsAtom → Delimited u) ∧ Readable u :=
    fun delimited => ⟨fun _ => delimited, readable_of_delimited delimited⟩
  induction u with
  | leaf name => exact ofAtom (delimited_leaf (names name (by simp [leaves])))
  | int => exact ofAtom delimited_int
  | bool => exact ofAtom delimited_bool
  | func s t first second =>
      exact ofAtom (delimited_func (first flat.1 (.left names)).2
        (second flat.2 (.right names)).2)
  | tuple s t first second =>
      refine ⟨False.elim, readable_tuple ?_ ?_⟩
      · exact (first flat.2.1 (.left names)).1 flat.1
      · exact (second flat.2.2 (.right names)).2
  | tupleFinal s _ => exact flat.elim

/-- A text determines its type up to the nesting of tuples. -/
theorem Ty.print_eq_iff (left : s.HasNames) (right : t.HasNames) :
    s.print = t.print ↔ s.flat = t.flat := by
  constructor
  · intro same
    have namesS : s.flat.HasNames := by rwa [HasNames, leaves_flat]
    have namesT : t.flat.HasNames := by rwa [HasNames, leaves_flat]
    have texts : s.flat.print.toList ++ [] = t.flat.print.toList ++ [] := by
      rw [print_flat, print_flat, same]
    exact (((flat_flat s).readable namesS).2 t.flat (flat_flat t) namesT [] []
      ends_nil ends_nil texts).1
  · intro same
    rw [← print_flat s, same, print_flat]

end

/-! ## The names of type variables -/

/-- The name of the variable that is named after `i` others. -/
def typeName (i : Nat) : String :=
  "'" ++ typeNames.getD i ""

theorem nodup_typeNames : typeNames.Nodup := by
  decide

theorem isTypeName_typeName {i : Nat} (inside : i < typeNames.length) :
    IsTypeName (typeName i) := by
  have single : ∀ letter ∈ typeNames, ∃ c, letter.toList = [c] := by
    simp [typeNames]
  rcases single typeNames[i] (List.getElem_mem inside) with ⟨c, spelled⟩
  refine ⟨c, ?_⟩
  rw [typeName, String.toList_append, ← List.getElem_eq_getD (h := inside),
    spelled]

theorem typeName_injOn : Set.InjOn typeName { i | i < typeNames.length } := by
  intro i insideI j insideJ same
  have letters := (String.append_right_inj "'").mp same
  exact (List.getD_inj insideI insideJ nodup_typeNames).mp letters

/-- A type with its leaves named in the order in which they first occur. -/
def Ty.named {α : Type} [DecidableEq α] (t : Ty α) : Ty String :=
  t.rename fun a => typeName (position t.leaves a)

section

variable {α : Type} [DecidableEq α] {s t : Ty α}

theorem Ty.hasNames_named
    (few : (firsts [] t.leaves).length ≤ typeNames.length) :
    t.named.HasNames := by
  intro name member
  rw [named, leaves_rename] at member
  rcases List.mem_map.mp member with ⟨a, inside, rfl⟩
  exact isTypeName_typeName (Nat.lt_of_lt_of_le (position_lt inside) few)

/-- Two types have the same text when they are alike without their nesting. -/
theorem Ty.print_named_eq_iff
    (fewS : (firsts [] s.leaves).length ≤ typeNames.length)
    (fewT : (firsts [] t.leaves).length ≤ typeNames.length) :
    s.named.print = t.named.print ↔ s.flat.Alike t.flat := by
  have inside : ∀ {t : Ty α},
      (firsts [] t.leaves).length ≤ typeNames.length →
      ∀ i ∈ (t.flat.rename (position t.leaves)).leaves,
        i < typeNames.length := by
    intro t few i member
    rw [leaves_rename, leaves_flat] at member
    rcases List.mem_map.mp member with ⟨a, inside, rfl⟩
    exact Nat.lt_of_lt_of_le (position_lt inside) few
  rw [print_eq_iff (hasNames_named fewS) (hasNames_named fewT),
    alike_iff_positions, leaves_flat, leaves_flat, named, named, flat_rename,
    flat_rename, ← rename_rename s.flat, ← rename_rename t.flat]
  exact ⟨rename_injOn typeName_injOn (inside fewS) (inside fewT),
    congrArg (rename · typeName)⟩

end

end Millie.Types
