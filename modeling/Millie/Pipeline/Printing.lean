import Millie.Machine.Evaluate
import Millie.Types.Follow

/-!
# Printing values

Translation of `FormatValue` in `millie.c`, which prints a value at a type.  A
tuple is printed by following the spine of its type from slot to slot: the text
has the value of every slot at the type of its component, in order.
-/

namespace Millie.Pipeline

open Relation
open Millie.Compiler Millie.Machine Millie.Types

/-! ## `FormatValue` -/

/-- A type behind a pointer that may be null, where it is dereferenced. -/
def dereference : Option TypePointer → Except Stop TypePointer
  | some type => .ok type
  | none => .error .undefinedBehaviour

/-- `%lld`. -/
def formatSigned (value : UInt64) : String :=
  toString value.toBitVec.toInt

/-- The texts of `TYPEEXP_BOOL`. -/
def formatBool (isZero : Bool) : String :=
  if isZero then "false" else "true"

/--
The loop of the `TYPEEXP_TUPLE` case and the final component, from slot `i` on.
`acc` is what is printed so far, and `load` reads a slot of the tuple.
-/
def formatTuple (format : Word → TypePointer → Except Stop String)
    (graph : TypeGraph) (load : Nat → Except Stop Word) :
    Nat → TypePointer → Nat → String → Except Stop String
  | 0, _, _, _ => .error .outOfFuel
  | fuel + 1, type, i, acc =>
      match (graph.nodes type).type with
      | .tuple => do
          let tv ← format (← load i) (← dereference (graph.nodes type).first)
          match (graph.nodes type).second with
          | .type tupleRest =>
              formatTuple format graph load fuel tupleRest (i + 1)
                (acc ++ tv ++ ", ")
          | _ => .error .undefinedBehaviour
      | .tupleFinal => do
          let tv ← format (← load i) (← dereference (graph.nodes type).first)
          return acc ++ tv ++ ")"
      | _ => .error .failed

/-- `FormatValue`. -/
def formatValue (graph : TypeGraph) (module : Module) (memory : Memory) :
    Nat → Word → TypePointer → Except Stop String
  | 0, _, _ => .error .outOfFuel
  | fuel + 1, value, type =>
      match (graph.nodes type).type with
      | .variable_ => do
          formatValue graph module memory fuel value
            (← dereference (graph.nodes type).first)
      | .bool => do return formatBool (← isZero value)
      | .int => do return formatSigned (← value.toInt)
      | .func => return "A FUNCTION"
      | .tuple =>
          formatTuple (formatValue graph module memory fuel) graph
            (loadWord module memory value) fuel type 0 "("
      | .tupleFinal | .genericVariable | .invalid | .error =>
          return "<<Invalid>>"

/-- A value prints as a text with enough fuel. -/
def Prints (graph : TypeGraph) (module : Module) (memory : Memory)
    (value : Word) (type : TypePointer) (text : String) : Prop :=
  ∃ fuel, formatValue graph module memory fuel value type = .ok text

/-! ## Fuel -/

/-- A format that gives every result that another one gives. -/
def GivesMore (format other : Word → TypePointer → Except Stop String) :
    Prop :=
  ∀ value type text, format value type = .ok text →
    other value type = .ok text

theorem formatTuple_mono
    {format other : Word → TypePointer → Except Stop String}
    (gives : GivesMore format other) {graph : TypeGraph}
    {load : Nat → Except Stop Word} {fuel more : Nat} (enough : fuel ≤ more)
    {type : TypePointer} {i : Nat} {acc text : String}
    (prints : formatTuple format graph load fuel type i acc = .ok text) :
    formatTuple other graph load more type i acc = .ok text := by
  induction fuel generalizing more type i acc with
  | zero => cases prints
  | succ fuel ih =>
      rcases Nat.exists_eq_add_of_le' (Nat.le_trans (Nat.le_add_left 1 fuel)
        enough) with ⟨more, rfl⟩
      have enough := Nat.le_of_succ_le_succ enough
      unfold formatTuple at prints ⊢
      split at prints
      · simp only [Stop.bind_eq_ok_iff] at prints ⊢
        rcases prints with ⟨word, loads, first, isFirst, tv, printed, rest⟩
        refine ⟨word, loads, first, isFirst, tv, gives _ _ _ printed, ?_⟩
        split at rest
        · exact ih enough rest
        · cases rest
      · simp only [Stop.bind_eq_ok_iff] at prints ⊢
        rcases prints with ⟨word, loads, first, isFirst, tv, printed, rest⟩
        exact ⟨word, loads, first, isFirst, tv, gives _ _ _ printed, rest⟩
      · cases prints

/-- More fuel changes no text. -/
theorem formatValue_mono {graph : TypeGraph} {module : Module}
    {memory : Memory} {fuel more : Nat} (enough : fuel ≤ more) :
    GivesMore (formatValue graph module memory fuel)
      (formatValue graph module memory more) := by
  induction fuel generalizing more with
  | zero => exact nofun
  | succ fuel ih =>
      rcases Nat.exists_eq_add_of_le' (Nat.le_trans (Nat.le_add_left 1 fuel)
        enough) with ⟨more, rfl⟩
      have enough := Nat.le_of_succ_le_succ enough
      intro value type text prints
      unfold formatValue at prints ⊢
      split at prints
      · rcases Stop.bind_eq_ok_iff.mp prints with ⟨instance_, isInstance, rest⟩
        rw [isInstance]
        exact ih enough _ _ _ rest
      · exact prints
      · exact prints
      · exact prints
      · exact formatTuple_mono (ih enough) enough prints
      · exact prints
      · exact prints
      · exact prints
      · exact prints

/-! ## Tuples -/

/-- The spine of a tuple type, and the types of its components. -/
inductive TupleSpine (graph : TypeGraph) :
    TypePointer → List TypePointer → Prop where
  | final {type last : TypePointer}
      (isFinal : (graph.nodes type).type = .tupleFinal)
      (first : (graph.nodes type).first = some last) :
      TupleSpine graph type [last]
  | more {type component rest : TypePointer} {components : List TypePointer}
      (isTuple : (graph.nodes type).type = .tuple)
      (first : (graph.nodes type).first = some component)
      (second : (graph.nodes type).second = .type rest)
      (tail : TupleSpine graph rest components) :
      TupleSpine graph type (component :: components)

/-- Slot by slot, the value at the type of the component prints as a text. -/
inductive PrintsSlots (graph : TypeGraph) (module : Module) (memory : Memory)
    (value : Word) : Nat → List TypePointer → List String → Prop where
  | nil (i : Nat) : PrintsSlots graph module memory value i [] []
  | cons {i : Nat} {type : TypePointer} {types : List TypePointer}
      {word : Word} {text : String} {texts : List String}
      (loads : loadWord module memory value i = .ok word)
      (prints : Prints graph module memory word type text)
      (others : PrintsSlots graph module memory value (i + 1) types texts) :
      PrintsSlots graph module memory value i (type :: types)
        (text :: texts)

section

variable {graph : TypeGraph} {module : Module} {memory : Memory}
  {value : Word}

theorem TupleSpine.nonempty {type : TypePointer}
    {components : List TypePointer} (spine : TupleSpine graph type components) :
    components ≠ [] := by
  cases spine with
  | final => exact List.cons_ne_nil _ _
  | more => exact List.cons_ne_nil _ _

theorem PrintsSlots.nonempty {i : Nat} {types : List TypePointer}
    {texts : List String}
    (slots : PrintsSlots graph module memory value i types texts)
    (nonempty : types ≠ []) : texts ≠ [] := by
  cases slots with
  | nil => exact absurd rfl nonempty
  | cons => exact List.cons_ne_nil _ _

/-- The loop prints the slots with enough fuel. -/
theorem PrintsSlots.formatTuple {type : TypePointer}
    {components : List TypePointer}
    (spine : TupleSpine graph type components) {i : Nat} {texts : List String}
    (slots : PrintsSlots graph module memory value i components texts)
    (acc : String) :
    ∃ fuel, Pipeline.formatTuple (formatValue graph module memory fuel) graph
      (loadWord module memory value) fuel type i acc =
        .ok (acc ++ ", ".intercalate texts ++ ")") := by
  induction spine generalizing i texts acc with
  | final isFinal first =>
      cases slots with
      | cons loads prints others =>
          cases others
          rcases prints with ⟨fuel, printed⟩
          have more := formatValue_mono (Nat.le_succ fuel) _ _ _ printed
          refine ⟨fuel + 1, ?_⟩
          simp only [Pipeline.formatTuple, isFinal, first, dereference, loads,
            more, Stop.ok_bind, String.intercalate_singleton]
          rfl
  | @more type component rest components isTuple first second tail ih =>
      cases slots with
      | @cons _ _ _ word tv texts loads prints others =>
          rcases prints with ⟨fuel, printed⟩
          rcases ih others (acc ++ tv ++ ", ") with ⟨later, rest⟩
          refine ⟨max fuel later + 1, ?_⟩
          have member := formatValue_mono
            (Nat.le_succ_of_le (Nat.le_max_left fuel later)) _ _ _ printed
          have remaining := formatTuple_mono
            (formatValue_mono
              (Nat.le_succ_of_le (Nat.le_max_right fuel later)))
            (Nat.le_max_right fuel later) rest
          simp only [Pipeline.formatTuple, isTuple, first, second, dereference,
            loads, member, Stop.ok_bind, remaining]
          rw [String.intercalate_cons_of_ne_nil
            (others.nonempty tail.nonempty)]
          simp only [String.append_assoc]

/-- A value prints at a variable as it does at its instance. -/
theorem prints_bound_iff {type instance_ : TypePointer}
    (path : ReflTransGen graph.Bound type instance_) {text : String} :
    Prints graph module memory value type text ↔
      Prints graph module memory value instance_ text := by
  induction path using ReflTransGen.head_induction_on with
  | refl => rfl
  | @head type next bound _ ih =>
      rw [← ih]
      rcases bound with ⟨isVariable, first⟩
      constructor
      · rintro ⟨fuel, prints⟩
        cases fuel with
        | zero => cases prints
        | succ fuel =>
            simp only [formatValue, isVariable, first, dereference,
              Stop.ok_bind] at prints
            exact ⟨fuel, prints⟩
      · rintro ⟨fuel, prints⟩
        refine ⟨fuel + 1, ?_⟩
        simp only [formatValue, isVariable, first, dereference, Stop.ok_bind]
        exact prints

end

/-! ## Numbers and booleans -/

/-- A component that is a number or a boolean, and its text. -/
structure Atom where
  type : TypePointer
  value : UInt64
  text : String

/-- The text is that of the value at its type. -/
def Atom.Right (graph : TypeGraph) (atom : Atom) : Prop :=
  ∃ type, ReflTransGen graph.Bound atom.type type ∧
    ((graph.nodes type).type = .int ∧ atom.text = formatSigned atom.value ∨
      (graph.nodes type).type = .bool ∧
        atom.text = formatBool (atom.value == 0))

section

variable {graph : TypeGraph} {module : Module} {memory : Memory}

theorem Atom.Right.prints {atom : Atom} (right : atom.Right graph) :
    Prints graph module memory (.int atom.value) atom.type atom.text := by
  rcases right with ⟨type, path, kind⟩
  rw [prints_bound_iff path]
  refine ⟨1, ?_⟩
  rcases kind with ⟨isInt, text⟩ | ⟨isBool, text⟩
  · simp only [formatValue, isInt, text]
    rfl
  · simp only [formatValue, isBool, text]
    rfl

end

end Millie.Pipeline
