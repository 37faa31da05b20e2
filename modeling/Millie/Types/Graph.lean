import Millie.Foundation.Stop
import Mathlib.Logic.Function.Basic

/-!
# The type graph

Translation of `struct TypeExp` and of the operations on type nodes in
`typecheck.c`: pruning, the containment search, making types generic and fresh,
and formatting.  Type nodes live in a graph that allocation extends; the two
unions of a node are its two links.  Every operation that follows links takes
fuel, so that a search that never returns runs out of it.
-/

namespace Millie.Types

/-- `TypeExpType`. -/
inductive TypeExpType where
  | invalid
  | error
  | variable_
  | genericVariable
  | func
  | int
  | bool
  | tuple
  | tupleFinal
deriving DecidableEq, Repr

/-- A `struct TypeExp *` that is not null. -/
abbrev TypePointer := Nat

/--
The second union of a node: a type, or while a type is formatted the name that
`var_temp_other` holds instead.
-/
inductive Link where
  | null
  | type (pointer : TypePointer)
  | name (text : String)
deriving DecidableEq, Repr

/--
`struct TypeExp`.  `first` is `arg_first`, `func_from`, `tuple_first` or
`var_instance`; `second` is `arg_second`, `func_to`, `tuple_rest` or
`var_temp_other`.
-/
structure TypeExp where
  type : TypeExpType
  first : Option TypePointer
  second : Link
deriving DecidableEq, Repr

/-- The type nodes and how many of them there are. -/
structure TypeGraph where
  nodes : Nat → TypeExp
  size : Nat

/-- `_IntegerTypeExp`. -/
def integerTypeExp : TypePointer := 0

/-- `_BooleanTypeExp`. -/
def booleanTypeExp : TypePointer := 1

/-- `_ErrorTypeExp`. -/
def errorTypeExp : TypePointer := 2

/-- A graph with the three static nodes. -/
def staticGraph : TypeGraph where
  nodes
    | 0 => ⟨.int, none, .null⟩
    | 1 => ⟨.bool, none, .null⟩
    | 2 => ⟨.error, none, .null⟩
    | _ => ⟨.invalid, none, .null⟩
  size := 3

/-- A step on the type graph. -/
abbrev GraphM := StateT TypeGraph (Except Stop)

/-- Stop without a result. -/
def stop {α : Type} (reason : Stop) : GraphM α := fun _ =>
  .error reason

/-- Read a node. -/
def node (type : TypePointer) : GraphM TypeExp := fun graph =>
  .ok (graph.nodes type, graph)

/-- Allocate a node; `ArenaAllocate` is assumed to serve every one. -/
def allocate (contents : TypeExp) : GraphM TypePointer := fun graph =>
  .ok (graph.size,
    ⟨Function.update graph.nodes graph.size contents, graph.size + 1⟩)

/-- Set `var_temp_other`. -/
def setVarTempOther (type : TypePointer) (other : Link) : GraphM Unit :=
  fun graph => .ok ((), { graph with
    nodes := Function.update graph.nodes type
      { graph.nodes type with second := other } })

/-- Set `var_instance`. -/
def setVarInstance (type instance_ : TypePointer) : GraphM Unit :=
  fun graph => .ok ((), { graph with
    nodes := Function.update graph.nodes type
      { graph.nodes type with first := some instance_ } })

/-- `_IsErrorType`. -/
def isErrorType (type : TypePointer) : GraphM Bool := do
  return type = errorTypeExp || (← node type).type = .error

/-- `_MakeFunctionType`. -/
def makeFunctionType (fromType toType : TypePointer) : GraphM TypePointer :=
  allocate ⟨.func, some fromType, .type toType⟩

/-- `_MakeTupleType`. -/
def makeTupleType (firstType restType : TypePointer) : GraphM TypePointer :=
  allocate ⟨.tuple, some firstType, .type restType⟩

/-- `_MakeTupleFinalType`. -/
def makeTupleFinalType (firstType : TypePointer) : GraphM TypePointer :=
  allocate ⟨.tupleFinal, some firstType, .null⟩

/-- `_MakeTypeVar`. -/
def makeTypeVar : GraphM TypePointer :=
  allocate ⟨.variable_, none, .null⟩

/-! ## Following links -/

/-- `_PruneTypeExp` of a type. -/
def pruneTypeExp : Nat → TypePointer → GraphM TypePointer
  | 0, _ => stop .outOfFuel
  | fuel + 1, type => do
      let exp ← node type
      match exp.type, exp.first with
      | .variable_, some instance_ => pruneTypeExp fuel instance_
      | _, _ => return type

/-- `_IsTypeContainedWithin`; a name is no type to search. -/
def isTypeContainedWithin (a : TypePointer) : Nat → TypePointer → GraphM Bool
  | 0, _ => stop .outOfFuel
  | fuel + 1, b => do
      if a = b then
        return true
      let exp ← node b
      let inFirst ← match exp.first with
        | none => pure false
        | some argFirst => isTypeContainedWithin a fuel argFirst
      if inFirst then
        return true
      match exp.second with
      | .null => return false
      | .type argSecond => isTypeContainedWithin a fuel argSecond
      | .name _ => stop .undefinedBehaviour

/-- `_IsTypeNonGeneric`. -/
def isTypeNonGeneric (fuel : Nat) (a : TypePointer) :
    List TypePointer → GraphM Bool
  | [] => return false
  | type :: nonGenerics => do
      if ← isTypeContainedWithin a fuel type then
        return true
      else
        isTypeNonGeneric fuel a nonGenerics

/-- `_CleanupTypeVariables` of a type. -/
def cleanupTypeVariables : Nat → TypePointer → GraphM Unit
  | 0, _ => stop .outOfFuel
  | fuel + 1, type => do
      let type ← pruneTypeExp fuel type
      let exp ← node type
      if exp.type = .variable_ || exp.type = .genericVariable then
        setVarTempOther type .null
      else
        match exp.first with
        | none => pure ()
        | some argFirst => cleanupTypeVariables fuel argFirst
        match exp.second with
        | .null => return ()
        | .type argSecond => cleanupTypeVariables fuel argSecond
        | .name _ => stop .undefinedBehaviour

/-! ## Generic and fresh types -/

/--
The node cases that `_MakeGenericTypeExpImpl` and `_MakeFreshTypeExpCopy` share:
convert the arguments, and allocate a new node only if one of them changed.
-/
def convertArguments (convert : TypePointer → GraphM TypePointer)
    (type : TypePointer) (exp : TypeExp) : GraphM TypePointer := do
  match exp.type, exp.first, exp.second with
  | .func, some first, .type second | .tuple, some first, .type second => do
      let argFirst ← convert first
      let argSecond ← convert second
      if argFirst = first ∧ argSecond = second then
        return type
      else
        allocate ⟨exp.type, some argFirst, .type argSecond⟩
  | .tupleFinal, some first, _ => do
      let argFirst ← convert first
      if argFirst = first then
        return type
      else
        allocate ⟨exp.type, some argFirst, .null⟩
  | .func, _, _ | .tuple, _, _ | .tupleFinal, _, _ =>
      stop .undefinedBehaviour
  | _, _, _ => return type

/-- `_MakeGenericTypeExpImpl`. -/
def makeGenericTypeExpImpl (nonGenerics : List TypePointer) :
    Nat → TypePointer → GraphM TypePointer
  | 0, _ => stop .outOfFuel
  | fuel + 1, type => do
      let type ← pruneTypeExp fuel type
      let exp ← node type
      match exp.type with
      | .variable_ =>
          match exp.second with
          | .type other => return other
          | .name _ => stop .undefinedBehaviour
          | .null => do
              if ← isTypeNonGeneric fuel type nonGenerics then
                setVarTempOther type (.type type)
                return type
              else
                let result ← allocate ⟨.genericVariable, none, .null⟩
                setVarTempOther type (.type result)
                return result
      | _ => convertArguments (makeGenericTypeExpImpl nonGenerics fuel) type exp

/-- `_MakeGenericTypeExp`. -/
def makeGenericTypeExp (fuel : Nat) (type : TypePointer)
    (nonGenerics : List TypePointer) : GraphM TypePointer := do
  let result ← makeGenericTypeExpImpl nonGenerics fuel type
  cleanupTypeVariables fuel type
  return result

/-- `_MakeFreshTypeExpCopy`. -/
def makeFreshTypeExpCopy : Nat → TypePointer → GraphM TypePointer
  | 0, _ => stop .outOfFuel
  | fuel + 1, type => do
      let type ← pruneTypeExp fuel type
      let exp ← node type
      match exp.type with
      | .genericVariable =>
          match exp.second with
          | .type other => return other
          | .name _ => stop .undefinedBehaviour
          | .null => do
              let result ← makeTypeVar
              setVarTempOther type (.type result)
              return result
      | .variable_ => return type
      | _ => convertArguments (makeFreshTypeExpCopy fuel) type exp

/-- `_MakeFreshTypeExp`. -/
def makeFreshTypeExp (fuel : Nat) (type : TypePointer) :
    GraphM TypePointer := do
  let freshType ← makeFreshTypeExpCopy fuel type
  cleanupTypeVariables fuel type
  return freshType

/-! ## Formatting -/

/-- `type_names`. -/
def typeNames : List String :=
  ["A", "B", "C", "D", "E", "F", "G", "H", "I", "J", "K", "L", "M", "N", "O",
    "P", "Q", "R"]

/-- `_FormatTypeExpressionImpl`: the text and the counter. -/
def formatTypeExpressionImpl :
    Nat → TypePointer → Nat → GraphM (String × Nat)
  | 0, _, _ => stop .outOfFuel
  | fuel + 1, type, counter => do
      let type ← pruneTypeExp fuel type
      let exp ← node type
      match exp.type, exp.first, exp.second with
      | .error, _, _ => return ("\x7b\x7bError\x7d\x7d", counter)
      | .variable_, _, .name name | .genericVariable, _, .name name =>
          return (name, counter)
      | .variable_, _, .null | .genericVariable, _, .null =>
          match typeNames[counter]? with
          | none => stop .undefinedBehaviour
          | some letter => do
              let name := "'" ++ letter
              setVarTempOther type (.name name)
              return (name, counter + 1)
      | .int, _, _ => return ("int", counter)
      | .bool, _, _ => return ("bool", counter)
      | .func, some first, .type second => do
          let (from_, counter) ← formatTypeExpressionImpl fuel first counter
          let (to_, counter) ← formatTypeExpressionImpl fuel second counter
          return ("( " ++ from_ ++ " -> " ++ to_ ++ " )", counter)
      | .tuple, some first, .type second => do
          let (left, counter) ← formatTypeExpressionImpl fuel first counter
          let (right, counter) ← formatTypeExpressionImpl fuel second counter
          return (left ++ " * " ++ right, counter)
      | .tupleFinal, some first, _ =>
          formatTypeExpressionImpl fuel first counter
      | .invalid, _, _ => return ("\x7b\x7bInvalid\x7d\x7d", counter)
      | _, _, _ => stop .undefinedBehaviour

/-- `FormatTypeExpression`. -/
def formatTypeExpression (fuel : Nat) (type : TypePointer) :
    GraphM String := do
  let (text, _) ← formatTypeExpressionImpl fuel type 0
  cleanupTypeVariables fuel type
  return text

end Millie.Types
