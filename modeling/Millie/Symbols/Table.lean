import Millie.Foundation.Stop
import Mathlib.Logic.Function.Basic

/-!
# The symbol table

Translation of `symboltable.c`.  Identifiers are interned in an open-addressing
Robin Hood table whose capacity is a power of two; the hash of a byte string
(`MStringHash32`) is a parameter.  Every `for(;;)` loop carries fuel.
-/

namespace Millie.Symbols

/-- The bytes of an `MString`; its length is the list's length. -/
abbrev ByteString := List UInt8

/-- `Symbol` is `uint32_t`. -/
abbrev Symbol := UInt32

/-- `INVALID_SYMBOL`. -/
def invalidSymbol : Symbol := 0

/-- `struct SymbolEntry`; a zeroed entry has a null key. -/
structure SymbolEntry where
  key : Option ByteString
  value : Symbol
deriving DecidableEq

/-- `struct SymbolTable`; the two arrays have `capacity` elements. -/
structure SymbolTable where
  hashes : Nat → UInt32
  entries : Nat → SymbolEntry
  capacity : UInt32
  itemCount : UInt32
  resizeThreshold : UInt32
  mask : UInt32

/-- `MStringEquals`: lengths first, then the bytes. -/
def mStringEquals (a b : ByteString) : Bool :=
  if a.length ≠ b.length then false else a == b

@[simp]
theorem mStringEquals_iff {a b : ByteString} :
    mStringEquals a b = true ↔ a = b := by
  unfold mStringEquals
  by_cases equal : a = b <;> simp [equal]

/-- `_IsDeleted`. -/
def isDeleted (hash : UInt32) : Bool :=
  hash &&& 0x80000000 ≠ 0

/-- `_DesiredPosition`. -/
def desiredPosition (table : SymbolTable) (hash : UInt32) : UInt32 :=
  hash &&& table.mask

/-- `_ProbeDistance`. -/
def probeDistance (table : SymbolTable) (hash slotIndex : UInt32) : UInt32 :=
  let dist := slotIndex + table.capacity
  let dist := dist - desiredPosition table hash
  dist &&& table.mask

/-- `_Allocate`: fresh zeroed arrays for the table's capacity. -/
def allocate (table : SymbolTable) : SymbolTable :=
  { table with
    entries := fun _ => ⟨none, 0⟩
    hashes := fun _ => 0
    resizeThreshold := (table.capacity * 90) / 100
    mask := table.capacity - 1 }

/-- `_SetElement`. -/
def setElement (table : SymbolTable) (pos : UInt32) (hash : UInt32)
    (entry : SymbolEntry) : SymbolTable :=
  { table with
    hashes := Function.update table.hashes pos.toNat hash
    entries := Function.update table.entries pos.toNat entry }

/-- The loop of `_InsertHelper`; `entry` is the key and the value carried. -/
def insertLoop :
    Nat → SymbolTable → UInt32 → SymbolEntry → UInt32 → UInt32 →
      Except Stop SymbolTable
  | 0, _, _, _, _, _ => .error .outOfFuel
  | fuel + 1, table, hash, entry, pos, dist =>
      let existingHash := table.hashes pos.toNat
      if existingHash = 0 then
        .ok (setElement table pos hash entry)
      else
        let existingProbeDist := probeDistance table existingHash pos
        if existingProbeDist < dist then
          if isDeleted existingHash then
            .ok (setElement table pos hash entry)
          else
            insertLoop fuel (setElement table pos hash entry) existingHash
              (table.entries pos.toNat) ((pos + 1) &&& table.mask)
              (existingProbeDist + 1)
        else
          insertLoop fuel table hash entry ((pos + 1) &&& table.mask)
            (dist + 1)

/-- `_InsertHelper`. -/
def insertHelper (fuel : Nat) (table : SymbolTable) (hash : UInt32)
    (entry : SymbolEntry) : Except Stop SymbolTable :=
  insertLoop fuel table hash entry (desiredPosition table hash) 0

/-- The body of `_Grow`'s loop: insert old slot `i` into the new arrays. -/
def growStep (fuel : Nat) (old grown : SymbolTable) (i : Nat) :
    Except Stop SymbolTable :=
  let hash := old.hashes i
  if hash ≠ 0 ∧ isDeleted hash = false then
    insertHelper fuel grown hash (old.entries i)
  else
    .ok grown

/-- `_Grow`: twice the capacity, and every live entry inserted again. -/
def grow (fuel : Nat) (table : SymbolTable) : Except Stop SymbolTable :=
  (List.range table.capacity.toNat).foldlM (growStep fuel table)
    (allocate { table with capacity := table.capacity * 2 })

/-- The loop of `_Find`.  A matching hash over a null key is a null
dereference. -/
def findLoop (table : SymbolTable) (hash : UInt32) (key : ByteString) :
    Nat → UInt32 → UInt32 → Except Stop Symbol
  | 0, _, _ => .error .outOfFuel
  | fuel + 1, pos, dist =>
      let existingHash := table.hashes pos.toNat
      let further := fun () =>
        findLoop table hash key fuel ((pos + 1) &&& table.mask) (dist + 1)
      if existingHash = 0 then
        .ok invalidSymbol
      else if dist > probeDistance table existingHash pos then
        .ok invalidSymbol
      else if hash = existingHash then
        match (table.entries pos.toNat).key with
        | none => .error .undefinedBehaviour
        | some existing =>
            if mStringEquals key existing then
              .ok (table.entries pos.toNat).value
            else further ()
      else further ()

/-- `SymbolTableCreate`. -/
def symbolTableCreate : SymbolTable :=
  allocate
    { hashes := fun _ => 0
      entries := fun _ => ⟨none, 0⟩
      capacity := 256
      itemCount := 0
      resizeThreshold := 0
      mask := 0 }

/-- `FindSymbolKey`: the first live entry with the symbol as its value. -/
def findSymbolKey (table : SymbolTable) (symbol : Symbol) :
    Option ByteString :=
  (List.range table.capacity.toNat).findSome? fun i =>
    if table.hashes i = 0 ∨ isDeleted (table.hashes i) = true then none
    else if (table.entries i).value = symbol then (table.entries i).key
    else none

section Hashing

variable (hash32 : ByteString → UInt32)

/-- `_HashString`: clear the tombstone bit and never return the empty mark. -/
def hashString (string : ByteString) : UInt32 :=
  let hash := hash32 string &&& 0x7FFFFFFF
  if hash = 0 then 1 else hash

/-- `_Find`. -/
def find (fuel : Nat) (table : SymbolTable) (key : ByteString) :
    Except Stop Symbol :=
  let hash := hashString hash32 key
  findLoop table hash key fuel (desiredPosition table hash) 0

/-- `FindOrCreateSymbol`. -/
def findOrCreateSymbol (fuel : Nat) (table : SymbolTable)
    (key : ByteString) : Except Stop (Symbol × SymbolTable) := do
  let symbol ← find hash32 fuel table key
  if symbol ≠ invalidSymbol then
    return (symbol, table)
  let table := { table with itemCount := table.itemCount + 1 }
  let symbol := table.itemCount
  let table ← (if table.itemCount ≥ table.resizeThreshold
    then grow fuel table else .ok table : Except Stop SymbolTable)
  let table ← insertHelper fuel table (hashString hash32 key)
    ⟨some key, symbol⟩
  return (symbol, table)

/-- A sequence of `FindOrCreateSymbol` calls. -/
def findOrCreateSymbols (fuel : Nat) :
    SymbolTable → List ByteString → Except Stop (List Symbol × SymbolTable)
  | table, [] => .ok ([], table)
  | table, key :: keys => do
      let (symbol, table) ← findOrCreateSymbol hash32 fuel table key
      let (symbols, table) ← findOrCreateSymbols fuel table keys
      return (symbol :: symbols, table)

end Hashing

end Millie.Symbols
