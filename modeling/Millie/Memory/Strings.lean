import Millie.Foundation.Sharing
import Millie.Foundation.Stop
import Mathlib.Data.List.Basic

/-!
# Strings that are shared

Translation of `string.c`: strings on the heap that count the references to
them, and strings on the stack whose count is minus one.  A client whose
variables get their strings from these functions and give them back with
`MStringFree` may take them for values: it never uses a string that has been
freed, and a string is freed with the last variable that holds it.
-/

namespace Millie.Memory

open Sharing

/-! ## The translation -/

/-- `struct MString`; `str` is the memory to which its pointer leads. -/
structure MString where
  references : Int
  length : UInt32
  str : List UInt8
deriving DecidableEq

/-- The strings at their addresses; addresses from `next` on are unused. -/
structure StringHeap where
  cells : Nat → Option MString
  next : Nat

namespace StringHeap

def empty : StringHeap :=
  ⟨fun _ => none, 0⟩

/-- A string at an unused address. -/
def add (heap : StringHeap) (string : MString) : StringHeap :=
  ⟨Function.update heap.cells heap.next (some string), heap.next + 1⟩

def store (heap : StringHeap) (p : Nat) (string : MString) : StringHeap :=
  { heap with cells := Function.update heap.cells p (some string) }

/-- `free`. -/
def release (heap : StringHeap) (p : Nat) : StringHeap :=
  { heap with cells := Function.update heap.cells p none }

def load (heap : StringHeap) (p : Nat) : Except Stop MString :=
  match heap.cells p with
  | some string => .ok string
  | none => .error .undefinedBehaviour

end StringHeap

/-- `sizeof(struct MString)`. -/
def mStringSize : Nat := 16

/-- `alloc_size` of `_MStringAlloc`. -/
def allocSize (length : UInt32) : UInt32 :=
  let stringLength := length + 1
  UInt32.ofNat (mStringSize + stringLength.toNat)

/-- `_MStringAlloc`: a string whose buffer is zero. -/
def mStringAlloc (length : UInt32) (heap : StringHeap) :
    Except Stop (Nat × StringHeap) :=
  if (allocSize length).toNat < mStringSize then .error .undefinedBehaviour
  else .ok (heap.next, heap.add ⟨1, length,
    List.replicate ((allocSize length).toNat - mStringSize) 0⟩)

/-- `memcpy` between two pieces of memory. -/
def memcpy (target source : List UInt8) (size : Nat) :
    Except Stop (List UInt8) :=
  if target.length < size ∨ source.length < size then
    .error .undefinedBehaviour
  else .ok (source.take size ++ target.drop size)

/-- `MStringCreateN`. -/
def mStringCreateN (str : List UInt8) (length : UInt32) (heap : StringHeap) :
    Except Stop (Nat × StringHeap) := do
  let (result, heap) ← mStringAlloc length heap
  let string ← heap.load result
  let buffer ← memcpy string.str str length.toNat
  return (result, heap.store result { string with str := buffer })

/-- `strlen` of a piece of memory. -/
def strlen (str : List UInt8) : Nat :=
  (str.takeWhile (· ≠ 0)).length

/-- `MStringCreate`. -/
def mStringCreate (str : List UInt8) (heap : StringHeap) :
    Except Stop (Nat × StringHeap) :=
  mStringCreateN str (UInt32.ofNat (strlen str)) heap

/-- `MStringCreateStatic`, with a block of the caller's. -/
def mStringCreateStatic (str : List UInt8) (heap : StringHeap) :
    Nat × StringHeap :=
  (heap.next, heap.add ⟨-1, UInt32.ofNat (strlen str), str⟩)

/-- `MStringFree`: what the variable holds then. -/
def mStringFree (string : Option Nat) (heap : StringHeap) :
    Except Stop (Option Nat × StringHeap) :=
  match string with
  | none => .ok (none, heap)
  | some p => do
      let string ← heap.load p
      if string.references = -1 then .ok (none, heap)
      else
        let references := string.references - 1
        if references = 0 then .ok (none, heap.release p)
        else .ok (none, heap.store p { string with references := references })

/-- `INT_MAX`. -/
def intMax : Int := 2147483647

/-- `MStringCopy`. -/
def mStringCopy (string : Option Nat) (heap : StringHeap) :
    Except Stop (Option Nat × StringHeap) :=
  match string with
  | none => .ok (none, heap)
  | some p => do
      let string ← heap.load p
      if string.references = -1 then
        let (result, heap) ← mStringCreateN string.str string.length heap
        return (some result, heap)
      else if string.references = intMax then .error .undefinedBehaviour
      else
        return (some p, heap.store p
          { string with references := string.references + 1 })

/-! ## Clients -/

/-- A statement about the string variables of a client. -/
inductive StringCall (V : Type) where
  | createN (x : V) (str : List UInt8) (length : UInt32)
  | create (x : V) (str : List UInt8)
  | createStatic (x : V) (str : List UInt8)
  | copy (x y : V)
  | free (x : V)

/-- A client: what its variables point to, and the heap. -/
structure StringClient (V : Type) where
  vars : V → Option Nat
  heap : StringHeap

section

variable {V : Type} [DecidableEq V]

/-- An assignment to a variable. -/
def StringClient.assign (client : StringClient V) (x : V) (value : Option Nat)
    (heap : StringHeap) : StringClient V :=
  ⟨Function.update client.vars x value, heap⟩

@[simp]
theorem StringClient.assign_vars (client : StringClient V) (x : V)
    (value : Option Nat) (heap : StringHeap) :
    (client.assign x value heap).vars = Function.update client.vars x value :=
  rfl

@[simp]
theorem StringClient.assign_heap (client : StringClient V) (x : V)
    (value : Option Nat) (heap : StringHeap) :
    (client.assign x value heap).heap = heap :=
  rfl

/-- A statement is executed. -/
def StringCall.run (client : StringClient V) :
    StringCall V → Except Stop (StringClient V)
  | .createN x str length => do
      let (p, heap) ← mStringCreateN str length client.heap
      return client.assign x (some p) heap
  | .create x str => do
      let (p, heap) ← mStringCreate str client.heap
      return client.assign x (some p) heap
  | .createStatic x str =>
      let (p, heap) := mStringCreateStatic str client.heap
      return client.assign x (some p) heap
  | .copy x y => do
      let (value, heap) ← mStringCopy (client.vars y) client.heap
      return client.assign x value heap
  | .free x => do
      let (value, heap) ← mStringFree (client.vars x) client.heap
      return client.assign x value heap

/-- One statement after another. -/
def runStrings (client : StringClient V) :
    List (StringCall V) → Except Stop (StringClient V)
  | [] => .ok client
  | call :: rest => do
      let client ← call.run client
      runStrings client rest

/-! ## Strings as values -/

/-- What a statement does to variables that hold the bytes themselves. -/
def StringCall.meaning (values : V → Option (List UInt8)) :
    StringCall V → V → Option (List UInt8)
  | .createN x str length =>
      Function.update values x (some (str.take length.toNat))
  | .create x str | .createStatic x str =>
      Function.update values x (some (str.takeWhile (· ≠ 0)))
  | .copy x y => Function.update values x (values y)
  | .free x => Function.update values x none

/--
A variable is null before it is assigned, a string ends inside its memory and
is short enough for `_MStringAlloc`, and fewer than `INT_MAX` variables hold
something when a string is copied.
-/
def StringCall.Tidy (values : V → Option (List UInt8)) : StringCall V → Prop
  | .createN x str length =>
      values x = none ∧ length.toNat ≤ str.length ∧
        length.toNat + mStringSize + 1 < 2 ^ 32
  | .create x str | .createStatic x str =>
      values x = none ∧ 0 ∈ str ∧ strlen str + mStringSize + 1 < 2 ^ 32
  | .copy x _ => values x = none ∧ (occupied values).ncard < intMax
  | .free _ => True

/-- Every statement is tidy where it is executed. -/
def TidyRun (values : V → Option (List UInt8)) : List (StringCall V) → Prop
  | [] => True
  | call :: rest => call.Tidy values ∧ TidyRun (call.meaning values) rest

/-- What the variables hold after the statements. -/
def meanings (values : V → Option (List UInt8)) :
    List (StringCall V) → V → Option (List UInt8)
  | [] => values
  | call :: rest => meanings (call.meaning values) rest

end

/-- The bytes of a string. -/
def MString.text (string : MString) : List UInt8 :=
  string.str.take string.length.toNat

/-- The bytes of the string at an address. -/
def StringHeap.text (heap : StringHeap) (p : Nat) : Option (List UInt8) :=
  (heap.cells p).map MString.text

/-- The bytes to which a variable points. -/
def StringClient.denoted {V : Type} (client : StringClient V) (x : V) :
    Option (List UInt8) :=
  (client.vars x).bind client.heap.text

/-! ## The invariant -/

/-- A string ends inside its memory, with a zero after it. -/
structure MString.Sound (string : MString) : Prop where
  terminated : string.str[string.length.toNat]? = some 0
  short : string.length.toNat + mStringSize + 1 < 2 ^ 32

/-- The count of a string that is no static one is that of its variables. -/
def MString.Counted {V : Type} (string : MString) (vars : V → Option Nat)
    (p : Nat) : Prop :=
  string.references = -1 ∨
    string.references = (holders vars p).ncard ∧ 0 < (holders vars p).ncard

/-- What holds of a client between its statements. -/
structure StringClient.Owned {V : Type} (client : StringClient V) : Prop where
  finite : (occupied client.vars).Finite
  unused : ∀ p, client.heap.next ≤ p → client.heap.cells p = none
  live : ∀ x p, client.vars x = some p → client.heap.cells p ≠ none
  sound : ∀ p string, client.heap.cells p = some string → string.Sound
  counted : ∀ p string, client.heap.cells p = some string →
    string.Counted client.vars p

namespace StringClient.Owned

variable {V : Type} {client : StringClient V} {x : V} {p : Nat}
  {string : MString}

theorem empty : (⟨fun _ => none, StringHeap.empty⟩ : StringClient V).Owned := by
  constructor
  · have none_ : occupied (fun _ : V => (none : Option Nat)) = ∅ := by
      ext y
      simp
    rw [none_]
    exact Set.finite_empty
  · exact fun p _ => rfl
  · intro x p holds
    cases holds
  · intro p string found
    cases found
  · intro p string found
    cases found

/-- A variable points to a string. -/
theorem points (owned : client.Owned) (holds : client.vars x = some p) :
    ∃ string, client.heap.cells p = some string :=
  Option.ne_none_iff_exists'.mp (owned.live x p holds)

theorem lt_next (owned : client.Owned) (holds : client.vars x = some p) :
    p < client.heap.next := by
  by_contra outside
  exact owned.live x p holds (owned.unused p (Nat.not_lt.mp outside))

/-- A variable denotes bytes exactly if it points to a string. -/
theorem occupied_denoted (owned : client.Owned) :
    occupied client.denoted = occupied client.vars := by
  ext y
  rw [mem_occupied, mem_occupied, StringClient.denoted]
  cases holds : client.vars y with
  | none => simp
  | some p =>
      rcases owned.points holds with ⟨string, found⟩
      simp [StringHeap.text, found]

theorem vars_eq_none (owned : client.Owned)
    (null : client.denoted x = none) : client.vars x = none := by
  by_contra holds
  have member : x ∈ occupied client.vars := holds
  rw [← owned.occupied_denoted] at member
  exact member null

variable [DecidableEq V]

/-- Variables that a change of the heap leaves alone denote the same. -/
theorem denoted_assign {value : Option Nat} {heap : StringHeap}
    (kept : ∀ y p, y ≠ x → client.vars y = some p →
      heap.text p = client.heap.text p) :
    (client.assign x value heap).denoted =
      Function.update client.denoted x (value.bind heap.text) := by
  funext y
  by_cases same : y = x
  · subst same
    simp [StringClient.denoted, StringClient.assign]
  · rw [Function.update_of_ne same, StringClient.denoted, assign_vars,
      Function.update_of_ne same, StringClient.denoted]
    cases holds : client.vars y with
    | none => rfl
    | some p => exact kept y p same holds

/-- A new string is assigned to a variable that held nothing. -/
theorem add (owned : client.Owned) (null : client.vars x = none)
    (sound : string.Sound)
    (one : string.references = -1 ∨ string.references = 1) :
    (client.assign x (some client.heap.next) (client.heap.add string)).Owned ∧
      (client.assign x (some client.heap.next)
        (client.heap.add string)).denoted =
          Function.update client.denoted x (some string.text) := by
  have here : (client.heap.add string).cells client.heap.next = some string :=
    Function.update_self ..
  have there : ∀ p ≠ client.heap.next,
      (client.heap.add string).cells p = client.heap.cells p :=
    fun p other => Function.update_of_ne other ..
  have holdsOther : ∀ y, client.vars y ≠ some client.heap.next :=
    fun y holds => Nat.lt_irrefl _ (owned.lt_next holds)
  refine ⟨⟨?_, ?_, ?_, ?_, ?_⟩, ?_⟩
  · exact finite_update owned.finite x _
  · intro p above
    have other : p ≠ client.heap.next := Nat.ne_of_gt above
    exact (there p other).trans (owned.unused p (Nat.le_of_succ_le above))
  · intro y p holds
    by_cases same : p = client.heap.next
    · rw [same]
      exact fun none_ => Option.some_ne_none string (here.symm.trans none_)
    · by_cases assigned : y = x
      · subst assigned
        rw [assign_vars, Function.update_self] at holds
        exact absurd (Option.some.inj holds).symm same
      · rw [assign_vars, Function.update_of_ne assigned] at holds
        rw [assign_heap, there p same]
        exact owned.live y p holds
  · intro p other found
    by_cases same : p = client.heap.next
    · subst same
      cases here.symm.trans found
      exact sound
    · exact owned.sound p other ((there p same).symm.trans found)
  · intro p other found
    by_cases same : p = client.heap.next
    · subst same
      cases here.symm.trans found
      refine one.imp id fun isOne => ?_
      have none_ : (holders client.vars client.heap.next).ncard = 0 := by
        have empty : holders client.vars client.heap.next = ∅ :=
          Set.eq_empty_iff_forall_notMem.mpr holdsOther
        rw [empty, Set.ncard_empty]
      have count := count_take owned.finite null client.heap.next
      rw [none_] at count
      rw [assign_vars, count, isOne]
      exact ⟨rfl, Nat.one_pos⟩
    · have counted := owned.counted p other ((there p same).symm.trans found)
      rw [MString.Counted, assign_vars, holders_update_other
        (by rw [null]; exact (Option.some_ne_none p).symm)
        (fun equal => same (Option.some.inj equal).symm)]
      exact counted
  · rw [denoted_assign, Option.bind_some, StringHeap.text, here]
    · rfl
    · intro y p _ holds
      have other := Nat.ne_of_lt (owned.lt_next holds)
      rw [StringHeap.text, StringHeap.text, there p other]

/-- One variable takes or drops a reference, and its string is counted anew. -/
theorem recount (owned : client.Owned) {value : Option Nat} {heap : StringHeap}
    (before : client.vars x = none ∨ client.vars x = some p)
    (after : value = none ∨ value = some p)
    (next : heap.next = client.heap.next)
    (there : ∀ q ≠ p, heap.cells q = client.heap.cells q)
    (used : p < client.heap.next)
    (gone : heap.cells p = none →
      holders (client.assign x value heap).vars p = ∅)
    (here : ∀ string, heap.cells p = some string →
      string.Sound ∧ string.Counted (client.assign x value heap).vars p) :
    (client.assign x value heap).Owned := by
  constructor
  · exact finite_update owned.finite x _
  · intro q above
    rw [assign_heap, next] at above
    exact (there q (Nat.ne_of_gt (Nat.lt_of_lt_of_le used above))).trans
      (owned.unused q above)
  · intro y q holds none_
    by_cases same : q = p
    · subst same
      have member : y ∈ holders (client.assign x value heap).vars q := holds
      rw [gone none_] at member
      exact member
    · by_cases assigned : y = x
      · subst assigned
        rw [assign_vars, Function.update_self] at holds
        rcases after with isNone | isSome
        · exact absurd (isNone.symm.trans holds) (Option.some_ne_none q).symm
        · exact same (Option.some.inj (isSome.symm.trans holds)).symm
      · rw [assign_vars, Function.update_of_ne assigned] at holds
        exact owned.live y q holds ((there q same).symm.trans none_)
  · intro q string found
    by_cases same : q = p
    · subst same
      exact (here string found).1
    · exact owned.sound q string ((there q same).symm.trans found)
  · intro q string found
    by_cases same : q = p
    · subst same
      exact (here string found).2
    · rw [MString.Counted, assign_vars, holders_update_other]
      · exact owned.counted q string ((there q same).symm.trans found)
      · rcases before with isNone | isSome
        · rw [isNone]
          exact (Option.some_ne_none q).symm
        · rw [isSome]
          exact fun equal => same (Option.some.inj equal).symm
      · rcases after with rfl | rfl
        · exact (Option.some_ne_none q).symm
        · exact fun equal => same (Option.some.inj equal).symm

/-- The count of a string is set to that of its variables. -/
theorem setCount (owned : client.Owned) {value : Option Nat} {count : Int}
    (before : client.vars x = none ∨ client.vars x = some p)
    (after : value = none ∨ value = some p)
    (found : client.heap.cells p = some string)
    (used : p < client.heap.next)
    (counts : count =
        (holders (Function.update client.vars x value) p).ncard ∧
      0 < (holders (Function.update client.vars x value) p).ncard) :
    (client.assign x value (client.heap.store p
        { string with references := count })).Owned ∧
      (client.assign x value (client.heap.store p
        { string with references := count })).denoted =
          Function.update client.denoted x (value.bind client.heap.text) := by
  have here : (client.heap.store p { string with references := count }).cells p
      = some { string with references := count } :=
    Function.update_self ..
  have there : ∀ q ≠ p, (client.heap.store p
      { string with references := count }).cells q = client.heap.cells q :=
    fun q other => Function.update_of_ne other ..
  have same : (client.heap.store p { string with references := count }).text =
      client.heap.text := by
    funext q
    by_cases equal : q = p
    · subst equal
      rw [StringHeap.text, StringHeap.text, here, found]
      rfl
    · rw [StringHeap.text, StringHeap.text, there q equal]
  have sound := owned.sound p string found
  refine ⟨owned.recount before after rfl there used ?_ ?_, ?_⟩
  · intro none_
    rw [here] at none_
    cases none_
  · intro other equal
    cases here.symm.trans equal
    exact ⟨⟨sound.terminated, sound.short⟩, .inr counts⟩
  · rw [denoted_assign, same]
    exact fun _ q _ _ => congrFun same q

/-- A variable that held nothing shares a string. -/
theorem share (owned : client.Owned) (null : client.vars x = none) {y : V}
    (holds : client.vars y = some p)
    (found : client.heap.cells p = some string)
    (dynamic : string.references ≠ -1) :
    (client.assign x (some p) (client.heap.store p
        { string with references := string.references + 1 })).Owned ∧
      (client.assign x (some p) (client.heap.store p
        { string with references := string.references + 1 })).denoted =
          Function.update client.denoted x (client.denoted y) := by
  have counted := (owned.counted p string found).resolve_left dynamic
  have denotes : client.denoted y = (some p).bind client.heap.text := by
    rw [StringClient.denoted, holds]
  rw [denotes]
  refine owned.setCount (.inl null) (.inr rfl) found (owned.lt_next holds) ?_
  rw [count_take owned.finite null, counted.1]
  exact ⟨rfl, Nat.succ_pos _⟩

/-- A variable that shares its string with others drops it. -/
theorem unshare (owned : client.Owned) (holds : client.vars x = some p)
    (found : client.heap.cells p = some string)
    (dynamic : string.references ≠ -1) (more : string.references - 1 ≠ 0) :
    (client.assign x none (client.heap.store p
        { string with references := string.references - 1 })).Owned ∧
      (client.assign x none (client.heap.store p
        { string with references := string.references - 1 })).denoted =
          Function.update client.denoted x none := by
  have exact_ := (owned.counted p string found).resolve_left dynamic
  have count := count_drop owned.finite holds
  exact owned.setCount (.inr holds) (.inl rfl) found (owned.lt_next holds)
    (by omega)

/-- The last variable that holds a string drops it. -/
theorem release (owned : client.Owned) (holds : client.vars x = some p)
    (found : client.heap.cells p = some string)
    (dynamic : string.references ≠ -1) (last : string.references - 1 = 0) :
    (client.assign x none (client.heap.release p)).Owned ∧
      (client.assign x none (client.heap.release p)).denoted =
        Function.update client.denoted x none := by
  have here : (client.heap.release p).cells p = none :=
    Function.update_self ..
  have there : ∀ q ≠ p, (client.heap.release p).cells q =
      client.heap.cells q :=
    fun q other => Function.update_of_ne other ..
  have counted := (owned.counted p string found).resolve_left dynamic
  have nobody : holders (Function.update client.vars x none) p = ∅ := by
    have count := count_drop owned.finite holds
    have exact_ := counted.1
    refine (Set.ncard_eq_zero ((finite_update owned.finite x none).subset
      (holders_subset _ p))).mp ?_
    omega
  refine ⟨owned.recount (.inr holds) (.inl rfl) rfl there (owned.lt_next holds)
    (fun _ => nobody) ?_, ?_⟩
  · intro other same
    cases here.symm.trans same
  · rw [denoted_assign, Option.bind_none]
    intro z q other pointed
    by_cases same : q = p
    · subst same
      have member : z ∈ holders (Function.update client.vars x none) q := by
        rw [mem_holders, Function.update_of_ne other, pointed]
      rw [nobody] at member
      exact member.elim
    · rw [StringHeap.text, StringHeap.text, there q same]

/-- A variable that holds nothing, or a static string, is made null. -/
theorem forget (owned : client.Owned)
    (static : ∀ p string, client.vars x = some p →
      client.heap.cells p = some string → string.references = -1) :
    (client.assign x none client.heap).Owned ∧
      (client.assign x none client.heap).denoted =
        Function.update client.denoted x none := by
  refine ⟨⟨finite_update owned.finite x _, owned.unused, ?_, owned.sound, ?_⟩,
    denoted_assign fun _ _ _ _ => rfl⟩
  · intro y q holds
    by_cases assigned : y = x
    · subst assigned
      rw [assign_vars, Function.update_self] at holds
      cases holds
    · rw [assign_vars, Function.update_of_ne assigned] at holds
      exact owned.live y q holds
  · intro q string found
    by_cases holds : client.vars x = some q
    · exact .inl (static q string holds found)
    · rw [MString.Counted, assign_vars,
        holders_update_other holds (Option.some_ne_none q).symm]
      exact owned.counted q string found

end StringClient.Owned

/-! ## The functions -/

section

variable {str : List UInt8} {length : UInt32} {heap : StringHeap}

theorem allocSize_eq (short : length.toNat + mStringSize + 1 < 2 ^ 32) :
    (allocSize length).toNat = mStringSize + (length.toNat + 1) := by
  unfold mStringSize at *
  have more : (length + 1).toNat = length.toNat + 1 := by
    rw [UInt32.toNat_add]
    exact Nat.mod_eq_of_lt (show length.toNat + 1 < 2 ^ 32 by omega)
  rw [allocSize, more, UInt32.toNat_ofNat']
  exact Nat.mod_eq_of_lt (show 16 + (length.toNat + 1) < 2 ^ 32 by omega)

/-- A string is created with the bytes that it is given, and a zero. -/
theorem mStringCreateN_eq (inside : length.toNat ≤ str.length)
    (short : length.toNat + mStringSize + 1 < 2 ^ 32) :
    mStringCreateN str length heap = .ok (heap.next,
      heap.add ⟨1, length, str.take length.toNat ++ [0]⟩) := by
  have large : ¬ mStringSize + (length.toNat + 1) < mStringSize := by omega
  have loaded : ∀ string, (heap.add string).load heap.next = .ok string := by
    intro string
    simp [StringHeap.load, StringHeap.add]
  have stored : ∀ first second,
      (heap.add first).store heap.next second = heap.add second := by
    intro first second
    rw [StringHeap.store, StringHeap.add, StringHeap.add,
      Function.update_idem]
  have fits : ¬ ((List.replicate (length.toNat + 1) (0 : UInt8)).length <
      length.toNat ∨ str.length < length.toNat) := by
    rw [List.length_replicate]
    omega
  have rest : (List.replicate (length.toNat + 1) (0 : UInt8)).drop
      length.toNat = [0] := by
    rw [List.drop_replicate, Nat.add_sub_cancel_left]
    rfl
  rw [mStringCreateN, mStringAlloc, allocSize_eq short, if_neg large,
    Nat.add_sub_cancel_left]
  simp only [Stop.ok_bind, loaded, memcpy, if_neg fits, rest, stored]
  rfl

theorem sound_created (references : Int) (inside : length.toNat ≤ str.length)
    (short : length.toNat + mStringSize + 1 < 2 ^ 32) :
    (MString.mk references length (str.take length.toNat ++ [0])).Sound := by
  have size : (str.take length.toNat).length = length.toNat := by
    rw [List.length_take, Nat.min_eq_left inside]
  refine ⟨?_, short⟩
  rw [List.getElem?_append_right (Nat.le_of_eq size), size, Nat.sub_self]
  rfl

theorem text_created (references : Int) (inside : length.toNat ≤ str.length) :
    (MString.mk references length (str.take length.toNat ++ [0])).text =
      str.take length.toNat := by
  rw [MString.text, List.take_append_of_le_length, List.take_take,
    Nat.min_self]
  rw [List.length_take, Nat.min_eq_left inside]

/-- The first zero of a piece of memory. -/
theorem getElem?_strlen (ends : 0 ∈ str) : str[strlen str]? = some 0 := by
  induction str with
  | nil => exact absurd ends List.not_mem_nil
  | cons byte rest ih =>
      by_cases zero : byte = 0
      · subst zero
        simp [strlen]
      · have later := (List.mem_cons.mp ends).resolve_left (Ne.symm zero)
        rw [strlen, List.takeWhile_cons_of_pos (by simpa using zero)]
        exact ih later

theorem take_strlen (str : List UInt8) :
    str.take (strlen str) = str.takeWhile (· ≠ 0) :=
  (List.prefix_iff_eq_take.mp (List.takeWhile_prefix _)).symm

theorem strlen_le (str : List UInt8) : strlen str ≤ str.length :=
  (List.takeWhile_prefix _).length_le

theorem toNat_strlen (short : strlen str + mStringSize + 1 < 2 ^ 32) :
    (UInt32.ofNat (strlen str)).toNat = strlen str := by
  rw [UInt32.toNat_ofNat']
  exact Nat.mod_eq_of_lt (show strlen str < 2 ^ 32 by omega)

end

/-! ## Statements and runs -/

section

variable {V : Type} [DecidableEq V] {client : StringClient V}

namespace StringClient.Owned

/-- `MStringCreateN` is assigned to a variable that held nothing. -/
theorem createN (owned : client.Owned) {x : V} (null : client.vars x = none)
    {str : List UInt8} {length : UInt32} (inside : length.toNat ≤ str.length)
    (short : length.toNat + mStringSize + 1 < 2 ^ 32) :
    ∃ p heap, mStringCreateN str length client.heap = .ok (p, heap) ∧
      (client.assign x (some p) heap).Owned ∧
      (client.assign x (some p) heap).denoted =
        Function.update client.denoted x (some (str.take length.toNat)) := by
  refine ⟨_, _, mStringCreateN_eq inside short, ?_⟩
  have added := owned.add null (sound_created 1 inside short) (.inr rfl)
  rw [text_created 1 inside] at added
  exact added

/-- `MStringCopy` is assigned to a variable that held nothing. -/
theorem copy (owned : client.Owned) {x : V} (null : client.vars x = none)
    (few : (occupied client.vars).ncard < intMax) (y : V) :
    ∃ value heap, mStringCopy (client.vars y) client.heap = .ok (value, heap) ∧
      (client.assign x value heap).Owned ∧
      (client.assign x value heap).denoted =
        Function.update client.denoted x (client.denoted y) := by
  cases holds : client.vars y with
  | none =>
      have nothing : client.denoted y = none := by
        rw [StringClient.denoted, holds]
        rfl
      rw [nothing]
      refine ⟨none, client.heap, rfl, owned.forget fun p string points => ?_⟩
      cases null.symm.trans points
  | some p =>
      rcases owned.points holds with ⟨string, found⟩
      have loaded : client.heap.load p = .ok string := by
        rw [StringHeap.load, found]
      by_cases static : string.references = -1
      · have sound := owned.sound p string found
        rcases List.getElem?_eq_some_iff.mp sound.terminated with ⟨inside, -⟩
        rcases owned.createN null (Nat.le_of_lt inside) sound.short with
          ⟨q, heap, created, same⟩
        refine ⟨some q, heap, ?_, ?_⟩
        · rw [mStringCopy, loaded, Stop.ok_bind, if_pos static, created]
          rfl
        · have denotes : client.denoted y =
              some (string.str.take string.length.toNat) := by
            rw [StringClient.denoted, holds, Option.bind_some, StringHeap.text,
              found]
            rfl
          rw [denotes]
          exact same
      · have exact_ := (owned.counted p string found).resolve_left static
        have bounded := count_le owned.finite p
        have small : string.references ≠ intMax := by omega
        refine ⟨some p, _, ?_, owned.share null holds found static⟩
        rw [mStringCopy, loaded, Stop.ok_bind, if_neg static, if_neg small]
        rfl

/-- A variable is given to `MStringFree`. -/
theorem free (owned : client.Owned) (x : V) :
    ∃ value heap, mStringFree (client.vars x) client.heap = .ok (value, heap) ∧
      (client.assign x value heap).Owned ∧
      (client.assign x value heap).denoted =
        Function.update client.denoted x none := by
  cases holds : client.vars x with
  | none =>
      refine ⟨none, client.heap, rfl, owned.forget fun p string points => ?_⟩
      cases holds.symm.trans points
  | some p =>
      rcases owned.points holds with ⟨string, found⟩
      have loaded : client.heap.load p = .ok string := by
        rw [StringHeap.load, found]
      rw [mStringFree, loaded, Stop.ok_bind]
      by_cases static : string.references = -1
      · rw [if_pos static]
        refine ⟨none, client.heap, rfl, owned.forget fun q other points same =>
          ?_⟩
        cases holds.symm.trans points
        cases found.symm.trans same
        exact static
      · rw [if_neg static]
        by_cases last : string.references - 1 = 0
        · exact ⟨none, _, if_pos last, owned.release holds found static last⟩
        · exact ⟨none, _, if_neg last, owned.unshare holds found static last⟩

end StringClient.Owned

/-- A tidy statement does what it means. -/
theorem StringCall.run_refines (owned : client.Owned) {call : StringCall V}
    (tidy : call.Tidy client.denoted) :
    ∃ after, call.run client = .ok after ∧ after.Owned ∧
      after.denoted = call.meaning client.denoted := by
  cases call with
  | createN x str length =>
      rcases tidy with ⟨null, inside, short⟩
      rcases owned.createN (owned.vars_eq_none null) inside short with
        ⟨p, heap, created, after⟩
      refine ⟨_, ?_, after⟩
      rw [StringCall.run, created]
      rfl
  | create x str =>
      rcases tidy with ⟨null, ends, short⟩
      have length := toNat_strlen short
      rcases owned.createN (owned.vars_eq_none null)
        (Nat.le_trans (Nat.le_of_eq length) (strlen_le str))
        (by rwa [length]) with ⟨p, heap, created, after⟩
      rw [length, take_strlen] at after
      refine ⟨_, ?_, after⟩
      rw [StringCall.run, mStringCreate, created]
      rfl
  | createStatic x str =>
      rcases tidy with ⟨null, ends, short⟩
      have length := toNat_strlen short
      have sound : (MString.mk (-1) (UInt32.ofNat (strlen str)) str).Sound := by
        refine ⟨?_, by rwa [length]⟩
        rw [length]
        exact getElem?_strlen ends
      have text : (MString.mk (-1) (UInt32.ofNat (strlen str)) str).text =
          str.takeWhile (· ≠ 0) := by
        rw [MString.text, length]
        exact take_strlen str
      have added := owned.add (owned.vars_eq_none null) sound (.inl rfl)
      rw [text] at added
      exact ⟨_, rfl, added⟩
  | copy x y =>
      rcases tidy with ⟨null, few⟩
      rw [owned.occupied_denoted] at few
      rcases owned.copy (owned.vars_eq_none null) few y with
        ⟨value, heap, copied, after⟩
      refine ⟨_, ?_, after⟩
      rw [StringCall.run, copied]
      rfl
  | free x =>
      rcases owned.free x with ⟨value, heap, freed, after⟩
      refine ⟨_, ?_, after⟩
      rw [StringCall.run, freed]
      rfl

/-- So do tidy statements one after another. -/
theorem runStrings_owned (owned : client.Owned) {calls : List (StringCall V)}
    (tidy : TidyRun client.denoted calls) :
    ∃ after, runStrings client calls = .ok after ∧ after.Owned ∧
      after.denoted = meanings client.denoted calls := by
  induction calls generalizing client with
  | nil => exact ⟨client, rfl, owned, rfl⟩
  | cons call calls ih =>
      rcases StringCall.run_refines owned tidy.1 with
        ⟨middle, returns, ownedMiddle, means⟩
      have rest := tidy.2
      rw [← means] at rest
      rcases ih ownedMiddle rest with ⟨after, returned, ownedAfter, meansAfter⟩
      refine ⟨after, ?_, ownedAfter, ?_⟩
      · rw [runStrings, returns]
        exact returned
      · rw [meansAfter, means]
        rfl

end

/--
In every tidy run of a client its variables denote what they would if they held
the bytes themselves.  No string is used after it has been freed, and what is
left on the heap is a static string or counts the variables that hold it.
-/
theorem runStrings_refines {V : Type} [DecidableEq V]
    {calls : List (StringCall V)} (tidy : TidyRun (fun _ => none) calls) :
    ∃ after, runStrings ⟨fun _ => none, .empty⟩ calls = .ok after ∧
      after.denoted = meanings (fun _ => none) calls ∧
      ∀ p string, after.heap.cells p = some string →
        string.references = -1 ∨
          string.references = (holders after.vars p).ncard ∧
            ∃ x, after.vars x = some p := by
  rcases runStrings_owned StringClient.Owned.empty tidy with
    ⟨after, returns, owned, means⟩
  refine ⟨after, returns, means, fun p string found => ?_⟩
  refine (owned.counted p string found).imp_right fun counted => ?_
  refine ⟨counted.1, ?_⟩
  by_contra nobody
  rw [not_exists] at nobody
  have empty : holders after.vars p = ∅ :=
    Set.eq_empty_iff_forall_notMem.mpr nobody
  rw [empty, Set.ncard_empty] at counted
  exact absurd counted.2 (Nat.lt_irrefl 0)

/-- A string outlives the variable that it was created for. -/
theorem runStrings_refines_shared : ∃ after,
    runStrings ⟨fun _ => none, .empty⟩
        [.create false [97, 98, 0], .copy true false, .free false] =
      .ok after ∧
      after.denoted false = none ∧ after.denoted true = some [97, 98] := by
  have few : ∀ values : Bool → Option (List UInt8),
      ((occupied values).ncard : Int) < intMax := by
    intro values
    have bound := Set.ncard_le_ncard (Set.subset_univ (occupied values))
    rw [Set.ncard_univ, Nat.card_eq_fintype_card, Fintype.card_bool] at bound
    unfold intMax
    omega
  have tidy : TidyRun (fun _ => none)
      [.create false [97, 98, 0], .copy true false, .free false] := by
    refine ⟨⟨rfl, by decide, by decide⟩, ⟨rfl, few _⟩, trivial, trivial⟩
  rcases runStrings_refines tidy with ⟨after, returns, means, -⟩
  refine ⟨after, returns, ?_, ?_⟩
  · rw [means]
    rfl
  · rw [means]
    rfl

end Millie.Memory
