import Millie.Compiler.Operations

/-!
# The capacity of the code buffer

`_EnsureCodeCapacity` doubles an `int`.  From the sixty-four bytes of a new
context it can be doubled twenty-four times; one more overflows.  A request for
room is therefore served exactly when it ends within 2^30 bytes, and the
requests of a function all do exactly when its code is that short.
-/

namespace Millie.Compiler

open Millie.Symbols Millie.Syntax Millie.Machine

/-! ## Requests -/

/-- The largest capacity that doubling the initial one reaches in an `int`. -/
def codeLimit : Nat := 2 ^ 30

/-- A request for room returns when it ends inside the largest capacity. -/
theorem ensureCodeCapacity_returns {context : CompileContext} {more : Nat}
    (contained : Contained context) (small : more ≤ initialCodeCapacity) :
    (∃ grown, ensureCodeCapacity more context = .ok grown) ↔
      context.codeWrite + more ≤ codeLimit := by
  rcases contained.codeDoubled with ⟨count, few, capacity⟩
  have room := contained.codeRoom
  have inside := contained.codeWrite
  have bound : context.codeCapacity ≤ codeLimit := by
    have := Nat.pow_le_pow_right (show 0 < 2 by decide) few
    rw [capacity, initialCodeCapacity, codeLimit]
    omega
  unfold ensureCodeCapacity
  split
  · rename_i short
    split
    · rename_i below
      refine iff_of_true ⟨_, rfl⟩ ?_
      have doubled : 2 ^ (count + 1) < 2 ^ 25 := by
        rw [capacity, initialCodeCapacity, intLimit] at below
        rw [Nat.pow_succ]
        omega
      have := (Nat.pow_lt_pow_iff_right (show 1 < 2 by decide)).mp doubled
      have := Nat.pow_le_pow_right (show 0 < 2 by decide)
        (show count + 1 ≤ 24 by omega)
      rw [Nat.pow_succ] at this
      rw [codeLimit]
      rw [initialCodeCapacity] at capacity small room
      omega
    · rename_i beyond
      refine iff_of_false ?_ fun fits => ?_
      · rintro ⟨grown, returns⟩
        cases returns
      · rw [intLimit] at beyond
        rw [codeLimit] at fits bound
        omega
  · exact iff_of_true ⟨_, rfl⟩ (by omega)

/--
How far writing an instruction asks for room: `_WriteCodeU16` asks for four
bytes and writes two, so a register that follows may end before its request.
-/
def instructionReach (instruction : Instruction) : Nat :=
  match instruction with
  | .loadi16 _ _ => 5
  | .loada64 _ _ _ | .storea64 _ _ _ => 6
  | _ => (instructionBytes instruction).length

namespace Code

/--
The ends of the requests made while code is written at an offset, in order.  A
branch reserves its two holes and asks for room again when it patches them.
-/
def requests (offset : Nat) : Code → List Nat
  | empty => []
  | instruction i => [offset + instructionReach i]
  | operands bytes => [offset + bytes.length]
  | seq first second =>
      first.requests offset ++
        second.requests (offset + first.bytes.length)
  | branch _ thenCode elseCode =>
      let elseOffset := offset + (thenCode.bytes.length + 7)
      (offset + 4) :: (thenCode.requests (offset + 4) ++
        (elseOffset :: (offset + 6) ::
          (elseCode.requests elseOffset ++ [elseOffset + 2])))

/-- The requests of code at an offset are all served. -/
def Fits (offset : Nat) (code : Code) : Prop :=
  ∀ request ∈ code.requests offset, request ≤ codeLimit

section

variable {offset : Nat}

@[simp]
theorem fits_empty : Fits offset empty :=
  nofun

@[simp]
theorem fits_instruction {i : Instruction} :
    Fits offset (instruction i) ↔ offset + instructionReach i ≤ codeLimit :=
  List.forall_mem_singleton

@[simp]
theorem fits_operands {bytes : List UInt8} :
    Fits offset (operands bytes) ↔ offset + bytes.length ≤ codeLimit :=
  List.forall_mem_singleton

@[simp]
theorem fits_seq {first second : Code} :
    Fits offset (seq first second) ↔
      Fits offset first ∧ Fits (offset + first.bytes.length) second :=
  List.forall_mem_append

theorem fits_branch {testReg : UInt8} {thenCode elseCode : Code} :
    Fits offset (branch testReg thenCode elseCode) ↔
      Fits (offset + 4) thenCode ∧
        Fits (offset + (thenCode.bytes.length + 7)) elseCode ∧
          offset + (thenCode.bytes.length + 7) + 2 ≤ codeLimit := by
  simp only [Fits, requests, List.forall_mem_cons, List.forall_mem_append,
    List.not_mem_nil, false_imp_iff, implies_true, and_true]
  constructor
  · rintro ⟨-, inThen, -, -, inElse, last⟩
    exact ⟨inThen, inElse, last⟩
  · rintro ⟨inThen, inElse, last⟩
    exact ⟨by omega, inThen, by omega, by omega, inElse, last⟩

end

/-- Code ends in a branch whose second arm has no code. -/
def endsOpen : Code → Bool
  | empty | instruction _ | operands _ => false
  | seq first second =>
      if second.bytes.length = 0 then first.endsOpen else second.endsOpen
  | branch _ _ elseCode => elseCode.bytes.length = 0 || elseCode.endsOpen

/-- The room that a function with this code needs, its `OP_RET` included. -/
def need (code : Code) : Nat :=
  code.bytes.length + 1 + if code.endsOpen then 1 else 0

theorem instructionReach_le (i : Instruction) :
    instructionReach i ≤ (instructionBytes i).length + 1 := by
  cases i <;> simp [instructionReach, instructionBytes, bytesU16]

/-- Code without bytes does not end in a branch. -/
theorem endsOpen_of_empty {code : Code} (empty_ : code.bytes.length = 0) :
    code.endsOpen = false := by
  induction code with
  | empty | instruction | operands => rfl
  | seq first second firstIh secondIh =>
      rw [length_seq] at empty_
      rw [endsOpen, if_pos (by omega)]
      exact firstIh (by omega)
  | branch testReg thenCode elseCode =>
      rw [length_branch] at empty_
      omega

/-- What is left to fit after code: its own end and one byte, or two. -/
theorem fits_iff (code : Code) (offset : Nat) :
    Fits offset code ∧ offset + code.bytes.length + 1 ≤ codeLimit ↔
      offset + code.need ≤ codeLimit := by
  induction code generalizing offset with
  | empty => simp [need, endsOpen, bytes]
  | instruction i =>
      have := instructionReach_le i
      simp only [fits_instruction, need, endsOpen, bytes, Bool.false_eq_true,
        if_false]
      omega
  | operands list =>
      simp only [fits_operands, need, endsOpen, bytes, Bool.false_eq_true,
        if_false]
      omega
  | seq first second firstIh secondIh =>
      have inFirst := firstIh offset
      have inSecond := secondIh (offset + first.bytes.length)
      simp only [fits_seq, need, endsOpen, length_seq] at inFirst inSecond ⊢
      by_cases none_ : second.bytes.length = 0
      · simp only [none_, endsOpen_of_empty none_, if_true] at inSecond ⊢
        grind
      · simp only [none_, if_false]
        grind
  | branch testReg thenCode elseCode thenIh elseIh =>
      have inThen := thenIh (offset + 4)
      have inElse := elseIh (offset + (thenCode.bytes.length + 7))
      simp only [fits_branch, need, endsOpen, length_branch] at inThen inElse ⊢
      by_cases none_ : elseCode.bytes.length = 0
      · simp only [none_, endsOpen_of_empty none_] at inElse ⊢
        grind
      · simp only [none_]
        grind

/-- Two bytes to spare are always enough. -/
theorem fits_of_short {code : Code}
    (short : code.bytes.length + 2 ≤ codeLimit) :
    Fits 0 code ∧ code.bytes.length + 1 ≤ codeLimit := by
  have fits := code.fits_iff 0
  rw [Nat.zero_add, Nat.zero_add] at fits
  refine fits.mpr ?_
  unfold need
  split <;> omega

end Code

/-! ## The requests of a function -/

namespace Function

/-- The ends of a function's requests for code, the last for its `OP_RET`. -/
def requests (input : CompileInput) (f : Function) : List Nat :=
  let code := (f.emission input).code
  code.requests 0 ++ [code.bytes.length + 1]

/-- The room that a function's code needs. -/
def codeNeed (input : CompileInput) (f : Function) : Nat :=
  (f.emission input).code.need

/-- All requests of a function are served when its code is short enough. -/
theorem requests_iff (input : CompileInput) (f : Function) :
    (∀ request ∈ f.requests input, request ≤ codeLimit) ↔
      f.codeNeed input ≤ codeLimit := by
  have fits := (f.emission input).code.fits_iff 0
  rw [Nat.zero_add, Nat.zero_add] at fits
  rw [codeNeed, ← fits, requests, List.forall_mem_append,
    List.forall_mem_singleton]
  rfl

end Function

end Millie.Compiler
