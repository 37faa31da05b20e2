import Millie.Compiler.Running
import Millie.Compiler.Tuples
import Millie.Pipeline.Sparing

/-!
# Values in registers and memory

When a word of the virtual machine stands for a value, and where the code of a
function finds the values of the symbols in scope: in the register of its
binding, or in a slot of the closure that register 0 points to.  Memory only
grows, so a word goes on standing for its value.
-/

namespace Millie.Pipeline

open Millie.Symbols Millie.Syntax Millie.Machine Millie.Compiler

/-! ## Words and values -/

/-- The name under which a function is compiled. -/
def selfSymbol (selfId : Option Symbol) : Symbol :=
  selfId.getD invalidSymbol

/--
A word points to the closure of a function: its static closure if it captures
nothing, else a block with the function's id and the captured words.
-/
inductive Points (input : CompileInput) (memory : Memory) (f : Function)
    (cells : Symbol → Word) : Word → Prop where
  | static (empty : f.closure input = []) :
      Points input memory f cells (.static f.id)
  | block {address : Nat} (captures : f.closure input ≠ [])
      (at_ : memory[address]? =
        some (.int (UInt64.ofNat f.id) :: (f.closure input).map cells)) :
      Points input memory f cells (.block address)

/-- A word stands for a value. -/
inductive Represents (input : CompileInput) (functions : List Function)
    (memory : Memory) : Word → Value → Prop where
  | int (value : UInt64) :
      Represents input functions memory (.int value) (.int value)
  | bool (value : Bool) :
      Represents input functions memory (.int (if value then 1 else 0))
        (.bool value)
  | closure {env : Environment} {selfId : Option Symbol} {id : Symbol}
      {body : Expression} {view : View} {scope : Scope} {word : Word}
      {cells : Symbol → Word} {values : Symbol → Value}
      (named : selfId ≠ some invalidSymbol)
      (enclosed : Enclosed input functions id (selfSymbol selfId) body view
        scope)
      (points : Points input memory
        (lambdaFunction input id (selfSymbol selfId) body view scope) cells
        word)
      (bound : ∀ symbol ∈ (lambdaFunction input id (selfSymbol selfId) body
        view scope).closure input, env.lookup symbol = some (values symbol))
      (held : ∀ symbol ∈ (lambdaFunction input id (selfSymbol selfId) body
        view scope).closure input,
        Represents input functions memory (cells symbol) (values symbol)) :
      Represents input functions memory word (.closure env selfId id body)

/-- A module holds the functions, each of them with what its code relies on. -/
structure Linked (input : CompileInput) (module : Module)
    (functions : List Function) : Prop where
  entry : ∀ f ∈ functions, functionAt module f.id = .ok (f.entry input)
  small : ∀ f ∈ functions, f.id < 2 ^ 31
  slots : ∀ f ∈ functions, (f.closure input).length ≤ 16
  registers : ∀ f ∈ functions, (f.emission input).view.registers ≤ 256
  short : ∀ f ∈ functions, (f.emission input).code.Short
  spared : ∀ f ∈ functions, Spared input f.body [] f.view f.scope

section

variable {input : CompileInput} {module : Module} {functions : List Function}
  {memory larger : Memory} {word : Word} {value : Value}

/-- Blocks stay where they are. -/
theorem block_grow {address : Nat} {cells : List Word}
    (at_ : memory[address]? = some cells) (grows : memory <+: larger) :
    larger[address]? = some cells := by
  rcases grows with ⟨rest, rfl⟩
  rw [List.getElem?_append_left (List.getElem?_eq_some_iff.mp at_).1]
  exact at_

theorem Points.grow {f : Function} {cells : Symbol → Word}
    (points : Points input memory f cells word) (grows : memory <+: larger) :
    Points input larger f cells word := by
  cases points with
  | static empty => exact .static empty
  | block captures at_ =>
      exact .block captures (block_grow at_ grows)

theorem Represents.grow (represents : Represents input functions memory word
    value) (grows : memory <+: larger) :
    Represents input functions larger word value := by
  induction represents with
  | int value => exact .int value
  | bool value => exact .bool value
  | closure named enclosed points bound _ ih =>
      exact .closure named enclosed (points.grow grows) bound ih

theorem loadWord_grow {pointer : Word} {offset : Nat}
    (loads : loadWord module memory pointer offset = .ok word)
    (grows : memory <+: larger) :
    loadWord module larger pointer offset = .ok word := by
  cases pointer with
  | int value => cases loads
  | uninit => cases loads
  | static functionId => exact loads
  | block address =>
      unfold loadWord at loads ⊢
      dsimp only at loads ⊢
      cases found : memory[address]? with
      | none =>
          rw [found] at loads
          cases loads
      | some cells =>
          rw [found] at loads
          rw [block_grow found grows]
          exact loads

/-- A function's id survives its way through the first cell of a closure. -/
theorem toIndex_ofNat {id : Nat} (small : id < 2 ^ 31) :
    toIndex (UInt64.ofNat id) = .ok id := by
  have low : (UInt64.ofNat id).toNat % 2 ^ 32 = id := by
    rw [UInt64.toNat_ofNat', Nat.mod_eq_of_lt (by omega),
      Nat.mod_eq_of_lt (by omega)]
  unfold toIndex
  dsimp only
  rw [low, if_pos small]

section

variable {f : Function} {cells : Symbol → Word}

/-- A call through a closure reaches the closure's function. -/
theorem Points.calls (points : Points input memory f cells word)
    (linked : Linked input module functions) (member : f ∈ functions) :
    calledFunction module memory word = .ok (f.entry input) := by
  have entry := linked.entry f member
  have index := toIndex_ofNat (linked.small f member)
  have loads : loadWord module memory word 0 =
      .ok (.int (UInt64.ofNat f.id)) := by
    cases points with
    | static empty =>
        have own : (f.entry input).closure = .staticClosure f.id := by
          have none_ : (f.emission input).view.closure = [] := empty
          simp [Function.entry, finishedEntry, none_]
        simp only [loadWord, entry, Stop.ok_bind, own]
        rfl
    | block captures at_ => simp only [loadWord, at_, List.getElem?_cons_zero]
  simp only [calledFunction, loads, Stop.ok_bind, Word.toInt, index, entry]

/-- A captured word is read from the slot of its symbol. -/
theorem Points.loads (points : Points input memory f cells word)
    {symbol : Symbol} (member : symbol ∈ f.closure input) :
    loadWord module memory word ((f.closure input).idxOf symbol + 1) =
      .ok (cells symbol) := by
  cases points with
  | static empty =>
      rw [empty] at member
      cases member
  | block captures at_ =>
      have slot : ((f.closure input).map cells)[
          (f.closure input).idxOf symbol]? = some (cells symbol) := by
        rw [List.getElem?_map, List.getElem?_idxOf member]
        rfl
      simp only [loadWord, at_, List.getElem?_cons_succ, slot]

end

/-! ## Frames -/

/-- The word that a function's code reads for a symbol. -/
def Reads (module : Module) (closure : List Symbol) (scope : Scope)
    (contents : Contents) (id : Symbol) (word : Word) : Prop :=
  match scope.register id with
  | some reg => readReg contents.registers reg = .ok word
  | none => id ∈ closure ∧ ∃ pointer,
      readReg contents.registers 0 = .ok pointer ∧
        loadWord module contents.memory pointer (closure.idxOf id + 1) =
          .ok word

/-- A function's code finds the values of some symbols of an environment. -/
def Framed (input : CompileInput) (module : Module)
    (functions : List Function) (closure : List Symbol) (scope : Scope)
    (env : Environment) (symbols : List Symbol) (contents : Contents) : Prop :=
  ∀ id ∈ symbols, ∃ value word, env.lookup id = some value ∧
    Reads module closure scope contents id word ∧
    Represents input functions contents.memory word value

section

variable {closure : List Symbol} {scope : Scope} {env : Environment}
  {symbols : List Symbol} {before after : Contents}

/-- What a symbol is read from is still there. -/
theorem Reads.keep {id : Symbol}
    (reads : Reads module closure scope before id word)
    (same : readReg after.registers ((scope.register id).getD 0) =
      readReg before.registers ((scope.register id).getD 0))
    (grows : before.memory <+: after.memory) :
    Reads module closure scope after id word := by
  unfold Reads at reads ⊢
  cases located : scope.register id with
  | some reg =>
      rw [located] at reads same
      exact same.trans reads
  | none =>
      rw [located] at reads same
      rcases reads with ⟨member, pointer, read, loads⟩
      exact ⟨member, pointer, same.trans read, loadWord_grow loads grows⟩

namespace Framed

theorem keep (framed : Framed input module functions closure scope env symbols
    before)
    (same : ∀ reg ∈ heldIn scope symbols,
      readReg after.registers reg = readReg before.registers reg)
    (grows : before.memory <+: after.memory) :
    Framed input module functions closure scope env symbols after := by
  intro id member
  rcases framed id member with ⟨value, word, found, reads, represents⟩
  exact ⟨value, word, found,
    reads.keep (same _ (List.mem_map_of_mem member)) grows,
    represents.grow grows⟩

theorem mono {fewer : List Symbol} (framed : Framed input module functions
    closure scope env symbols before) (subset : fewer ⊆ symbols) :
    Framed input module functions closure scope env fewer before :=
  fun id member => framed id (subset member)

/-- A new binding. -/
theorem bind {id : Symbol} {reg : UInt8} (framed : Framed input module
    functions closure scope env (symbols.filter (· ≠ id)) before)
    (read : readReg before.registers reg = .ok word)
    (represents : Represents input functions before.memory word value) :
    Framed input module functions closure (scope.bind id reg)
      ((id, value) :: env) symbols before := by
  intro symbol member
  by_cases same : symbol = id
  · subst same
    refine ⟨value, word, List.lookup_cons_self, ?_, represents⟩
    rw [Reads, register_bind, if_pos rfl]
    exact read
  · have other : symbol ∈ symbols.filter (· ≠ id) :=
      List.mem_filter.mpr ⟨member, by simpa using same⟩
    rcases framed symbol other with ⟨bound, word, found, reads, stands⟩
    refine ⟨bound, word, ?_, ?_, stands⟩
    · rw [List.lookup_cons, beq_false_of_ne same]
      exact found
    · unfold Reads at reads ⊢
      rw [register_bind, if_neg same]
      exact reads

end Framed

end

end

end Millie.Pipeline
