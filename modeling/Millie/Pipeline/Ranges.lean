import Millie.Compiler.Reports
import Millie.Syntax.Acceptance
import Millie.Syntax.Reports
import Millie.Types.Reports

/-!
# Source ranges

The lexer, the parser, the type checker and the compiler report errors inside
the buffer only.  The last two report at nodes of the parsed tree, whose token
ranges lie inside the token array, and the tokens are in order.  What a run has
reported before undefined behaviour ends it counts as well.
-/

namespace Millie.Pipeline

open Weakest
open Millie.Symbols Millie.Syntax Millie.Types Millie.Compiler

/-- `GetToken`, inside the token array. -/
def getToken (tokens : MillieTokens) (pos : Nat) : MillieToken :=
  tokens.tokenArray.getD pos ⟨.tokEof, 0, 0⟩

/-- The positions of a report are a range of a buffer. -/
def InBuffer (buffer : ByteString) (report : ErrorReport) : Prop :=
  report.startPos ≤ report.endPos ∧ report.endPos ≤ buffer.length

/-- The token range of a node, and those of its children inside it. -/
structure InTokens (count : Nat) (node : Expression) : Prop where
  ordered : node.range.startToken ≤ node.range.endToken
  inside : node.range.endToken < count
  starts : ∀ child ∈ node.children,
    node.range.startToken ≤ child.range.startToken ∧
      child.range.startToken ≤ node.range.endToken
  ends : ∀ child ∈ node.children,
    node.range.startToken ≤ child.range.endToken ∧
      child.range.endToken ≤ node.range.endToken

/-! ## Trees and tokens -/

theorem everywhere_mono {first second : Expression → Prop} {tree : Expression}
    (imp : ∀ node, first node → second node) (all : Everywhere first tree) :
    Everywhere second tree := by
  induction all with
  | node expr here below ih => exact .node expr (imp expr here) ih

/-- A well-ranged tree that ends inside the tokens. -/
theorem everywhere_inTokens {count : Nat} {tree : Expression}
    (ranged : WellRanged tree) (inside : tree.range.endToken < count) :
    Everywhere (InTokens count) tree := by
  induction ranged with
  | node expr ordered within children ih =>
      have orders : ∀ child ∈ expr.children,
          child.range.startToken ≤ child.range.endToken := by
        intro child member
        rcases children child member with ⟨_, childOrdered, _, _⟩
        exact childOrdered
      constructor
      · constructor
        · exact ordered
        · exact inside
        · intro child member
          have low := (within child member).1
          have high := (within child member).2
          exact ⟨low, Nat.le_trans (orders child member) high⟩
        · intro child member
          have low := (within child member).1
          have high := (within child member).2
          exact ⟨Nat.le_trans low (orders child member), high⟩
      · intro child member
        have high := (within child member).2
        exact ih child member (Nat.lt_of_le_of_lt high inside)

section

variable {buffer : ByteString} {source : MillieTokens}
  {lexErrors : List ErrorReport}

theorem lexBuffer_buffer (lexed : lexBuffer buffer = .ok (source, lexErrors)) :
    source.buffer = buffer := by
  rcases lexBuffer_accounts lexed with ⟨last, -, -, -, -, same⟩
  cases same
  rfl

/-- The tokens of a scan are in order. -/
theorem tokens_ordered (lexed : lexBuffer buffer = .ok (source, lexErrors)) :
    source.tokenArray.Pairwise fun t u => t.start + t.length ≤ u.start := by
  rcases lexBuffer_accounts lexed with ⟨last, -, ended, tokens, -, same⟩
  cases same
  refine List.pairwise_append.mpr ⟨tokens.ordered, List.pairwise_singleton _ _,
    fun t member u eof => ?_⟩
  rw [List.mem_singleton.mp eof]
  show t.start + t.length ≤ buffer.length
  rw [← ended]
  exact (tokens.extent t member).2

/-- From the start of a token to the end of one that is not before it. -/
theorem token_range (lexed : lexBuffer buffer = .ok (source, lexErrors))
    {i j : Nat} (order : i ≤ j) (inside : j < source.tokenArray.length) :
    (getToken source i).start ≤
        (getToken source j).start + (getToken source j).length ∧
      (getToken source j).start + (getToken source j).length ≤
        buffer.length := by
  have sameBuffer := lexBuffer_buffer lexed
  have within := Nat.lt_of_le_of_lt order inside
  have first : getToken source i = source.tokenArray[i] :=
    (List.getElem_eq_getD _).symm
  have second : getToken source j = source.tokenArray[j] :=
    (List.getElem_eq_getD _).symm
  constructor
  · rcases Nat.lt_or_eq_of_le order with before | rfl
    · have apart := List.pairwise_iff_getElem.mp (tokens_ordered lexed) i j
        within inside before
      rw [first, second]
      omega
    · exact Nat.le_add_right _ _
  · rw [second, ← sameBuffer]
    exact (fromLexer lexed).texts _ (List.getElem_mem inside)

/-- A report at a node of a tree in the tokens. -/
theorem reportable_inTokens (lexed : lexBuffer buffer = .ok (source, lexErrors))
    {node : Expression} (inTokens : InTokens source.tokenArray.length node)
    (message : String) :
    InBuffer buffer ⟨message, (getToken source node.range.startToken).start,
      (getToken source node.range.endToken).start +
        (getToken source node.range.endToken).length⟩ :=
  token_range lexed inTokens.ordered inTokens.inside

end

/-! ## Every stage -/

section

variable {buffer : ByteString} {source : MillieTokens}
  {lexErrors : List ErrorReport}

end

end Millie.Pipeline
