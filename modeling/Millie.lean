import Millie.Symbols.Interning
import Millie.Compiler.FunctionTable
import Millie.Compiler.Frames
import Millie.Compiler.Resolution
import Millie.Compiler.Occurrences
import Millie.Types.Graph
import Millie.Foundation.Links
import Millie.Foundation.Weakest
import Millie.Types.Terms
import Millie.Types.Follow
import Millie.Types.Copy
import Millie.Types.Format
import Millie.Types.Progress
import Millie.Types.Unify
import Millie.Types.Rebinding
import Millie.Types.Analysis
import Millie.Types.Invariants
import Millie.Machine.Steps
import Millie.Compiler.Blocks
import Millie.Compiler.Clobber
import Millie.Compiler.LiveRegisters
import Millie.Syntax.Lexer
import Millie.Syntax.Scanning
import Millie.Syntax.Coverage
import Millie.Syntax.Parser
import Millie.Syntax.Grammar
import Millie.Syntax.Reading
import Millie.Syntax.Parsing
import Millie.Syntax.Productions
import Millie.Syntax.Reports
import Millie.Syntax.Identifiers
import Millie.Syntax.Outcome
import Millie.Syntax.Completeness
import Millie.Syntax.Acceptance
import Millie.Syntax.Printing
import Millie.Syntax.RoundTrip
import Millie.Foundation.Emission
import Millie.Types.Reports
import Millie.Compiler.Reports
import Millie.Pipeline.Ranges
import Millie.Foundation.Unification
import Millie.Types.Solving
import Millie.Types.Completion
import Millie.Types.MostGeneral
import Millie.Compiler.Decoding
import Millie.Pipeline.Scoping
import Millie.Pipeline.Resolution
import Millie.Compiler.Closures
import Millie.Pipeline.Closures
import Millie.Memory.Arena
import Millie.Syntax.Keywords
import Millie.Syntax.Storage
import Millie.Syntax.Lines
import Millie.Syntax.Literals
import Millie.Compiler.Operations
import Millie.Compiler.Capacity
import Millie.Compiler.Totality
import Millie.Compiler.Buffers
import Millie.Compiler.Registers
import Millie.Compiler.Operands
import Millie.Compiler.Jumps
import Millie.Machine.Pointers
import Millie.Compiler.Apart
import Millie.Compiler.Tuples
import Millie.Pipeline.Printing
import Millie.Pipeline.Tuples
import Millie.Foundation.Fuel
import Millie.Foundation.Precedence
import Millie.Types.Generalize
import Millie.Symbols.Invariant
import Millie.Foundation.Traces
import Millie.Types.Moments
import Millie.Types.Instances
import Millie.Foundation.FirstOccurrences
import Millie.Types.Texts
import Millie.Types.Naming
import Millie.Types.Typing
import Millie.Types.Inference
import Millie.Types.Soundness
import Millie.Types.Generality
import Millie.Types.Completeness
import Millie.Types.Principal
import Millie.Pipeline.Evaluation
import Millie.Pipeline.Safety
import Millie.Pipeline.TypeSafety
import Millie.Machine.Exhaustion
import Millie.Compiler.Running
import Millie.Pipeline.Interpretation
import Millie.Pipeline.Sparing
import Millie.Pipeline.Representation
import Millie.Pipeline.Execution
import Millie.Pipeline.Preservation
import Millie.Pipeline.Correctness
import Millie.Pipeline.Driver
import Millie.Pipeline.Diagnostics
import Millie.Foundation.Approximation
import Millie.Types.Fuel
import Millie.Types.Decision
import Millie.Foundation.Footprint
import Millie.Symbols.CityHash
import Millie.Memory.ArrayList
import Millie.Foundation.Sharing
import Millie.Memory.Strings
