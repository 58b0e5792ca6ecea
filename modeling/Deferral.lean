import Deferral.Decimal.Layout
import Deferral.Decimal.Reader
import Deferral.Text.Alphabetic
import Deferral.Text.Blank
import Deferral.Text.Numeric
import Deferral.Text.Quoted
import Deferral.Syntax.Lexer
import Deferral.Syntax.Tree
import Deferral.Syntax.Parser
import Deferral.Failure
import Deferral.Value.Entries
import Deferral.Value.Quoted
import Deferral.Arithmetic
import Deferral.Builtin.Run
import Deferral.Main
import Deferral.Proofs.Computation
import Deferral.Proofs.Traversal
import Deferral.Proofs.Composition
import Deferral.Proofs.Effects
import Deferral.Proofs.Growth
import Deferral.Proofs.Grounded
import Deferral.Proofs.DistinctKeys
import Deferral.Proofs.NormalForm
import Deferral.Proofs.LateBinding
import Deferral.Proofs.Grammar
import Deferral.Proofs.ParserCompleteness
import Deferral.Proofs.TreeHeight
import Deferral.Proofs.Approximation
import Deferral.Proofs.Occurrence
import Deferral.Proofs.Rendering
import Deferral.Proofs.CallRoutes
import Deferral.Proofs.Output
import Deferral.Proofs.ReadOnly
import Deferral.Proofs.Scanning
import Deferral.Proofs.Balance
import Deferral.Proofs.Concatenation
import Deferral.Proofs.Lockstep
import Deferral.Proofs.Alike
import Deferral.Proofs.ForcingAlike
import Deferral.Proofs.Numbering
import Deferral.Proofs.NumberedSessions
import Deferral.Proofs.Footprint
import Deferral.Proofs.Construction
import Deferral.Proofs.ScriptAlike
import Deferral.Proofs.ScriptRuns
import Deferral.Proofs.Trimming
import Deferral.Proofs.Responses
import Deferral.Proofs.ConsoleSessions
import Deferral.Proofs.SourceTokens
import Deferral.Proofs.SourceReading
import Deferral.Proofs.DataText
import Deferral.Proofs.Lexemes
import Deferral.Proofs.ResolutionLimits
import Deferral.Proofs.Truncation
import Deferral.Proofs.BoundedSessions
import Deferral.Proofs.Merging
import Deferral.Proofs.Relocation
import Deferral.Proofs.LateKeys
import Deferral.Proofs.Together
import Deferral.Proofs.DepthLimit
import Deferral.Proofs.Iteration
import Deferral.Proofs.Repetition
import Deferral.Proofs.SequenceSums
import Deferral.Proofs.SumEnds
import Deferral.Proofs.TextLiterals
import Deferral.Proofs.InsertionOrder
import Deferral.Proofs.JsonForms
import Deferral.Proofs.ResolvedText
import Deferral.Proofs.Chains
import Deferral.Proofs.Extrema
import Deferral.Proofs.EqualityLaws
