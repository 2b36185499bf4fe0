import ScriptLexer.Main
import ScriptLexer.Pass
import ScriptLexer.Piece.Grammar
import ScriptLexer.Report
import ScriptLexer.Proofs.Division
import ScriptLexer.Proofs.Lookahead
import ScriptLexer.Proofs.Findings
import ScriptLexer.Proofs.Segmentation
import ScriptLexer.Proofs.Composition
import ScriptLexer.Proofs.Recovery
import ScriptLexer.Proofs.PromptLines
import ScriptLexer.Proofs.PromptScript
import ScriptLexer.Proofs.Locality
import ScriptLexer.Proofs.PromptCuts
import ScriptLexer.Proofs.Counters
import ScriptLexer.Proofs.PromptCounters
import ScriptLexer.Proofs.Modes
import ScriptLexer.Proofs.PromptConservation
import ScriptLexer.Proofs.Lexemes
import ScriptLexer.Proofs.Ahead
import ScriptLexer.Proofs.Unscan
import ScriptLexer.Proofs.LineNumbers
import ScriptLexer.Proofs.PrefixStability
import ScriptLexer.Proofs.PrintedTokens
import ScriptLexer.Proofs.Rounding
import ScriptLexer.Proofs.Decoding
import ScriptLexer.Proofs.FloatLiterals
import ScriptLexer.Proofs.Decimals
import ScriptLexer.Proofs.Shortest
import ScriptLexer.Proofs.FloatTexts
import ScriptLexer.Proofs.Encoding
import ScriptLexer.Proofs.Probes
import ScriptLexer.Proofs.Sessions
import ScriptLexer.Proofs.Completeness
import ScriptLexer.Proofs.IntegerLiterals
import ScriptLexer.Proofs.Cursors
import ScriptLexer.Proofs.Passes
import ScriptLexer.Proofs.Progress
import ScriptLexer.Proofs.Traces
import ScriptLexer.Proofs.Histories
import ScriptLexer.Proofs.LineEndings
import ScriptLexer.Proofs.PromptReentry
import ScriptLexer.Proofs.TokenEquality
