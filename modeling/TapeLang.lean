import TapeLang.Automaton
import TapeLang.Automaton.Json
import TapeLang.Automaton.Validate
import TapeLang.Bundled
import TapeLang.Catalogue
import TapeLang.CommandLine
import TapeLang.Diagnostic.Json
import TapeLang.Files
import TapeLang.Files.Tree
import TapeLang.Json
import TapeLang.Json.Numeral
import TapeLang.Json.Parser
import TapeLang.Json.Record
import TapeLang.Json.Render
import TapeLang.Label
import TapeLang.Machine
import TapeLang.Machine.Json
import TapeLang.Main
import TapeLang.Problem
import TapeLang.Program
import TapeLang.Program.Check
import TapeLang.Program.Compile
import TapeLang.Program.Parser
import TapeLang.Proofs.Budget
import TapeLang.Proofs.Calls
import TapeLang.Proofs.Checked
import TapeLang.Proofs.Commands
import TapeLang.Proofs.Compiled
import TapeLang.Proofs.Derivation
import TapeLang.Proofs.Grammar
import TapeLang.Proofs.Json.Scalars
import TapeLang.Proofs.Json.Values
import TapeLang.Proofs.Lockstep
import TapeLang.Proofs.Longest
import TapeLang.Proofs.Meaning
import TapeLang.Proofs.Numbering
import TapeLang.Proofs.Parsing
import TapeLang.Proofs.Printing
import TapeLang.Proofs.Reading
import TapeLang.Proofs.Safety
import TapeLang.Proofs.Scanning
import TapeLang.Proofs.Sparse
import TapeLang.Proofs.Stepping
import TapeLang.Proofs.Transitions
import TapeLang.Proofs.Validity
import TapeLang.Proofs.WellFormed
import TapeLang.Read
import TapeLang.Span
import TapeLang.Symbol
import TapeLang.Table
import TapeLang.Tape
import TapeLang.Text.Quoted
import TapeLang.Text.Unprintable
import TapeLang.Token
import TapeLang.Proofs.Encoding
import TapeLang.Proofs.Agreement
import TapeLang.Proofs.Labelling
import TapeLang.Proofs.Reordering
import TapeLang.Proofs.Mirroring
import TapeLang.Proofs.Parallel
import TapeLang.Proofs.Regions
import TapeLang.Proofs.Completion
import TapeLang.Proofs.Viability
import TapeLang.Proofs.Layout
import TapeLang.Proofs.Places
import TapeLang.Proofs.Consistency
import TapeLang.Proofs.Restarting
import TapeLang.Proofs.Blaming
import TapeLang.Proofs.Citing
import TapeLang.Proofs.Window
import TapeLang.Proofs.Reloading
import TapeLang.Proofs.Extent
import TapeLang.Proofs.Situation
import TapeLang.Proofs.Increment
import TapeLang.Proofs.Recognition
import TapeLang.Proofs.Lines
import TapeLang.Proofs.Permuting
import TapeLang.Proofs.Skipping
import TapeLang.Proofs.Ranges
import TapeLang.Proofs.Defects
import TapeLang.Proofs.Narration
import TapeLang.Proofs.Reports
import TapeLang.Proofs.Respelling
import TapeLang.Proofs.Directories
import TapeLang.Proofs.Consulting
import TapeLang.Proofs.Filling
import TapeLang.Proofs.Cursor
import TapeLang.Proofs.Progress
