import Transcode.Output.Session
import Transcode.Record.Decode
import Transcode.Nesting
import Transcode.Engine.Outline
import Transcode.Engine.Machine
import Transcode.Template.Backend
import Transcode.Target.Convert
import Transcode.Proofs.Strategies
import Transcode.Proofs.Reading
import Transcode.Proofs.Extending
import Transcode.Proofs.Stepping
import Transcode.Proofs.Scopes
import Transcode.Proofs.Productions
import Transcode.Proofs.Derivation
import Transcode.Proofs.Boundaries
import Transcode.Proofs.Gaps
import Transcode.Script.Canonical
import Transcode.Proofs.Relexing
import Transcode.Proofs.Printing
import Transcode.Proofs.Spelling
import Transcode.Proofs.RoundTrip
import Transcode.Proofs.Placement
import Transcode.Proofs.Firing
import Transcode.Proofs.Ensures
import Transcode.Proofs.Leading
import Transcode.Proofs.Assembly
import Transcode.Proofs.CommentOrder
import Transcode.Proofs.Forms
import Transcode.Proofs.Coverage
import Transcode.Proofs.CommentsCarried
import Transcode.Proofs.BlankLines
import Transcode.Proofs.Visits
import Transcode.Proofs.Steps
import Transcode.Proofs.Statements
import Transcode.Proofs.Reports
import Transcode.Proofs.Objects
import Transcode.Proofs.Parents
import Transcode.Proofs.Formulas
import Transcode.Proofs.FormulaTexts
import Transcode.Proofs.Binding
import Transcode.Proofs.Clashes
import Transcode.Proofs.Writing
import Transcode.Proofs.Operators
import Transcode.Proofs.CommentLines
import Transcode.Proofs.Guarding
import Transcode.Proofs.Answers
import Transcode.Proofs.Backends
import Transcode.Proofs.Meaning
import Transcode.Proofs.Rekeying
import Transcode.Proofs.Relocation
import Transcode.Proofs.Outputs
import Transcode.Proofs.Copies
import Transcode.Proofs.Carrying
import Transcode.Proofs.Returns
import Transcode.Proofs.Halting
import Transcode.Proofs.Surroundings
import Transcode.Proofs.Breaks
import Transcode.Proofs.LineEndings
import Transcode.Proofs.Margins
import Transcode.Proofs.Openings
import Transcode.Proofs.Indentation
import Transcode.Proofs.Suites
import Transcode.Proofs.Requests
import Transcode.Proofs.Occurrences
import Transcode.Proofs.Separators
import Transcode.Proofs.Patterns
import Transcode.Proofs.Policies
import Transcode.Proofs.Extracts
import Transcode.Proofs.Joining
import Transcode.Proofs.Seams
import Transcode.Proofs.Complaints
import Transcode.Proofs.Composition
import Transcode.Proofs.Ownership
import Transcode.Proofs.Embedding
import Transcode.Proofs.TrailingBlanks
import Transcode.Proofs.Tiling
import Transcode.Proofs.Quoting
import Transcode.Proofs.Values
import Transcode.Proofs.Grouping
import Transcode.Proofs.Heights
import Transcode.Proofs.Emptiness
import Transcode.Proofs.Visibility
import Transcode.Proofs.Unhandled
import Transcode.Proofs.Phases
import Transcode.Proofs.GapLines
import Transcode.Proofs.Spacing
import Transcode.Proofs.ElementBreaks
import Transcode.Proofs.NakedBreaks
import Transcode.Proofs.Positions
import Transcode.Proofs.CommentBlocks
import Transcode.Proofs.RemarkLines
import Transcode.Proofs.Outlines
import Transcode.Proofs.Humps
import Transcode.Proofs.Cuts
import Transcode.Proofs.Climbing
import Transcode.Proofs.Indexing
import Transcode.Proofs.Agreement
import Transcode.Proofs.Parts
import Transcode.Proofs.Advancing
