import ScriptMinifier.Text.Basic
import ScriptMinifier.Text.Blank
import ScriptMinifier.Text.Decimal
import ScriptMinifier.Text.Segment
import ScriptMinifier.Text.Argument
import ScriptMinifier.Text.Dictionary
import ScriptMinifier.Text.Quoted
import ScriptMinifier.Literal.Placeholder
import ScriptMinifier.Literal.Table
import ScriptMinifier.Literal.Rawcode
import ScriptMinifier.Fault
import ScriptMinifier.Source.Lexeme
import ScriptMinifier.Journal
import ScriptMinifier.Source.Region
import ScriptMinifier.Source.Blocks
import ScriptMinifier.Source.Event
import ScriptMinifier.Layout
import ScriptMinifier.Syntax.Datatype
import ScriptMinifier.Syntax.Declaration
import ScriptMinifier.Syntax.Parameter
import ScriptMinifier.Syntax.Function
import ScriptMinifier.Program
import ScriptMinifier.Ranking
import ScriptMinifier.Constant.Binary32
import ScriptMinifier.Constant.Decimal
import ScriptMinifier.Constant.Value
import ScriptMinifier.Text.Printable
import ScriptMinifier.Text.Escaped
import ScriptMinifier.Constant.Token
import ScriptMinifier.Constant.Expression
import ScriptMinifier.Naming.Pool
import ScriptMinifier.Usage.Idiom
import ScriptMinifier.Usage.CallGraph
import ScriptMinifier.Usage.Count
import ScriptMinifier.Pruning
import ScriptMinifier.Substitution.Table
import ScriptMinifier.Substitution.Inlining
import ScriptMinifier.Constant.Folding
import ScriptMinifier.Naming.Global
import ScriptMinifier.Naming.Local
import ScriptMinifier.Output.Truth
import ScriptMinifier.Output.Numeral
import ScriptMinifier.Output.Assembly
import ScriptMinifier.Minify
import ScriptMinifier.Command.Arguments
import ScriptMinifier.Command.Disk
import ScriptMinifier.Command.Run
import ScriptMinifier.Main
import ScriptMinifier.Proofs.Text.Dictionary
import ScriptMinifier.Proofs.Text.Segment
import ScriptMinifier.Proofs.Text.Hexadecimal
import ScriptMinifier.Proofs.Literal.Restoring
import ScriptMinifier.Proofs.Naming.Candidates
import ScriptMinifier.Proofs.Naming.Dealing
import ScriptMinifier.Proofs.Naming.Capture
import ScriptMinifier.Proofs.Usage.Expansion
import ScriptMinifier.Proofs.Usage.Reachability
import ScriptMinifier.Proofs.Usage.Retention
import ScriptMinifier.Proofs.Source.Annotation
import ScriptMinifier.Proofs.Source.Lexing
import ScriptMinifier.Proofs.Source.Passages
import ScriptMinifier.Proofs.Source.Collecting
import ScriptMinifier.Proofs.Source.Fidelity
import ScriptMinifier.Proofs.Constant.Folding
import ScriptMinifier.Proofs.WordPasses
import ScriptMinifier.Proofs.Usage.Insertion
import ScriptMinifier.Proofs.Literal.Sealed
import ScriptMinifier.Proofs.Substitution.Sealing
import ScriptMinifier.Proofs.Syntax.Reading
import ScriptMinifier.Proofs.Steps
import ScriptMinifier.Proofs.Literal.SealedProgram
import ScriptMinifier.Proofs.Literal.Passes
import ScriptMinifier.Proofs.Literal.Stages
import ScriptMinifier.Proofs.Literal.Wordwise
import ScriptMinifier.Proofs.Text.Lines
import ScriptMinifier.Proofs.Layout.Tidy
import ScriptMinifier.Proofs.Literal.Renumbering
import ScriptMinifier.Proofs.Text.Fields
import ScriptMinifier.Proofs.Syntax.Rendering
import ScriptMinifier.Proofs.Literal.Counting
import ScriptMinifier.Proofs.Source.BlockTexts
import ScriptMinifier.Proofs.Source.Relexing
import ScriptMinifier.Proofs.Output.Legible
import ScriptMinifier.Proofs.Output.Items
import ScriptMinifier.Proofs.Output.Readback
import ScriptMinifier.Proofs.Naming.Locals
import ScriptMinifier.Proofs.Usage.LiteralCall
import ScriptMinifier.Proofs.Naming.Replacements
import ScriptMinifier.Proofs.Output.Shortening
import ScriptMinifier.Proofs.Output.Writing
import ScriptMinifier.Proofs.Usage.Declared
import ScriptMinifier.Proofs.Usage.VariableEvents
import ScriptMinifier.Proofs.Usage.Callbacks
import ScriptMinifier.Proofs.Literal.Numbers
import ScriptMinifier.Proofs.Naming.Occurrences
import ScriptMinifier.Proofs.Constant.CutOff
import ScriptMinifier.Proofs.Constant.Names
import ScriptMinifier.Proofs.Constant.Values
import ScriptMinifier.Proofs.Spelling.Counting
import ScriptMinifier.Proofs.Spelling.Folding
import ScriptMinifier.Proofs.Spelling.Independence
import ScriptMinifier.Proofs.Usage.References
import ScriptMinifier.Proofs.Ranking
import ScriptMinifier.Proofs.Naming.History
import ScriptMinifier.Proofs.Naming.Order
import ScriptMinifier.Proofs.Naming.GlobalNames
import ScriptMinifier.Proofs.Naming.LocalNames
import ScriptMinifier.Proofs.Constant.Grammar
import ScriptMinifier.Proofs.Constant.Descent
import ScriptMinifier.Proofs.Constant.Cutting
import ScriptMinifier.Proofs.Constant.Substituting
import ScriptMinifier.Proofs.Constant.Printing
import ScriptMinifier.Proofs.Constant.Meaning
import ScriptMinifier.Proofs.Constant.Pieces
import ScriptMinifier.Proofs.Literal.Rawcodes
import ScriptMinifier.Proofs.Output.Numerals
import ScriptMinifier.Proofs.Output.Agreement
import ScriptMinifier.Proofs.Naming.DroppedCalls
import ScriptMinifier.Proofs.Naming.Answers
import ScriptMinifier.Proofs.Naming.Coverage
import ScriptMinifier.Proofs.Constant.Completeness
import ScriptMinifier.Proofs.Text.Nesting
import ScriptMinifier.Proofs.Substitution.CallSites
import ScriptMinifier.Proofs.Substitution.Calls
import ScriptMinifier.Proofs.Output.SecondRun
import ScriptMinifier.Proofs.Output.NumeralLengths
import ScriptMinifier.Proofs.Constant.Literals
import ScriptMinifier.Proofs.Output.RecastLengths
import ScriptMinifier.Proofs.Output.Extraction
import ScriptMinifier.Proofs.Naming.Spared
import ScriptMinifier.Proofs.Output.Undoing
import ScriptMinifier.Proofs.Constant.Connectives
import ScriptMinifier.Proofs.Literal.Lifting
import ScriptMinifier.Proofs.Source.LiftedBlock
import ScriptMinifier.Proofs.Source.Reader
import ScriptMinifier.Proofs.Source.ReaderLexemes
import ScriptMinifier.Proofs.Source.ReaderBlocks
import ScriptMinifier.Proofs.Source.OpenEnds
import ScriptMinifier.Proofs.Layout.Squeezing
import ScriptMinifier.Proofs.Literal.Codec
import ScriptMinifier.Proofs.Literal.Decoding
import ScriptMinifier.Proofs.Text.Arguments
import ScriptMinifier.Proofs.Text.Bytes
import ScriptMinifier.Proofs.Text.Partition
import ScriptMinifier.Proofs.Text.Scanning
import ScriptMinifier.Proofs.Naming.Cursor
import ScriptMinifier.Proofs.Naming.Drawing
