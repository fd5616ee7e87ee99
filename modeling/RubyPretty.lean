import RubyPretty.CommandLine.Arguments
import RubyPretty.CommandLine.Folder
import RubyPretty.CommandLine.Run
import RubyPretty.Comments.Attach
import RubyPretty.Comments.Splice
import RubyPretty.Decimal.Shortest
import RubyPretty.Doc.Basic
import RubyPretty.Doc.Breaks
import RubyPretty.Doc.Flat
import RubyPretty.Doc.Outline
import RubyPretty.Fault
import RubyPretty.Formatting
import RubyPretty.Heredoc.Indentation
import RubyPretty.Heredoc.Opener
import RubyPretty.Json.Basic
import RubyPretty.Json.Inspect
import RubyPretty.Json.Order
import RubyPretty.Json.Printer
import RubyPretty.Json.Reader
import RubyPretty.Layout.Chunk
import RubyPretty.Layout.Machine
import RubyPretty.Layout.Render
import RubyPretty.Layout.Weight
import RubyPretty.Main
import RubyPretty.Options.Basic
import RubyPretty.Options.Settings
import RubyPretty.ParserClient
import RubyPretty.Printing.Chain
import RubyPretty.Printing.Printer
import RubyPretty.Printing.Registry
import RubyPretty.Proofs.Comments.Anchors
import RubyPretty.Proofs.Comments.Attach
import RubyPretty.Proofs.Comments.Conservation
import RubyPretty.Proofs.Comments.Kept
import RubyPretty.Proofs.Comments.Lines
import RubyPretty.Proofs.Comments.Placement
import RubyPretty.Proofs.Comments.Positions
import RubyPretty.Proofs.Comments.Preference
import RubyPretty.Proofs.Comments.Splice
import RubyPretty.Proofs.Doc.Atoms
import RubyPretty.Proofs.Doc.Builders
import RubyPretty.Proofs.Doc.Flat
import RubyPretty.Proofs.Doc.Flattened
import RubyPretty.Proofs.Doc.Leaves
import RubyPretty.Proofs.Doc.Marking
import RubyPretty.Proofs.Doc.Marks
import RubyPretty.Proofs.Doc.MinCount
import RubyPretty.Proofs.Doc.Rebuilt
import RubyPretty.Proofs.Doc.Settled
import RubyPretty.Proofs.Heredoc.Indentation
import RubyPretty.Proofs.Layout.Content
import RubyPretty.Proofs.Layout.FlatGroups
import RubyPretty.Proofs.Layout.FlatText
import RubyPretty.Proofs.Layout.ForcedBreaks
import RubyPretty.Proofs.Layout.Frames
import RubyPretty.Proofs.Layout.Lines
import RubyPretty.Proofs.Layout.Order
import RubyPretty.Proofs.Layout.Pieces
import RubyPretty.Proofs.Layout.Rebuilding
import RubyPretty.Proofs.Layout.Roots
import RubyPretty.Proofs.Layout.Runs
import RubyPretty.Proofs.Layout.Spaced
import RubyPretty.Proofs.Layout.Suffixes
import RubyPretty.Proofs.Layout.Termination
import RubyPretty.Proofs.Layout.Texts
import RubyPretty.Proofs.Layout.Trimming
import RubyPretty.Proofs.Layout.Verbatim
import RubyPretty.Proofs.Layout.WidthFree
import RubyPretty.Proofs.Layout.Wrapping
import RubyPretty.Proofs.Options.Loose
import RubyPretty.Proofs.Outcome
import RubyPretty.Proofs.Printing.Keeping
import RubyPretty.Proofs.Printing.Links
import RubyPretty.Proofs.Printing.Names
import RubyPretty.Proofs.Printing.Registration
import RubyPretty.Proofs.Printing.Rejection
import RubyPretty.Proofs.Printing.RejectsOnly
import RubyPretty.Proofs.Printing.Sound
import RubyPretty.Proofs.Printing.Yields
import RubyPretty.Proofs.Rules.Arguments
import RubyPretty.Proofs.Rules.Blocks
import RubyPretty.Proofs.Rules.Calls
import RubyPretty.Proofs.Rules.Chains
import RubyPretty.Proofs.Rules.Collections
import RubyPretty.Proofs.Rules.Conditionals
import RubyPretty.Proofs.Rules.Default
import RubyPretty.Proofs.Rules.Definitions
import RubyPretty.Proofs.Rules.Expressions
import RubyPretty.Proofs.Rules.Fallback
import RubyPretty.Proofs.Rules.FormattedHeredocs
import RubyPretty.Proofs.Rules.Heredocs
import RubyPretty.Proofs.Rules.JumpParens
import RubyPretty.Proofs.Rules.Jumps
import RubyPretty.Proofs.Rules.KeyStyles
import RubyPretty.Proofs.Rules.Literals
import RubyPretty.Proofs.Rules.NeverRejects
import RubyPretty.Proofs.Rules.PlainForm
import RubyPretty.Proofs.Rules.RejectsOnly
import RubyPretty.Proofs.Rules.RejectsOnlyExpressions
import RubyPretty.Proofs.Rules.Statements
import RubyPretty.Proofs.Rules.WordArrays
import RubyPretty.Proofs.Shape.IntegerLiterals
import RubyPretty.Proofs.Shape.MethodBlocks
import RubyPretty.Proofs.Shape.Quotes
import RubyPretty.Proofs.Syntax.Bare
import RubyPretty.Proofs.Syntax.RoundTrip
import RubyPretty.Proofs.Syntax.Schema
import RubyPretty.Proofs.Text.Lines
import RubyPretty.Rules.Arguments
import RubyPretty.Rules.Arrays
import RubyPretty.Rules.Blocks
import RubyPretty.Rules.Calls
import RubyPretty.Rules.Cases
import RubyPretty.Rules.Commands
import RubyPretty.Rules.Conditionals
import RubyPretty.Rules.Default
import RubyPretty.Rules.Definitions
import RubyPretty.Rules.Hashes
import RubyPretty.Rules.Heredocs
import RubyPretty.Rules.Jumps
import RubyPretty.Rules.Loops
import RubyPretty.Rules.Operators
import RubyPretty.Rules.Parameters
import RubyPretty.Rules.Rescue
import RubyPretty.Rules.Statements
import RubyPretty.Rules.Strings
import RubyPretty.Rules.Tokens
import RubyPretty.Rules.Variables
import RubyPretty.Shape.Conditionals
import RubyPretty.Shape.Integer
import RubyPretty.Shape.Labels
import RubyPretty.Shape.Quotes
import RubyPretty.Shape.Statements
import RubyPretty.Shape.ToProc
import RubyPretty.Shape.Words
import RubyPretty.Syntax.Access
import RubyPretty.Syntax.Coordinate
import RubyPretty.Syntax.Encoding
import RubyPretty.Syntax.Grammar
import RubyPretty.Syntax.Outline
import RubyPretty.Syntax.Reading
import RubyPretty.Syntax.Tree
import RubyPretty.Text.Basic
import RubyPretty.Text.Integer
import RubyPretty.Text.Quoted
import RubyPretty.Text.ShellWords
