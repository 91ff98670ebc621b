import NoteCell.CommandLine.Arguments
import NoteCell.CommandLine.Command
import NoteCell.CommandLine.Inserting
import NoteCell.CommandLine.Lexing
import NoteCell.Decimal.FloatText
import NoteCell.Decimal.Reading
import NoteCell.Decimal.Shortest
import NoteCell.Json.Printing
import NoteCell.Json.Reader
import NoteCell.Json.Record
import NoteCell.Json.Value
import NoteCell.Machine.Action
import NoteCell.Machine.Arguments
import NoteCell.Machine.Builtins
import NoteCell.Machine.Libraries
import NoteCell.Machine.Methods
import NoteCell.Machine.Operators
import NoteCell.Machine.State
import NoteCell.Machine.Step
import NoteCell.Main
import NoteCell.Number.Arithmetic
import NoteCell.Number.Reading
import NoteCell.Number.Rounding
import NoteCell.Output.Scopes
import NoteCell.Output.Target
import NoteCell.Parsing.Cursor
import NoteCell.Parsing.Expression
import NoteCell.Parsing.Statement
import NoteCell.Proofs.Blocking.Conversations
import NoteCell.Proofs.Blocking.Hosted
import NoteCell.Proofs.Blocking.Refinement
import NoteCell.Proofs.Blocking.Simulation
import NoteCell.Proofs.Decimal.Bits
import NoteCell.Proofs.Decimal.Nearest
import NoteCell.Proofs.Decimal.Shortest
import NoteCell.Proofs.Decimal.Text
import NoteCell.Proofs.Grammar.Accepted
import NoteCell.Proofs.Grammar.AcceptedStatements
import NoteCell.Proofs.Grammar.Brackets
import NoteCell.Proofs.Grammar.Consumed
import NoteCell.Proofs.Grammar.Derivations
import NoteCell.Proofs.Grammar.Derived
import NoteCell.Proofs.Grammar.DerivedStatements
import NoteCell.Proofs.Grammar.Moved
import NoteCell.Proofs.Grammar.Origins
import NoteCell.Proofs.Grammar.Parsed
import NoteCell.Proofs.Grammar.Placeless
import NoteCell.Proofs.Grammar.Places
import NoteCell.Proofs.Grammar.Reread
import NoteCell.Proofs.Grammar.Sites
import NoteCell.Proofs.Grammar.Stretches
import NoteCell.Proofs.Grammar.Unambiguous
import NoteCell.Proofs.Grammar.UnambiguousStatements
import NoteCell.Proofs.Grouping.Groups
import NoteCell.Proofs.Grouping.Least
import NoteCell.Proofs.Grouping.Needs
import NoteCell.Proofs.Grouping.Reader
import NoteCell.Proofs.Grouping.Required
import NoteCell.Proofs.Json.Reads
import NoteCell.Proofs.Json.Written
import NoteCell.Proofs.Lexing.Alone
import NoteCell.Proofs.Lexing.Appended
import NoteCell.Proofs.Lexing.Arranged
import NoteCell.Proofs.Lexing.BlankLines
import NoteCell.Proofs.Lexing.Borders
import NoteCell.Proofs.Lexing.Cuttings
import NoteCell.Proofs.Lexing.Excerpts
import NoteCell.Proofs.Lexing.Floats
import NoteCell.Proofs.Lexing.Known
import NoteCell.Proofs.Lexing.LaidOut
import NoteCell.Proofs.Lexing.LineEndings
import NoteCell.Proofs.Lexing.LineNumbers
import NoteCell.Proofs.Lexing.Lines
import NoteCell.Proofs.Lexing.Literals
import NoteCell.Proofs.Lexing.Lossless
import NoteCell.Proofs.Lexing.Pieces
import NoteCell.Proofs.Lexing.Positions
import NoteCell.Proofs.Lexing.Relocated
import NoteCell.Proofs.Lexing.Replaced
import NoteCell.Proofs.Lexing.Runs
import NoteCell.Proofs.Lexing.Seam
import NoteCell.Proofs.Lexing.Strings
import NoteCell.Proofs.Lexing.Within
import NoteCell.Proofs.Machine.Actions
import NoteCell.Proofs.Machine.Arguments
import NoteCell.Proofs.Machine.Bodies
import NoteCell.Proofs.Machine.Cells
import NoteCell.Proofs.Machine.Changes
import NoteCell.Proofs.Machine.Coroutines
import NoteCell.Proofs.Machine.Literals
import NoteCell.Proofs.Machine.Moves
import NoteCell.Proofs.Number.Arithmetic
import NoteCell.Proofs.Number.Doubles
import NoteCell.Proofs.Number.Negation
import NoteCell.Proofs.Number.Order
import NoteCell.Proofs.Output.Pipelines
import NoteCell.Proofs.Output.Scopes
import NoteCell.Proofs.Parsing.Atoms
import NoteCell.Proofs.Parsing.Levels
import NoteCell.Proofs.Parsing.Operators
import NoteCell.Proofs.Parsing.Primaries
import NoteCell.Proofs.Parsing.PrintedExpression
import NoteCell.Proofs.Parsing.PrintedSimple
import NoteCell.Proofs.Parsing.PrintedStatement
import NoteCell.Proofs.Printing.Brackets
import NoteCell.Proofs.Printing.Lines
import NoteCell.Proofs.Printing.Segments
import NoteCell.Proofs.Printing.Shape
import NoteCell.Proofs.Printing.Tokens
import NoteCell.Proofs.Printing.Words
import NoteCell.Proofs.Reading.Cursor
import NoteCell.Proofs.Reading.Expressions
import NoteCell.Proofs.Reading.Statements
import NoteCell.Proofs.RoundTrip
import NoteCell.Proofs.Safety.Actions
import NoteCell.Proofs.Safety.States
import NoteCell.Proofs.Safety.Trees
import NoteCell.Proofs.Safety.Values
import NoteCell.Proofs.Session.Accounts
import NoteCell.Proofs.Session.Canonical
import NoteCell.Proofs.Session.Captured
import NoteCell.Proofs.Session.Cells
import NoteCell.Proofs.Session.Coroutines
import NoteCell.Proofs.Session.Globals
import NoteCell.Proofs.Session.Joined
import NoteCell.Proofs.Session.Nesting
import NoteCell.Proofs.Session.Pending
import NoteCell.Proofs.Session.Sequels
import NoteCell.Proofs.Session.Trees
import NoteCell.Proofs.Suspension.Desk
import NoteCell.Proofs.Suspension.Ids
import NoteCell.Proofs.Suspension.Insertion
import NoteCell.Proofs.Suspension.Located
import NoteCell.Proofs.Suspension.Shape
import NoteCell.Proofs.Suspension.Text
import NoteCell.Proofs.Text.Utf8
import NoteCell.Proofs.Tree.Ancestors
import NoteCell.Proofs.Tree.Completed
import NoteCell.Proofs.Tree.Forgotten
import NoteCell.Proofs.Tree.Ids
import NoteCell.Proofs.Tree.Nodes
import NoteCell.Proofs.Tree.Numbered
import NoteCell.Proofs.Tree.Shape
import NoteCell.Proofs.Tree.Slices
import NoteCell.Proofs.Tree.Spans
import NoteCell.Proofs.Tree.Upright
import NoteCell.Proofs.Value.Data
import NoteCell.Proofs.Value.Dicts
import NoteCell.Proofs.Value.Displays
import NoteCell.Proofs.Value.Equality
import NoteCell.Proofs.Value.Iterations
import NoteCell.Proofs.Value.Lists
import NoteCell.Proofs.Value.Literals
import NoteCell.Proofs.Value.Membership
import NoteCell.Proofs.Value.Order
import NoteCell.Proofs.Value.Preorder
import NoteCell.Proofs.Value.Ranges
import NoteCell.Proofs.Value.Repetition
import NoteCell.Proofs.Value.Sorting
import NoteCell.Proofs.Worker.Causes
import NoteCell.Proofs.Worker.Histories
import NoteCell.Proofs.Worker.Orders
import NoteCell.Proofs.Worker.Wire
import NoteCell.Session.Basic
import NoteCell.Session.Encoding
import NoteCell.Session.Pipeline
import NoteCell.Suspension.Desk
import NoteCell.Suspension.Insertion
import NoteCell.Suspension.Registry
import NoteCell.Text.Casing
import NoteCell.Text.CharClass
import NoteCell.Text.Dump
import NoteCell.Text.Position
import NoteCell.Text.Quoted
import NoteCell.Text.Search
import NoteCell.Text.Utf8
import NoteCell.Token.Basic
import NoteCell.Token.Dump
import NoteCell.Token.Layout
import NoteCell.Token.Lexeme
import NoteCell.Tree.Ancestry
import NoteCell.Tree.Basic
import NoteCell.Tree.Completion
import NoteCell.Tree.ControlFlow
import NoteCell.Tree.Dump
import NoteCell.Tree.Printing
import NoteCell.Value.Basic
import NoteCell.Value.Equality
import NoteCell.Value.Exception
import NoteCell.Value.Heap
import NoteCell.Value.Iteration
import NoteCell.Value.Order
import NoteCell.Value.Sequence
import NoteCell.Value.Text
import NoteCell.Worker.Framing
import NoteCell.Worker.Protocol
import NoteCell.Worker.Service
