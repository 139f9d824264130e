import VisualBasic.CommandLine.Arguments
import VisualBasic.CommandLine.Files
import VisualBasic.CommandLine.Listing
import VisualBasic.CommandLine.Run
import VisualBasic.Cursor.Basic
import VisualBasic.Cursor.Blank
import VisualBasic.Cursor.Comment
import VisualBasic.Cursor.Numeral
import VisualBasic.Cursor.Quoted
import VisualBasic.Cursor.Scan
import VisualBasic.Cursor.Word
import VisualBasic.Diagnostic.Basic
import VisualBasic.Diagnostic.Render
import VisualBasic.Diagnostic.Report
import VisualBasic.Grammar.Declaration
import VisualBasic.Grammar.Expression
import VisualBasic.Grammar.Module
import VisualBasic.Grammar.Rule
import VisualBasic.Grammar.Statement
import VisualBasic.Grammar.Trivia
import VisualBasic.Json
import VisualBasic.Main
import VisualBasic.Number.Rounding
import VisualBasic.Number.Shortest
import VisualBasic.Parse.Basic
import VisualBasic.Parse.Failure
import VisualBasic.Parse.Lawful
import VisualBasic.Parse.Token
import VisualBasic.Proofs.CommandLine.Agreement
import VisualBasic.Proofs.CommandLine.Listing
import VisualBasic.Proofs.Correspondence.Alignment
import VisualBasic.Proofs.Correspondence.Breaks
import VisualBasic.Proofs.Correspondence.Continuation
import VisualBasic.Proofs.Correspondence.Declaration
import VisualBasic.Proofs.Correspondence.Detachment
import VisualBasic.Proofs.Correspondence.Excerpt
import VisualBasic.Proofs.Correspondence.Expression
import VisualBasic.Proofs.Correspondence.Extension
import VisualBasic.Proofs.Correspondence.Folding
import VisualBasic.Proofs.Correspondence.Joining
import VisualBasic.Proofs.Correspondence.Landing
import VisualBasic.Proofs.Correspondence.Locality
import VisualBasic.Proofs.Correspondence.Marks
import VisualBasic.Proofs.Correspondence.Module
import VisualBasic.Proofs.Correspondence.Shift
import VisualBasic.Proofs.Correspondence.Statement
import VisualBasic.Proofs.Correspondence.Staying
import VisualBasic.Proofs.Correspondence.Twin
import VisualBasic.Proofs.Cursor.Blank
import VisualBasic.Proofs.Cursor.Ink
import VisualBasic.Proofs.Cursor.Kept
import VisualBasic.Proofs.Cursor.LongestBlanks
import VisualBasic.Proofs.Cursor.Mark
import VisualBasic.Proofs.Cursor.Number
import VisualBasic.Proofs.Cursor.Place
import VisualBasic.Proofs.Cursor.Token
import VisualBasic.Proofs.Diagnostic.Caret
import VisualBasic.Proofs.Diagnostic.Locating
import VisualBasic.Proofs.Diagnostic.Note
import VisualBasic.Proofs.Diagnostic.Pinpoint
import VisualBasic.Proofs.Diagnostic.Reported
import VisualBasic.Proofs.Diagnostic.Similar
import VisualBasic.Proofs.Gap.Frame
import VisualBasic.Proofs.Gap.Line
import VisualBasic.Proofs.Gap.Module
import VisualBasic.Proofs.Gap.Statement
import VisualBasic.Proofs.Lookahead.Item
import VisualBasic.Proofs.Lookahead.LongestWord
import VisualBasic.Proofs.Lookahead.Met
import VisualBasic.Proofs.Lookahead.Statement
import VisualBasic.Proofs.Lookahead.Terminator
import VisualBasic.Proofs.Lookahead.Word
import VisualBasic.Proofs.Number.Decimal
import VisualBasic.Proofs.Number.Nearest
import VisualBasic.Proofs.Number.Radix
import VisualBasic.Proofs.Number.Spelling
import VisualBasic.Proofs.Parse.Acceptance
import VisualBasic.Proofs.Parse.Commitment
import VisualBasic.Proofs.Parse.Correspondence
import VisualBasic.Proofs.Parse.Ensures
import VisualBasic.Proofs.Parse.Loop
import VisualBasic.Proofs.Parse.Runs
import VisualBasic.Proofs.Parse.Tracking
import VisualBasic.Proofs.Parse.Unrolling
import VisualBasic.Proofs.Progress.Loop
import VisualBasic.Proofs.Progress.Repetition
import VisualBasic.Proofs.Progress.Session
import VisualBasic.Proofs.Reading.Call
import VisualBasic.Proofs.Reading.Closing
import VisualBasic.Proofs.Reading.Expression
import VisualBasic.Proofs.Reading.Procedure
import VisualBasic.Proofs.Reading.Quoted
import VisualBasic.Proofs.Reading.Reference
import VisualBasic.Proofs.Routine.Agreement
import VisualBasic.Proofs.Routine.Declaration
import VisualBasic.Proofs.Routine.Expression
import VisualBasic.Proofs.Routine.Guide
import VisualBasic.Proofs.Routine.Module
import VisualBasic.Proofs.Routine.Sentence
import VisualBasic.Proofs.Routine.Statement
import VisualBasic.Proofs.Routine.Token
import VisualBasic.Proofs.Scanner.Number
import VisualBasic.Proofs.Scanner.Token
import VisualBasic.Proofs.Section.Contents
import VisualBasic.Proofs.Section.Order
import VisualBasic.Proofs.Session.Restoration
import VisualBasic.Proofs.Session.Settings
import VisualBasic.Proofs.Span.Bound
import VisualBasic.Proofs.Span.Declaration
import VisualBasic.Proofs.Span.Expression
import VisualBasic.Proofs.Span.Layout
import VisualBasic.Proofs.Span.Module
import VisualBasic.Proofs.Span.Region
import VisualBasic.Proofs.Span.Statement
import VisualBasic.Proofs.Text.Breaks
import VisualBasic.Proofs.Text.Condense
import VisualBasic.Proofs.Text.Cut
import VisualBasic.Proofs.Text.Ending
import VisualBasic.Proofs.Text.Folding
import VisualBasic.Proofs.Text.Gap
import VisualBasic.Proofs.Text.Joining
import VisualBasic.Proofs.Text.Lead
import VisualBasic.Proofs.Text.Line
import VisualBasic.Proofs.Text.Position
import VisualBasic.Proofs.Text.Quote
import VisualBasic.Proofs.Text.Run
import VisualBasic.Proofs.Text.Stop
import VisualBasic.Proofs.Text.Zone
import VisualBasic.Proofs.Tree.Blocks
import VisualBasic.Proofs.Tree.Relabel
import VisualBasic.Proofs.Tree.WellFormed
import VisualBasic.Proofs.Visit.Kinds
import VisualBasic.Proofs.Visit.Nodes
import VisualBasic.Proofs.Visit.Order
import VisualBasic.Proofs.Visit.Statistics
import VisualBasic.Proofs.Visit.Walk
import VisualBasic.Proofs.WellFormed.Declaration
import VisualBasic.Proofs.WellFormed.Expression
import VisualBasic.Proofs.WellFormed.Module
import VisualBasic.Proofs.WellFormed.Statement
import VisualBasic.Proofs.WellFormed.Token
import VisualBasic.Proofs.Word.Distance
import VisualBasic.Proofs.Word.Suggestion
import VisualBasic.Proofs.Writing.Block
import VisualBasic.Proofs.Writing.Compound
import VisualBasic.Proofs.Writing.Declaration
import VisualBasic.Proofs.Writing.Expression
import VisualBasic.Proofs.Writing.Line
import VisualBasic.Proofs.Writing.Literal
import VisualBasic.Proofs.Writing.Module
import VisualBasic.Proofs.Writing.Phrase
import VisualBasic.Proofs.Writing.Statement
import VisualBasic.Proofs.Writing.Variable
import VisualBasic.Routine.Basic
import VisualBasic.Routine.Declaration
import VisualBasic.Routine.Expression
import VisualBasic.Routine.Module
import VisualBasic.Routine.Rule
import VisualBasic.Routine.Statement
import VisualBasic.Routine.Token
import VisualBasic.Scanner.Basic
import VisualBasic.Scanner.Number
import VisualBasic.Scanner.Token
import VisualBasic.Section
import VisualBasic.Session
import VisualBasic.Statistics
import VisualBasic.Text.Character
import VisualBasic.Text.Location
import VisualBasic.Text.Paint
import VisualBasic.Text.Span
import VisualBasic.Text.WhiteSpace
import VisualBasic.Tree.Declaration
import VisualBasic.Tree.Expression
import VisualBasic.Tree.Json
import VisualBasic.Tree.Literal
import VisualBasic.Tree.Module
import VisualBasic.Tree.Statement
import VisualBasic.Visit
import VisualBasic.Word.Distance
import VisualBasic.Word.Keyword
import VisualBasic.Word.Operator
import VisualBasic.Word.Suggestion
