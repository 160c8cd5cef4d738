import Offside.Position
import Offside.Double.Basic
import Offside.Double.Decimal
import Offside.Double.Word
import Offside.Token.Vocabulary
import Offside.Token.Basic
import Offside.Source.Piece
import Offside.Source.Margin
import Offside.Source.Scan
import Offside.Syntax.Basic
import Offside.Syntax.Printer
import Offside.Grammar.Reply
import Offside.Grammar.Expression
import Offside.Grammar.Statement
import Offside.Value.Kind
import Offside.Value.Basic
import Offside.Value.Host
import Offside.Value.Operator
import Offside.Run.Error
import Offside.Run.Store
import Offside.Run.Machine
import Offside.Run.Eval
import Offside.Session
import Offside.Cli.Arguments
import Offside.Cli.Report
import Offside.Cli.Folder
import Offside.Main
import Offside.Proofs.Double.Rounding
import Offside.Proofs.Double.Bits
import Offside.Proofs.Double.ReadBack
import Offside.Proofs.Double.Whole
import Offside.Proofs.Double.Words
import Offside.Proofs.Double.Integers
import Offside.Proofs.Source.Layout
import Offside.Proofs.Source.Casing
import Offside.Proofs.Source.Lossless
import Offside.Proofs.Source.Separation
import Offside.Proofs.Source.Lines
import Offside.Proofs.Source.Joining
import Offside.Proofs.Source.Lexemes
import Offside.Proofs.Source.LongestMatch
import Offside.Proofs.Source.Locality
import Offside.Proofs.Source.Insertion
import Offside.Proofs.Source.Comments
import Offside.Proofs.Source.Depths
import Offside.Proofs.Source.BlankLines
import Offside.Proofs.Source.LineByLine
import Offside.Proofs.Source.LineEndings
import Offside.Proofs.Source.Lookahead
import Offside.Proofs.Source.Nesting
import Offside.Proofs.Source.Neighbours
import Offside.Proofs.Source.Spacing
import Offside.Proofs.Syntax.Bracketed
import Offside.Proofs.Syntax.Positions
import Offside.Proofs.Syntax.Recast
import Offside.Proofs.Syntax.Forms
import Offside.Proofs.Syntax.Unprinting
import Offside.Proofs.Syntax.Unambiguous
import Offside.Proofs.Grammar.Abreast
import Offside.Proofs.Grammar.Cursor
import Offside.Proofs.Grammar.Following
import Offside.Proofs.Grammar.Reading
import Offside.Proofs.Grammar.Spelling
import Offside.Proofs.Grammar.Phrases
import Offside.Proofs.Grammar.Statements
import Offside.Proofs.Grammar.Clauses
import Offside.Proofs.Grammar.Programs
import Offside.Proofs.Grammar.Respelling
import Offside.Proofs.Grammar.EmptyLines
import Offside.Proofs.Grammar.Robustness
import Offside.Proofs.Grammar.Stretching
import Offside.Proofs.Grammar.Recovery
import Offside.Proofs.Grammar.ErrorPlaces
import Offside.Proofs.Grammar.ErrorOrder
import Offside.Proofs.Grammar.EmptyLineErrors
import Offside.Proofs.Grammar.Orphans
import Offside.Proofs.Grammar.BrokenHeader
import Offside.Proofs.Grammar.HeaderErrors
import Offside.Proofs.Grammar.SpoiledHeaders
import Offside.Proofs.Grammar.LostBodies
import Offside.Proofs.Grammar.Trivia
import Offside.Proofs.Run.Bitwise
import Offside.Proofs.Run.Keeping
import Offside.Proofs.Run.Frames
import Offside.Proofs.Run.Interpretation
import Offside.Proofs.Run.Judgement
import Offside.Proofs.Run.Chains
import Offside.Proofs.Run.Fuel
import Offside.Proofs.Run.Curbs
import Offside.Proofs.Run.Halting
import Offside.Proofs.Run.Limit
import Offside.Proofs.Run.Moments
import Offside.Proofs.Run.Provenance
import Offside.Proofs.Run.Changes
import Offside.Proofs.Run.Growth
import Offside.Proofs.Run.Scopes
import Offside.Proofs.Run.Traces
import Offside.Proofs.Run.Commands
import Offside.Proofs.Run.Located
import Offside.Proofs.Run.Mirror
import Offside.Proofs.Run.Mirroring
import Offside.Proofs.Run.Bare
import Offside.Proofs.Run.Concatenation
import Offside.Proofs.Run.Isolation
import Offside.Proofs.Run.Numerals
import Offside.Proofs.Run.Room
import Offside.Proofs.Run.FirstError
import Offside.Proofs.Cli.Messages
import Offside.Proofs.Cli.Files
